import Fip.Bfc.Labels
import Mathlib.Algebra.GroupWithZero.Nat

/-!
# The bytes of the output

What the lines of the output stand for when a definition is assembled at an
address: a subroutine call is three bytes, a word two, both big endian, and a
label is the address of what follows it.
-/

namespace Fip.Bfc

/-- A word in memory. -/
def word (c : Cell) : List UInt8 :=
  [.ofNat (c.toNat / 256), .ofNat (c.toNat % 256)]

@[simp]
theorem length_word (c : Cell) : (word c).length = 2 := rfl

section

variable (xt : ℕ → Cell) (addr : ℕ → Cell)

/-- The bytes of an item, where `xt` are the addresses of the words and `addr`
those of the labels of the definition.  Lines of assembler source are left out;
no colon body has them. -/
def Item.bytes : Item → List UInt8
  | label _ => []
  | jsr l => 0xbd :: word (xt l)
  | dwLabel l => word (addr l)
  | dw n => word (.ofInt 16 n)
  | db c => [.ofNat c]
  | ascii _ text => text.toList.map fun c => .ofNat c.toNat
  | asciz _ text => (text.toList.map fun c => .ofNat c.toNat) ++ [0]
  | asm _ => []
  | rts => [0x39]

def Code.bytes (code : Code) : List UInt8 :=
  code.flatMap (Item.bytes xt addr)

end

/-- How many bytes an item takes, whatever the addresses. -/
def Item.size (item : Item) : ℕ :=
  (item.bytes (fun _ => 0) fun _ => 0).length

def Code.size (code : Code) : ℕ :=
  (code.map Item.size).sum

/-- How far behind the start of the code a label is. -/
def Code.offset (l : ℕ) : Code → ℕ
  | [] => 0
  | item :: code => if item = .label l then 0 else item.size + Code.offset l code

/-- A definition assembled at an address. -/
def Code.assemble (xt : ℕ → Cell) (base : Cell) (code : Code) : List UInt8 :=
  code.bytes xt fun l => base + .ofNat 16 (code.offset l)

section

variable {xt addr : ℕ → Cell} {code first second : Code} {l : ℕ} {pos : Cell}

@[simp]
theorem Item.size_jsr (l : ℕ) : Item.size (.jsr l) = 3 := rfl

@[simp]
theorem Item.size_dwLabel (l : ℕ) : Item.size (.dwLabel l) = 2 := rfl

@[simp]
theorem Item.size_label (l : ℕ) : Item.size (.label l) = 0 := rfl

theorem Item.length_bytes (item : Item) : (item.bytes xt addr).length = item.size := by
  cases item <;> simp [size, bytes]

@[simp]
theorem Code.length_bytes (code : Code) : (code.bytes xt addr).length = code.size := by
  induction code with
  | nil => rfl
  | cons item code ih =>
      calc (Code.bytes xt addr (item :: code)).length
          = (item.bytes xt addr).length + (Code.bytes xt addr code).length :=
            List.length_append
        _ = item.size + Code.size code := by rw [Item.length_bytes, ih]
        _ = Code.size (item :: code) := rfl

@[simp]
theorem Code.bytes_nil : Code.bytes xt addr [] = [] := rfl

@[simp]
theorem Code.bytes_cons (item : Item) (code : Code) :
    Code.bytes xt addr (item :: code) = item.bytes xt addr ++ code.bytes xt addr := rfl

@[simp]
theorem Code.size_nil : Code.size [] = 0 := rfl

@[simp]
theorem Code.size_cons (item : Item) (code : Code) :
    Code.size (item :: code) = item.size + code.size := rfl

@[simp]
theorem Code.bytes_append (first second : Code) :
    Code.bytes xt addr (first ++ second) = first.bytes xt addr ++ second.bytes xt addr :=
  List.flatMap_append

@[simp]
theorem Code.size_append (first second : Code) :
    Code.size (first ++ second) = first.size + second.size := by
  rw [size, List.map_append, List.sum_append]
  rfl

theorem Code.offset_append {front back : Code} (hnotin : .label l ∉ front) :
    Code.offset l (front ++ .label l :: back) = Code.size front := by
  induction front with
  | nil => rw [List.nil_append, offset, if_pos rfl]; rfl
  | cons item front ih =>
      rw [List.mem_cons, not_or] at hnotin
      rw [List.cons_append, offset, if_neg (Ne.symm hnotin.1), ih hnotin.2]
      rfl

/-- The labels of a piece of code are where it puts them when it starts at
`pos`. -/
def Placed (addr : ℕ → Cell) (pos : Cell) (code : Code) : Prop :=
  ∀ front l back, code = front ++ .label l :: back →
    addr l = pos + .ofNat 16 (Code.size front)

namespace Placed

theorem left (hplaced : Placed addr pos (first ++ second)) : Placed addr pos first := by
  intro front l back heq
  exact hplaced front l (back ++ second) (by rw [heq, List.append_assoc]; rfl)

theorem right (hplaced : Placed addr pos (first ++ second)) :
    Placed addr (pos + .ofNat 16 first.size) second := by
  intro front l back heq
  have hlabel := hplaced (first ++ front) l back (by rw [heq, List.append_assoc])
  rw [hlabel, Code.size_append, BitVec.ofNat_add, BitVec.add_assoc]

theorem head (hplaced : Placed addr pos (.label l :: code)) : addr l = pos := by
  have hlabel := hplaced [] l code rfl
  rw [hlabel]
  exact BitVec.add_zero pos

theorem tail {item : Item} (hplaced : Placed addr pos (item :: code)) :
    Placed addr (pos + .ofNat 16 item.size) code := by
  have hsize : Code.size [item] = item.size := by
    rw [Code.size, List.map_cons, List.map_nil, List.sum_cons, List.sum_nil, Nat.add_zero]
  rw [← hsize]
  have hsplit : Placed addr pos ([item] ++ code) := hplaced
  exact hsplit.right

end Placed

/-- The same with the address as an offset. -/
theorem Placed.right_at {base : Cell} {offset : ℕ}
    (hplaced : Placed addr (base + .ofNat 16 offset) (first ++ second)) :
    Placed addr (base + .ofNat 16 (offset + first.size)) second := by
  rw [BitVec.ofNat_add, ← BitVec.add_assoc]
  exact hplaced.right

theorem Placed.at {base : Cell} {offset other : ℕ}
    (hplaced : Placed addr (base + .ofNat 16 offset) code) (heq : other = offset) :
    Placed addr (base + .ofNat 16 other) code :=
  heq ▸ hplaced

theorem Placed.tail_at {base : Cell} {offset : ℕ} {item : Item}
    (hplaced : Placed addr (base + .ofNat 16 offset) (item :: code)) :
    Placed addr (base + .ofNat 16 (offset + item.size)) code := by
  rw [BitVec.ofNat_add, ← BitVec.add_assoc]
  exact hplaced.tail

/-- The assembler puts the labels of a body in their places. -/
theorem Body.placed (refs : Refs) (body : Body) (l : ℕ) (next : Code) (base : Cell) :
    Placed (fun m => base + .ofNat 16 ((body.code refs l ++ next).offset m)) base
      (body.code refs l) := by
  intro front m back heq
  have hnotin := label_notMem refs body heq
  dsimp only
  rw [heq, List.append_assoc, List.cons_append, Code.offset_append hnotin]

end

end Fip.Bfc
