import Fip.Bfc.Spiffy
import Fip.Bfc.Correct

/-!
# Both compilers make the same code

Spiffy's compiler puts zero where a branch goes forward and patches it when it
gets there; the C compiler prints a label.  Assembled where Spiffy stores it,
the output is what Spiffy has in memory behind the last word.
-/

namespace Fip.Bfc

open Spiffy

/-- The state when these bytes have been stored and this is on the data
stack. -/
def Spiffy.wrote (s : Spiffy) (bytes : List UInt8) (data : List Cell) : Spiffy where
  data := data
  mem := Memory.wrapWrite 65536 s.mem s.cp.toNat bytes
  cp := s.cp + .ofNat 16 bytes.length
  state := s.state

section

variable {dict : Dict} {bytes front cells back : List UInt8} {hole target : Cell}

theorem colon_cons (word : Word) (words : List Word) (s : Spiffy) :
    colon (word :: words) s = (word s).bind (colon words) := rfl

theorem colon_singleton (word : Word) (s : Spiffy) : colon [word] s = word s :=
  bind_pure (word s)

theorem wrote_mem (s : Spiffy) (bytes more : List UInt8) (data : List Cell) :
    Memory.wrapWrite 65536 (s.wrote bytes data).mem (s.wrote bytes data).cp.toNat more =
      Memory.wrapWrite 65536 s.mem s.cp.toNat (bytes ++ more) := by
  have hcp : (s.wrote bytes data).cp.toNat = (s.cp.toNat + bytes.length) % 65536 := by
    change (s.cp + BitVec.ofNat 16 bytes.length).toNat = _
    rw [BitVec.toNat_add, BitVec.toNat_ofNat, Nat.add_mod_mod]
  rw [hcp, Memory.wrapWrite_mod, Memory.wrapWrite_append]
  rfl

theorem wrote_cp (s : Spiffy) (bytes : List UInt8) (data : List Cell) (count : ℕ) :
    (s.wrote bytes data).cp + .ofNat 16 count = s.cp + .ofNat 16 (bytes.length + count) := by
  change s.cp + BitVec.ofNat 16 bytes.length + BitVec.ofNat 16 count = _
  rw [BitVec.add_assoc, BitVec.ofNat_add]

theorem swap_wrote (s : Spiffy) (bytes : List UInt8) (a b : Cell) (data : List Cell) :
    swap (s.wrote bytes (a :: b :: data)) = some (s.wrote bytes (b :: a :: data)) := rfl

/-- More bytes are stored at `here`, which moves on. -/
theorem wrote_append (s : Spiffy) (bytes more : List UInt8) (data rest : List Cell) :
    ({ data := rest
       mem := Memory.wrapWrite 65536 (s.wrote bytes data).mem
         (s.wrote bytes data).cp.toNat more
       cp := .ofNat 16 more.length + (s.wrote bytes data).cp
       state := s.state } : Spiffy) = s.wrote (bytes ++ more) rest := by
  rw [wrote_mem, BitVec.add_comm, wrote_cp, ← List.length_append]
  rfl

theorem comma_wrote (s : Spiffy) (bytes : List UInt8) (n : Cell) (data : List Cell) :
    comma (s.wrote bytes (n :: data)) = some (s.wrote (bytes ++ word n) data) := by
  rw [← wrote_append s bytes (word n) (n :: data) data]
  rfl

theorem cComma_wrote (s : Spiffy) (bytes : List UInt8) (n : Cell) (data : List Cell) :
    cComma (s.wrote bytes (n :: data)) =
      some (s.wrote (bytes ++ [.ofNat (n.toNat % 256)]) data) := by
  rw [← wrote_append s bytes [.ofNat (n.toNat % 256)] (n :: data) data]
  rfl

theorem compile_wrote (s : Spiffy) (bytes : List UInt8) (header : Cell) (data : List Cell) :
    compile dict (s.wrote bytes (header :: data)) =
      some (s.wrote (bytes ++ 0xbd :: word (dict.xt header)) data) := by
  have hopcode := cComma_wrote s bytes 0xbd (header :: data)
  have hxt := comma_wrote s (bytes ++ [0xbd]) (dict.xt header) data
  calc compile dict (s.wrote bytes (header :: data))
      = (cComma (s.wrote bytes (0xbd :: header :: data))).bind
          (colon [fetchXt dict, comma]) := rfl
    _ = comma (s.wrote (bytes ++ [0xbd]) (dict.xt header :: data)) := by
          rw [hopcode]
          rfl
    _ = some (s.wrote (bytes ++ 0xbd :: word (dict.xt header)) data) := by
          rw [hxt, List.append_assoc]
          rfl

/-- `then` and its like patch a cell with the address they have come to. -/
theorem THEN_wrote (s : Spiffy) (hbytes : bytes = front ++ cells ++ back)
    (hcells : cells.length = 2) (hsize : bytes.length ≤ 65536)
    (hhole : hole = s.cp + .ofNat 16 front.length)
    (htarget : target = s.cp + .ofNat 16 bytes.length) (data : List Cell) :
    THEN (s.wrote bytes (hole :: data)) =
      some (s.wrote (front ++ word target ++ back) data) := by
  have haddr : hole.toNat = (s.cp.toNat + front.length) % 65536 := by
    rw [hhole, BitVec.toNat_add, BitVec.toNat_ofNat, Nat.add_mod_mod]
  have hpatch := Memory.wrapWrite_patch s.mem s.cp.toNat
    ((length_word target).trans hcells.symm) (hbytes ▸ hsize)
  have hlength : (front ++ word target ++ back).length = bytes.length := by
    simp only [hbytes, List.length_append, length_word, hcells]
  calc THEN (s.wrote bytes (hole :: data))
      = some
        { data := data
          mem := Memory.wrapWrite 65536 (Memory.wrapWrite 65536 s.mem s.cp.toNat bytes)
            hole.toNat (word (s.cp + .ofNat 16 bytes.length))
          cp := s.cp + .ofNat 16 bytes.length
          state := s.state } := rfl
    _ = some (s.wrote (front ++ word target ++ back) data) := by
        rw [haddr, Memory.wrapWrite_mod, ← htarget, hbytes, hpatch, wrote, hlength, htarget]

end

/-- Spiffy's dictionary holds the words of its compiler, and the words that the
compiler needs have these execution tokens. -/
structure Resident (dict : Dict) (refs : Refs) (xt : ℕ → Cell) : Prop where
  immediate : ∀ name action, (name, action) ∈ immediate dict → ∃ header,
    dict.find name = some header ∧ dict.flags header &&& 0x8000 ≠ 0 ∧
      dict.exec (dict.xt header) = action
  lit : ∃ header, dict.find "lit" = some header ∧ dict.xt header = xt refs.lit
  zbra : ∃ header, dict.find "0bra" = some header ∧ dict.xt header = xt refs.zbra
  bra : ∃ header, dict.find "bra" = some header ∧ dict.xt header = xt refs.bra
  dofor : ∃ header, dict.find "dofor" = some header ∧ dict.xt header = xt refs.dofor
  push : ∃ header, dict.find "push" = some header ∧ dict.xt header = xt refs.push

/-- The words of the input that are the body for Spiffy; a word that is called is
not immediate. -/
inductive Typed (dict : Dict) (xt : ℕ → Cell) : List Token → Body → Prop
  | empty : Typed dict xt [] .empty
  | lit {x} : Typed dict xt [.number (.ofInt 16 x)] (.lit x)
  | call {name header ref} : dict.find name = some header →
      dict.flags header &&& 0x8000 = 0 → dict.xt header = xt ref →
      Typed dict xt [.word name] (.call ref)
  | seq {first second a b} : Typed dict xt first a → Typed dict xt second b →
      Typed dict xt (first ++ second) (.seq a b)
  | ifThen {yes a} : Typed dict xt yes a →
      Typed dict xt (.word "if" :: (yes ++ [.word "then"])) (.ifThen a)
  | ifElse {yes no a b} : Typed dict xt yes a → Typed dict xt no b →
      Typed dict xt (.word "if" :: (yes ++ .word "else" :: (no ++ [.word "then"])))
        (.ifElse a b)
  | beginUntil {body a} : Typed dict xt body a →
      Typed dict xt (.word "begin" :: (body ++ [.word "until"])) (.beginUntil a)
  | beginAgain {body a} : Typed dict xt body a →
      Typed dict xt (.word "begin" :: (body ++ [.word "again"])) (.beginAgain a)
  | beginWhile {condition body a b} : Typed dict xt condition a → Typed dict xt body b →
      Typed dict xt
        (.word "begin" :: (condition ++ .word "while" :: (body ++ [.word "repeat"])))
        (.beginWhile a b)
  | forNext {body a} : Typed dict xt body a →
      Typed dict xt (.word "for" :: (body ++ [.word "next"])) (.forNext a)

/-- The words of the input, one after the other. -/
def Spiffy.quits (dict : Dict) (tokens : List Token) : Word :=
  colon (tokens.map (quit dict))

section

variable {dict : Dict} {refs : Refs} {xt addr : ℕ → Cell} {s : Spiffy}
  {bytes front cells back : List UInt8} {n hole target : Cell}

theorem quits_append (first second : List Token) (s : Spiffy) :
    quits dict (first ++ second) s = (quits dict first s).bind (quits dict second) := by
  rw [quits, List.map_append, colon, List.foldlM_append]
  rfl

theorem quits_cons (token : Token) (tokens : List Token) (s : Spiffy) :
    quits dict (token :: tokens) s = (quit dict token s).bind (quits dict tokens) := rfl

theorem quit_immediate (hresident : Resident dict refs xt) (name : String) (action : Word)
    (hmem : (name, action) ∈ immediate dict) (s : Spiffy) :
    quit dict (.word name) s = action s := by
  obtain ⟨header, hfind, hflags, hexec⟩ := hresident.immediate name action hmem
  rw [quit, hfind]
  dsimp only
  rw [Option.bind_some, if_pos hflags, hexec]

/-- A call of a word that is looked up by its name. -/
theorem compile_named {name : String} {ref : ℕ}
    (hnamed : ∃ header, dict.find name = some header ∧ dict.xt header = xt ref)
    (s : Spiffy) (bytes : List UInt8) (data : List Cell) :
    colon [find dict name, compile dict] (s.wrote bytes data) =
      some (s.wrote (bytes ++ 0xbd :: word (xt ref)) data) := by
  obtain ⟨header, hfind, hxt⟩ := hnamed
  have hheader : find dict name (s.wrote bytes data) =
      some (s.wrote bytes (header :: data)) := by
    rw [find, hfind]
    rfl
  have hcompile : compile dict (s.wrote bytes (header :: data)) = _ :=
    compile_wrote s bytes header data
  rw [hxt] at hcompile
  rw [colon, List.foldlM_cons, hheader]
  exact hcompile

theorem IF_wrote (hresident : Resident dict refs xt) (s : Spiffy) (bytes : List UInt8)
    (data : List Cell) :
    IF dict (s.wrote bytes data) =
      some (s.wrote (bytes ++ 0xbd :: word (xt refs.zbra) ++ word 0)
        ((s.cp + .ofNat 16 (bytes ++ 0xbd :: word (xt refs.zbra)).length) :: data)) := by
  have hbranch : zbraComma dict (s.wrote bytes data) = _ :=
    compile_named hresident.zbra s bytes data
  rw [IF, colon, List.foldlM_cons, hbranch]
  exact comma_wrote s _ 0 _

theorem AGAIN_wrote (hresident : Resident dict refs xt) (s : Spiffy) (bytes : List UInt8)
    (n : Cell) (data : List Cell) :
    AGAIN dict (s.wrote bytes (n :: data)) =
      some (s.wrote (bytes ++ 0xbd :: word (xt refs.bra) ++ word n) data) := by
  have hbranch : braComma dict (s.wrote bytes (n :: data)) = _ :=
    compile_named hresident.bra s bytes (n :: data)
  rw [AGAIN, colon, List.foldlM_cons, hbranch]
  exact comma_wrote s _ n data

theorem begin_wrote (hresident : Resident dict refs xt) (s : Spiffy) (bytes : List UInt8)
    (data : List Cell) :
    quit dict (.word "begin") (s.wrote bytes data) =
      some (s.wrote bytes ((s.cp + .ofNat 16 bytes.length) :: data)) := by
  rw [quit_immediate hresident "begin" (colon [here]) (by simp [immediate])]
  rfl

theorem if_wrote (hresident : Resident dict refs xt) (s : Spiffy) (bytes : List UInt8)
    (data : List Cell) :
    quit dict (.word "if") (s.wrote bytes data) =
      some (s.wrote (bytes ++ 0xbd :: word (xt refs.zbra) ++ word 0)
        ((s.cp + .ofNat 16 (bytes ++ 0xbd :: word (xt refs.zbra)).length) :: data)) := by
  rw [quit_immediate hresident "if" (colon [IF dict]) (by simp [immediate]), colon,
    List.foldlM_cons, IF_wrote hresident]
  rfl

theorem while_wrote (hresident : Resident dict refs xt) (s : Spiffy) (bytes : List UInt8)
    (data : List Cell) :
    quit dict (.word "while") (s.wrote bytes data) =
      some (s.wrote (bytes ++ 0xbd :: word (xt refs.zbra) ++ word 0)
        ((s.cp + .ofNat 16 (bytes ++ 0xbd :: word (xt refs.zbra)).length) :: data)) := by
  rw [quit_immediate hresident "while" (colon [IF dict]) (by simp [immediate]), colon,
    List.foldlM_cons, IF_wrote hresident]
  rfl

theorem then_wrote (hresident : Resident dict refs xt)
    (hbytes : bytes = front ++ cells ++ back) (hcells : cells.length = 2)
    (hsize : bytes.length ≤ 65536) (hhole : hole = s.cp + .ofNat 16 front.length)
    (htarget : target = s.cp + .ofNat 16 bytes.length) (data : List Cell) :
    quit dict (.word "then") (s.wrote bytes (hole :: data)) =
      some (s.wrote (front ++ word target ++ back) data) := by
  rw [quit_immediate hresident "then" (colon [THEN]) (by simp [immediate]), colon_singleton,
    THEN_wrote s hbytes hcells hsize hhole htarget]

/-- `else` branches over what follows and patches the branch of `if`. -/
theorem else_wrote (hresident : Resident dict refs xt)
    (hbytes : bytes ++ 0xbd :: word (xt refs.bra) ++ word 0 = front ++ cells ++ back)
    (hcells : cells.length = 2)
    (hsize : (bytes ++ 0xbd :: word (xt refs.bra) ++ word 0).length ≤ 65536)
    (hhole : hole = s.cp + .ofNat 16 front.length)
    (htarget : target = s.cp + .ofNat 16
      (bytes ++ 0xbd :: word (xt refs.bra) ++ word 0).length) (data : List Cell) :
    quit dict (.word "else") (s.wrote bytes (hole :: data)) =
      some (s.wrote (front ++ word target ++ back)
        ((s.cp + .ofNat 16 (bytes ++ 0xbd :: word (xt refs.bra)).length) :: data)) := by
  have hbranch : braComma dict (s.wrote bytes (hole :: data)) = _ :=
    compile_named hresident.bra s bytes (hole :: data)
  rw [quit_immediate hresident "else" (colon [braComma dict, baComma, swap, THEN])
    (by simp [immediate])]
  calc colon [braComma dict, baComma, swap, THEN] (s.wrote bytes (hole :: data))
      = (comma (s.wrote (bytes ++ 0xbd :: word (xt refs.bra))
          (0 :: (s.cp + .ofNat 16 (bytes ++ 0xbd :: word (xt refs.bra)).length) ::
            hole :: data))).bind (colon [swap, THEN]) := by
        rw [colon_cons, hbranch]
        rfl
    _ = THEN (s.wrote (bytes ++ 0xbd :: word (xt refs.bra) ++ word 0)
          (hole :: (s.cp + .ofNat 16 (bytes ++ 0xbd :: word (xt refs.bra)).length) ::
            data)) := by
        rw [comma_wrote, Option.bind_some, colon_cons, swap_wrote, Option.bind_some,
          colon_singleton]
    _ = _ := THEN_wrote s hbytes hcells hsize hhole htarget _

theorem until_wrote (hresident : Resident dict refs xt) (s : Spiffy) (bytes : List UInt8)
    (n : Cell) (data : List Cell) :
    quit dict (.word "until") (s.wrote bytes (n :: data)) =
      some (s.wrote (bytes ++ 0xbd :: word (xt refs.zbra) ++ word n) data) := by
  have hbranch : zbraComma dict (s.wrote bytes (n :: data)) = _ :=
    compile_named hresident.zbra s bytes (n :: data)
  rw [quit_immediate hresident "until" (colon [zbraComma dict, comma]) (by simp [immediate]),
    colon, List.foldlM_cons, hbranch]
  exact comma_wrote s _ n data

theorem again_wrote (hresident : Resident dict refs xt) (s : Spiffy) (bytes : List UInt8)
    (n : Cell) (data : List Cell) :
    quit dict (.word "again") (s.wrote bytes (n :: data)) =
      some (s.wrote (bytes ++ 0xbd :: word (xt refs.bra) ++ word n) data) := by
  rw [quit_immediate hresident "again" (colon [AGAIN dict]) (by simp [immediate]), colon,
    List.foldlM_cons, AGAIN_wrote hresident]
  rfl

/-- `repeat` and `next` branch back and patch the branch out of the loop. -/
theorem swap_AGAIN_THEN_wrote (hresident : Resident dict refs xt)
    (hbytes : bytes ++ 0xbd :: word (xt refs.bra) ++ word n = front ++ cells ++ back)
    (hcells : cells.length = 2)
    (hsize : (bytes ++ 0xbd :: word (xt refs.bra) ++ word n).length ≤ 65536)
    (hhole : hole = s.cp + .ofNat 16 front.length)
    (htarget : target = s.cp + .ofNat 16
      (bytes ++ 0xbd :: word (xt refs.bra) ++ word n).length) (data : List Cell) :
    colon [swap, AGAIN dict, THEN] (s.wrote bytes (hole :: n :: data)) =
      some (s.wrote (front ++ word target ++ back) data) := by
  rw [colon_cons, swap_wrote, Option.bind_some, colon_cons, AGAIN_wrote hresident,
    Option.bind_some, colon_singleton, THEN_wrote s hbytes hcells hsize hhole htarget]

theorem repeat_wrote (hresident : Resident dict refs xt)
    (hbytes : bytes ++ 0xbd :: word (xt refs.bra) ++ word n = front ++ cells ++ back)
    (hcells : cells.length = 2)
    (hsize : (bytes ++ 0xbd :: word (xt refs.bra) ++ word n).length ≤ 65536)
    (hhole : hole = s.cp + .ofNat 16 front.length)
    (htarget : target = s.cp + .ofNat 16
      (bytes ++ 0xbd :: word (xt refs.bra) ++ word n).length) (data : List Cell) :
    quit dict (.word "repeat") (s.wrote bytes (hole :: n :: data)) =
      some (s.wrote (front ++ word target ++ back) data) := by
  rw [quit_immediate hresident "repeat" (colon [swap, AGAIN dict, THEN])
    (by simp [immediate])]
  exact swap_AGAIN_THEN_wrote hresident hbytes hcells hsize hhole htarget data

theorem next_wrote (hresident : Resident dict refs xt)
    (hbytes : bytes ++ 0xbd :: word (xt refs.bra) ++ word n = front ++ cells ++ back)
    (hcells : cells.length = 2)
    (hsize : (bytes ++ 0xbd :: word (xt refs.bra) ++ word n).length ≤ 65536)
    (hhole : hole = s.cp + .ofNat 16 front.length)
    (htarget : target = s.cp + .ofNat 16
      (bytes ++ 0xbd :: word (xt refs.bra) ++ word n).length) (data : List Cell) :
    quit dict (.word "next") (s.wrote bytes (hole :: n :: data)) =
      some (s.wrote (front ++ word target ++ back) data) := by
  rw [quit_immediate hresident "next" (colon [swap, AGAIN dict, THEN])
    (by simp [immediate])]
  exact swap_AGAIN_THEN_wrote hresident hbytes hcells hsize hhole htarget data

theorem for_wrote (hresident : Resident dict refs xt) (s : Spiffy) (bytes : List UInt8)
    (data : List Cell) :
    quit dict (.word "for") (s.wrote bytes data) =
      some (s.wrote (bytes ++ 0xbd :: word (xt refs.push) ++
          0xbd :: word (xt refs.dofor) ++ word 0)
        ((s.cp + .ofNat 16 (bytes ++ 0xbd :: word (xt refs.push) ++
            0xbd :: word (xt refs.dofor)).length) ::
          (s.cp + .ofNat 16 (bytes ++ 0xbd :: word (xt refs.push)).length) :: data)) := by
  have hpush : (find dict "push" (s.wrote bytes data)).bind (colon [compile dict]) = _ :=
    compile_named hresident.push s bytes data
  have hdofor := compile_named hresident.dofor s (bytes ++ 0xbd :: word (xt refs.push))
    ((s.cp + .ofNat 16 (bytes ++ 0xbd :: word (xt refs.push)).length) :: data)
  rw [funext (colon_singleton (compile dict))] at hpush
  rw [colon_cons, funext (colon_singleton (compile dict))] at hdofor
  rw [quit_immediate hresident "for" (colon [find dict "push", compile dict, here,
    find dict "dofor", compile dict, here, number 0, comma]) (by simp [immediate])]
  calc colon [find dict "push", compile dict, here, find dict "dofor", compile dict, here,
        number 0, comma] (s.wrote bytes data)
      = ((find dict "push" (s.wrote bytes data)).bind (compile dict)).bind
          (colon [here, find dict "dofor", compile dict, here, number 0, comma]) :=
        (Option.bind_assoc _ _ _).symm
    _ = (find dict "dofor" (s.wrote (bytes ++ 0xbd :: word (xt refs.push))
          ((s.cp + .ofNat 16 (bytes ++ 0xbd :: word (xt refs.push)).length) :: data))).bind
          (colon [compile dict, here, number 0, comma]) := by
        rw [hpush]
        rfl
    _ = colon [here, number 0, comma] (s.wrote
          (bytes ++ 0xbd :: word (xt refs.push) ++ 0xbd :: word (xt refs.dofor))
          ((s.cp + .ofNat 16 (bytes ++ 0xbd :: word (xt refs.push)).length) :: data)) := by
        rw [funext (colon_cons (compile dict) _), ← Option.bind_assoc, hdofor,
          Option.bind_some]
    _ = _ := by
        rw [← comma_wrote, ← colon_singleton comma]
        rfl

theorem number_wrote (hresident : Resident dict refs xt) (hstate : s.state ≠ 0)
    (bytes : List UInt8) (n : Cell) (data : List Cell) :
    quit dict (.number n) (s.wrote bytes data) =
      some (s.wrote (bytes ++ 0xbd :: word (xt refs.lit) ++ word n) data) := by
  have hlit : (find dict "lit" (s.wrote bytes (n :: data))).bind (colon [compile dict]) = _ :=
    compile_named hresident.lit s bytes (n :: data)
  rw [funext (colon_singleton (compile dict))] at hlit
  calc quit dict (.number n) (s.wrote bytes data)
      = colon [find dict "lit", compile dict, comma] (s.wrote bytes (n :: data)) :=
        if_pos hstate
    _ = ((find dict "lit" (s.wrote bytes (n :: data))).bind (compile dict)).bind
          (colon [comma]) := (Option.bind_assoc _ _ _).symm
    _ = _ := by rw [hlit, Option.bind_some, colon_singleton, comma_wrote]

theorem call_wrote (hstate : s.state ≠ 0) {name : String} {header : Cell} {ref : ℕ}
    (hfind : dict.find name = some header) (hflags : dict.flags header &&& 0x8000 = 0)
    (hxt : dict.xt header = xt ref) (bytes : List UInt8) (data : List Cell) :
    quit dict (.word name) (s.wrote bytes data) =
      some (s.wrote (bytes ++ 0xbd :: word (xt ref)) data) := by
  rw [quit, hfind]
  dsimp only
  have hcompile : (s.wrote bytes data).state ≠ 0 := hstate
  rw [Option.bind_some, if_neg (not_not.mpr hflags), if_pos hcompile, ← hxt]
  exact compile_wrote s bytes header data

/-- `;` compiles the return and leaves the compiler. -/
theorem semicolon_wrote (hresident : Resident dict refs xt) (s : Spiffy)
    (bytes : List UInt8) (data : List Cell) :
    quit dict (.word ";") (s.wrote bytes data) =
      some { s.wrote (bytes ++ [0x39]) data with state := 0 } := by
  rw [quit_immediate hresident ";" (colon [number 0x39, cComma, number 0, stateStore])
    (by simp [immediate])]
  calc colon [number 0x39, cComma, number 0, stateStore] (s.wrote bytes data)
      = (cComma (s.wrote bytes (0x39 :: data))).bind (colon [number 0, stateStore]) := rfl
    _ = some { s.wrote (bytes ++ [0x39]) data with state := 0 } := by
        rw [cComma_wrote]
        rfl

theorem quits_singleton (token : Token) (s : Spiffy) :
    quits dict [token] s = quit dict token s :=
  colon_singleton (quit dict token) s

/-- The words store the code of the body behind what is stored already, where its
labels are the addresses of their places in it. -/
def Stores (dict : Dict) (refs : Refs) (xt addr : ℕ → Cell) (s : Spiffy)
    (tokens : List Token) (body : Body) : Prop :=
  ∀ (l : ℕ) (front : List UInt8) (data : List Cell),
    Placed addr (s.cp + .ofNat 16 front.length) (body.code refs l) →
    front.length + Code.size (body.code refs l) ≤ 65536 →
    quits dict tokens (s.wrote front data) =
      some (s.wrote (front ++ (body.code refs l).bytes xt addr) data)

namespace Stores

variable {first second yes no body condition : List Token} {a b : Body}

theorem seq (hfirst : Stores dict refs xt addr s first a)
    (hsecond : Stores dict refs xt addr s second b) :
    Stores dict refs xt addr s (first ++ second) (.seq a b) := by
  intro l front data hplaced hsize
  rw [Body.code] at hplaced hsize ⊢
  simp only [Code.size_append] at hsize
  rw [quits_append, hfirst l front data hplaced.left (by omega), Option.bind_some,
    hsecond _ _ data (hplaced.right_at.at (by simp)) (by simp; omega),
    Code.bytes_append, List.append_assoc]

theorem ifThen (hresident : Resident dict refs xt)
    (hyes : Stores dict refs xt addr s yes a) :
    Stores dict refs xt addr s (.word "if" :: (yes ++ [.word "then"])) (.ifThen a) := by
  intro l front data hplaced hsize
  rw [Body.code] at hplaced hsize ⊢
  have hinside := hplaced.tail_at.tail_at
  have hend := hinside.right_at
  simp only [Code.size_cons, Code.size_append, Code.size_nil, Item.size_jsr,
    Item.size_dwLabel, Item.size_label] at hsize
  set ahead := front ++ 0xbd :: word (xt refs.zbra) with hahead
  have hlength : ahead.length = front.length + 3 := List.length_append
  have hinner := hyes (l + 1) (ahead ++ word 0) ((s.cp + .ofNat 16 ahead.length) :: data)
    (hinside.left.at (by simp [hlength])) (by simp [hlength]; omega)
  have hthen : quit dict (.word "then") (s.wrote _ (_ :: data)) =
      some (s.wrote (ahead ++ word (addr l) ++ Code.bytes xt addr (a.code refs (l + 1))) data) :=
    then_wrote hresident rfl (length_word 0) (by simp [hlength]; omega) rfl
      (hend.at (by simp +arith [hlength])).head data
  rw [quits_cons, if_wrote hresident, Option.bind_some, quits_append, hinner,
    Option.bind_some, quits_singleton, hthen]
  simp [hahead, Item.bytes]

theorem ifElse (hresident : Resident dict refs xt)
    (hyes : Stores dict refs xt addr s yes a) (hno : Stores dict refs xt addr s no b) :
    Stores dict refs xt addr s
      (.word "if" :: (yes ++ .word "else" :: (no ++ [.word "then"]))) (.ifElse a b) := by
  intro l front data hplaced hsize
  rw [Body.code] at hplaced hsize ⊢
  have hinside := hplaced.tail_at.tail_at
  have helse := hinside.right_at.tail_at.tail_at
  have hend := helse.tail_at.right_at
  simp only [Code.size_cons, Code.size_append, Code.size_nil, Item.size_jsr,
    Item.size_dwLabel, Item.size_label] at hsize
  set ahead := front ++ 0xbd :: word (xt refs.zbra) with hahead
  have hlength : ahead.length = front.length + 3 := List.length_append
  set bytes := Code.bytes xt addr (a.code refs (l + 1)) with hbytes
  have hbyteslength : bytes.length = Code.size (a.code refs (l + 1)) :=
    Code.length_bytes _
  set pastYes := bytes ++ 0xbd :: word (xt refs.bra) with hpastYes
  have hpastYeslength : pastYes.length = bytes.length + 3 := List.length_append
  have hfirst := hyes (l + 1) (ahead ++ word 0) ((s.cp + .ofNat 16 ahead.length) :: data)
    (hinside.left.at (by simp [hlength])) (by simp [hlength]; omega)
  have hpatched : quit dict (.word "else") (s.wrote (ahead ++ word 0 ++ bytes) (_ :: data)) =
      some (s.wrote (ahead ++ word (addr l) ++ (pastYes ++ word 0)) (_ :: data)) :=
    else_wrote hresident (by simp [hpastYes]) (length_word 0) (by simp [hlength]; omega) rfl
      (helse.at (by simp +arith [hlength, hbyteslength])).head data
  have hsecond := hno (l + 1 + a.labels + 1) (ahead ++ word (addr l) ++ (pastYes ++ word 0))
    ((s.cp + .ofNat 16 (ahead ++ word 0 ++ bytes ++ 0xbd :: word (xt refs.bra)).length) ::
      data)
    (helse.tail_at.left.at (by simp +arith [hlength, hpastYeslength, hbyteslength]))
    (by simp [hlength, hpastYeslength, hbyteslength]; omega)
  have hthen : quit dict (.word "then")
      (s.wrote (ahead ++ word (addr l) ++ (pastYes ++ word 0) ++
        Code.bytes xt addr (b.code refs (l + 1 + a.labels + 1)))
        ((s.cp + .ofNat 16 (ahead ++ word 0 ++ bytes ++ 0xbd :: word (xt refs.bra)).length) ::
          data)) =
      some (s.wrote (ahead ++ word (addr l) ++ pastYes ++ word (addr (l + 1 + a.labels)) ++
        Code.bytes xt addr (b.code refs (l + 1 + a.labels + 1))) data) :=
    then_wrote hresident (by simp) (length_word 0)
      (by simp [hlength, hpastYeslength, hbyteslength]; omega) (by simp [hpastYes])
      (hend.at (by simp +arith [hlength, hpastYeslength, hbyteslength])).head data
  rw [quits_cons, if_wrote hresident, Option.bind_some, quits_append, hfirst,
    Option.bind_some, quits_cons, hpatched, Option.bind_some, quits_append, hsecond,
    Option.bind_some, quits_singleton, hthen]
  simp [hahead, hpastYes, hbytes, Item.bytes]

theorem beginUntil (hresident : Resident dict refs xt)
    (hbody : Stores dict refs xt addr s body a) :
    Stores dict refs xt addr s (.word "begin" :: (body ++ [.word "until"]))
      (.beginUntil a) := by
  intro l front data hplaced hsize
  rw [Body.code] at hplaced hsize ⊢
  simp only [Code.size_cons, Code.size_append, Item.size_label] at hsize
  have hinner := hbody (l + 1) front ((s.cp + .ofNat 16 front.length) :: data)
    (hplaced.tail_at.left.at (by simp)) (by omega)
  rw [quits_cons, begin_wrote hresident, Option.bind_some, quits_append, hinner,
    Option.bind_some, quits_singleton, until_wrote hresident, ← hplaced.head]
  simp [Item.bytes]

theorem beginAgain (hresident : Resident dict refs xt)
    (hbody : Stores dict refs xt addr s body a) :
    Stores dict refs xt addr s (.word "begin" :: (body ++ [.word "again"]))
      (.beginAgain a) := by
  intro l front data hplaced hsize
  rw [Body.code] at hplaced hsize ⊢
  simp only [Code.size_cons, Code.size_append, Item.size_label] at hsize
  have hinner := hbody (l + 1) front ((s.cp + .ofNat 16 front.length) :: data)
    (hplaced.tail_at.left.at (by simp)) (by omega)
  rw [quits_cons, begin_wrote hresident, Option.bind_some, quits_append, hinner,
    Option.bind_some, quits_singleton, again_wrote hresident, ← hplaced.head]
  simp [Item.bytes]

theorem beginWhile (hresident : Resident dict refs xt)
    (hcondition : Stores dict refs xt addr s condition a)
    (hbody : Stores dict refs xt addr s body b) :
    Stores dict refs xt addr s
      (.word "begin" :: (condition ++ .word "while" :: (body ++ [.word "repeat"])))
      (.beginWhile a b) := by
  intro l front data hplaced hsize
  rw [Body.code] at hplaced hsize ⊢
  have hstart := hplaced.head
  have hwhile := hplaced.tail_at.right_at.tail_at.tail_at
  have hend := hwhile.right_at.tail_at.tail_at
  simp only [Code.size_cons, Code.size_append, Code.size_nil, Item.size_jsr,
    Item.size_dwLabel, Item.size_label] at hsize
  set bytes := Code.bytes xt addr (a.code refs (l + 1)) with hbytes
  have hbyteslength : bytes.length = Code.size (a.code refs (l + 1)) :=
    Code.length_bytes _
  set ahead := front ++ bytes ++ 0xbd :: word (xt refs.zbra) with hahead
  have hlength : ahead.length = front.length + bytes.length + 3 := by
    simp +arith [hahead]
  have hfirst := hcondition (l + 1) front ((s.cp + .ofNat 16 front.length) :: data)
    (hplaced.tail_at.left.at (by simp)) (by omega)
  have hsecond := hbody (l + 1 + a.labels + 1) (ahead ++ word 0)
    ((s.cp + .ofNat 16 ahead.length) :: (s.cp + .ofNat 16 front.length) :: data)
    (hwhile.left.at (by simp +arith [hlength, hbyteslength]))
    (by simp [hlength, hbyteslength]; omega)
  have hrepeat : quit dict (.word "repeat")
      (s.wrote (ahead ++ word 0 ++ Code.bytes xt addr (b.code refs (l + 1 + a.labels + 1)))
        ((s.cp + .ofNat 16 ahead.length) :: addr l :: data)) =
      some (s.wrote (ahead ++ word (addr (l + 1 + a.labels)) ++
        (Code.bytes xt addr (b.code refs (l + 1 + a.labels + 1)) ++
          0xbd :: word (xt refs.bra) ++ word (addr l))) data) :=
    repeat_wrote hresident (by simp) (length_word 0)
      (by simp [hlength, hbyteslength]; omega) rfl
      (hend.at (by simp +arith [hlength, hbyteslength])).head data
  rw [quits_cons, begin_wrote hresident, Option.bind_some, quits_append, hfirst,
    Option.bind_some, quits_cons, while_wrote hresident, Option.bind_some, quits_append,
    hsecond, Option.bind_some, quits_singleton, ← hstart, hrepeat]
  simp [hahead, hbytes, Item.bytes]

theorem forNext (hresident : Resident dict refs xt)
    (hbody : Stores dict refs xt addr s body a) :
    Stores dict refs xt addr s (.word "for" :: (body ++ [.word "next"])) (.forNext a) := by
  intro l front data hplaced hsize
  rw [Body.code] at hplaced hsize ⊢
  have hstart := hplaced.tail_at
  have hinside := hstart.tail_at.tail_at.tail_at
  have hend := hinside.right_at.tail_at.tail_at
  simp only [Code.size_cons, Code.size_append, Code.size_nil, Item.size_jsr,
    Item.size_dwLabel, Item.size_label] at hsize
  set pushed := front ++ 0xbd :: word (xt refs.push) with hpushed
  have hpushedlength : pushed.length = front.length + 3 := List.length_append
  set ahead := pushed ++ 0xbd :: word (xt refs.dofor) with hahead
  have hlength : ahead.length = front.length + 6 := by
    simp [hahead, hpushedlength]
  have hinner := hbody (l + 2) (ahead ++ word 0)
    ((s.cp + .ofNat 16 ahead.length) :: (s.cp + .ofNat 16 pushed.length) :: data)
    (hinside.left.at (by simp [hlength])) (by simp [hlength]; omega)
  have hbegin : addr l = s.cp + .ofNat 16 pushed.length :=
    (hstart.at (by simp [hpushedlength])).head
  have hnext : quit dict (.word "next")
      (s.wrote (ahead ++ word 0 ++ Code.bytes xt addr (a.code refs (l + 2)))
        ((s.cp + .ofNat 16 ahead.length) :: addr l :: data)) =
      some (s.wrote (ahead ++ word (addr (l + 1)) ++
        (Code.bytes xt addr (a.code refs (l + 2)) ++
          0xbd :: word (xt refs.bra) ++ word (addr l))) data) :=
    next_wrote hresident (by simp) (length_word 0) (by simp [hlength]; omega) rfl
      (hend.at (by simp +arith [hlength])).head data
  rw [quits_cons, for_wrote hresident, Option.bind_some, quits_append, hinner,
    Option.bind_some, quits_singleton, ← hbegin, hnext]
  simp [hahead, hpushed, Item.bytes]

end Stores

/-- The words of a body store its code. -/
theorem Typed.stores (hresident : Resident dict refs xt) (hstate : s.state ≠ 0)
    {tokens : List Token} {body : Body} (htyped : Typed dict xt tokens body) :
    Stores dict refs xt addr s tokens body := by
  induction htyped with
  | empty =>
      intro l front data _ _
      rw [Body.code, Code.bytes_nil, List.append_nil]
      rfl
  | lit =>
      intro l front data _ _
      rw [quits_singleton, number_wrote hresident hstate, Body.code, List.append_assoc]
      rfl
  | call hfind hflags hxt =>
      intro l front data _ _
      rw [quits_singleton, call_wrote hstate hfind hflags hxt]
      rfl
  | seq _ _ ihfirst ihsecond => exact ihfirst.seq ihsecond
  | ifThen _ ih => exact ih.ifThen hresident
  | ifElse _ _ ihyes ihno => exact ihyes.ifElse hresident ihno
  | beginUntil _ ih => exact ih.beginUntil hresident
  | beginAgain _ ih => exact ih.beginAgain hresident
  | beginWhile _ _ ihcondition ihbody => exact ihcondition.beginWhile hresident ihbody
  | forNext _ ih => exact ih.forNext hresident

/-- A body and its `;` in the resident compiler: the same bytes as the assembled
output has. -/
theorem Typed.quits_semicolon (hresident : Resident dict refs xt) (hstate : s.state ≠ 0)
    {tokens : List Token} {body : Body} (htyped : Typed dict xt tokens body) (l : ℕ)
    (hsize : Code.size (body.code refs l ++ [.rts]) ≤ 65536) :
    quits dict (tokens ++ [.word ";"]) s =
      some { s.wrote (Code.assemble xt s.cp (body.code refs l ++ [.rts])) s.data with
        state := 0 } := by
  have hplaced : Placed
      (fun m => s.cp + .ofNat 16 (Code.offset m (body.code refs l ++ [.rts])))
      (s.cp + .ofNat 16 ([] : List UInt8).length) (body.code refs l) := by
    rw [show s.cp + .ofNat 16 ([] : List UInt8).length = s.cp from BitVec.add_zero s.cp]
    exact Body.placed refs body l [.rts] s.cp
  have hempty : s.wrote [] s.data = s := by
    rw [Spiffy.wrote, show s.cp + .ofNat 16 ([] : List UInt8).length = s.cp from
      BitVec.add_zero s.cp]
    rfl
  rw [Code.size_append] at hsize
  have hstores := htyped.stores hresident hstate l [] s.data hplaced (by simp; omega)
  rw [hempty, List.nil_append] at hstores
  rw [quits_append, hstores, Option.bind_some, quits_singleton, semicolon_wrote hresident,
    Code.assemble, Code.bytes_append]
  rfl

end

/-- The two compilers make the same code of a body: what the C compiler prints,
assembled at `here`, is what Spiffy stores from there on when its words have the
same execution tokens. -/
theorem same_code {beyond : ℕ → Entry} {c : State} {refs : Refs} {words : List String}
    {body : Body} {rest : List Char} (hcompiling : c.state = true)
    (hdefined : c.pointers.Defined refs)
    (hspells : Spells (fun l w => c.findentryFrom beyond w l) refs c.labeli words body)
    (hreads : Reads c.infile (words ++ [";"]) rest)
    (hdepth : c.cstack.length + body.depth ≤ 16)
    {dict : Dict} {xt : ℕ → Cell} {s : Spiffy} {tokens : List Token}
    (hresident : Resident dict refs xt) (hstate : s.state ≠ 0)
    (htyped : Typed dict xt tokens body)
    (hsize : Code.size (body.code refs c.labeli ++ [.rts]) ≤ 65536) :
    ∃ (code : Code) (t : State) (u : Spiffy), Machine.Reaches (State.processFile beyond) c t ∧
      t.outfile = c.outfile ++ code ∧ quits dict (tokens ++ [.word ";"]) s = some u ∧
      u.mem = Memory.wrapWrite 65536 s.mem s.cp.toNat (code.assemble xt s.cp) ∧
      u.cp = s.cp + .ofNat 16 (code.assemble xt s.cp).length ∧ u.data = s.data := by
  obtain ⟨t, hreaches, _, houtfile, _⟩ :=
    compiled_colon hcompiling hdefined hspells hreads hdepth
  exact ⟨_, t, _, hreaches, houtfile, htyped.quits_semicolon hresident hstate _ hsize,
    rfl, rfl, rfl⟩

/-- The names in a dictionary with `zap` and the words of the compiler; a header
is the place of the name. -/
def zapNames : List String :=
  ["lit", "0bra", "bra", "push", "dofor", "zap", "if", "then", "else", "begin", "until",
    "again", "while", "repeat", "for", "next", ";"]

def zapXt (ref : ℕ) : Cell :=
  .ofNat 16 ref

/-- That dictionary without what its words do. -/
def zapHeaders : Dict where
  find name := (zapNames.idxOf? name).map (.ofNat 16)
  xt header := zapXt header.toNat
  flags header := if header < 6 then 0 else 0x8000
  exec _ := some

def zapDict : Dict :=
  { zapHeaders with
    exec := fun xt =>
      (((immediate zapHeaders)[xt.toNat - 6]?).map Prod.snd).getD some }

theorem resident_zapDict : Resident zapDict zapRefs zapXt where
  immediate := by
    intro name action hmem
    simp only [immediate, List.mem_cons, List.not_mem_nil, or_false, Prod.mk.injEq] at hmem
    rcases hmem with h | h | h | h | h | h | h | h | h | h | h
    all_goals
      obtain ⟨rfl, rfl⟩ := h
      refine ⟨_, rfl, ?_, ?_⟩
      · decide
      · rfl
  lit := ⟨0, rfl, rfl⟩
  zbra := ⟨1, rfl, rfl⟩
  bra := ⟨2, rfl, rfl⟩
  dofor := ⟨4, rfl, rfl⟩
  push := ⟨3, rfl, rfl⟩

theorem typed_zapDict :
    Typed zapDict zapXt [.word "for", .word "zap", .word "next"] (.forNext (.call 5)) :=
  have hzap : zapDict.find "zap" = some 5 := rfl
  .forNext (.call hzap (by decide) rfl)

/-- Spiffy behind `: x`. -/
def spiffyInX : Spiffy where
  data := []
  mem := fun _ => 0
  cp := 0x1000
  state := 0xffff

/-- The definition of `x` in both compilers. -/
theorem same_code_inX :
    ∃ (code : Code) (t : State) (u : Spiffy),
      Machine.Reaches (State.processFile noEntry) inX t ∧ t.outfile = inX.outfile ++ code ∧
      quits zapDict [.word "for", .word "zap", .word "next", .word ";"] spiffyInX = some u ∧
      u.mem = Memory.wrapWrite 65536 (fun _ => 0) 0x1000 (code.assemble zapXt 0x1000) ∧
      u.cp = 0x1000 + .ofNat 16 (code.assemble zapXt 0x1000).length ∧ u.data = [] :=
  same_code (s := spiffyInX) rfl defined_inX spells_inX reads_inX (by decide)
    resident_zapDict (by decide) typed_zapDict (by decide)

end Fip.Bfc
