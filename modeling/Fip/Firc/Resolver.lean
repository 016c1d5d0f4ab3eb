import Fip.Core.Machine
import Mathlib.Data.Int.Notation
import Mathlib.Logic.Function.Basic

/-!
# The reply parser of the resolver

The second half of `gethostbyname`: a reply of a name server lies in `buf`, its
questions are skipped, and the addresses of its answers are copied into static
tables.  A load or store outside of its array has no result here, and neither
has a run that needs more fuel.  The machine is big-endian and aligns nothing;
whether a plain `char` is signed is a parameter, and so is whether the compiler
increments the `lno` of `list[lno++] = &addrs[lno][0]` ahead of its other use.
-/

namespace Fip.Firc.Resolver

abbrev Buf := Fin 512 → UInt8

/-- The static variables of the resolver; `list` points to rows of `addrs`, or to its end. -/
structure Statics where
  buf : Buf
  addrs : Fin 4 → Fin 4 → UInt8
  list : Fin 5 → Option (Fin 5)

def load (buf : Buf) (offset : ℤ) : Option UInt8 :=
  if h : 0 ≤ offset ∧ offset < 512 then some (buf ⟨offset.toNat, by omega⟩) else none

def load16 (buf : Buf) (offset : ℤ) : Option ℕ := do
  let high ← load buf offset
  let low ← load buf (offset + 1)
  return high.toNat * 256 + low.toNat

def storeAddr (s : Statics) (lno j : ℕ) (byte : UInt8) : Option Statics :=
  if h : lno < 4 ∧ j < 4 then
    some { s with
      addrs := Function.update s.addrs ⟨lno, h.1⟩
        (Function.update (s.addrs ⟨lno, h.1⟩) ⟨j, h.2⟩ byte) }
  else none

theorem add_ahead_lt (ahead : Bool) {lno : ℕ} (hlno : lno < 4) : lno + ahead.toNat < 5 := by
  have hahead := ahead.toNat_le
  omega

/-- `list[lno++] = &addrs[lno][0]`, whose sides are evaluated in either order. -/
def storeAddress (ahead : Bool) (s : Statics) (lno : ℕ) : Option Statics :=
  if h : lno < 4 then
    some { s with
      list := Function.update s.list ⟨lno, Nat.lt_succ_of_lt h⟩
        (some ⟨lno + ahead.toNat, add_ahead_lt ahead h⟩) }
  else none

/-- `list[lno] = NULL`. -/
def storeNull (s : Statics) (lno : ℕ) : Option Statics :=
  if h : lno < 5 then some { s with list := Function.update s.list ⟨lno, h⟩ none } else none

/-! ## The header -/

def id (buf : Buf) : ℕ := (buf 0).toNat * 256 + (buf 1).toNat
def cntl (buf : Buf) : UInt8 := buf 2
def ret (buf : Buf) : UInt8 := buf 3
def qdcount (buf : Buf) : ℕ := (buf 4).toNat * 256 + (buf 5).toNat
def ancount (buf : Buf) : ℕ := (buf 6).toNat * 256 + (buf 7).toNat

/-- `! bits & 0x80`, where the negation binds first. -/
def notAnd (bits : UInt8) : UInt8 := (if bits = 0 then 1 else 0) &&& 0x80

/-- The checks in front of the parser. -/
def Accepted (buf : Buf) : Prop :=
  id buf = 42 ∧ notAnd (cntl buf) = 0 ∧ notAnd (ret buf) = 0 ∧ ancount buf ≠ 0

instance (buf : Buf) : Decidable (Accepted buf) :=
  inferInstanceAs (Decidable (_ ∧ _ ∧ _ ∧ _))

/-- The count of answers is capped where it stands. -/
def capped (buf : Buf) : Buf :=
  if ancount buf > 4 then Function.update (Function.update buf 6 0) 7 4 else buf

/-! ## The body -/

section Parser

variable (signed ahead : Bool) (fuel : ℕ)

def plainChar (byte : UInt8) : ℤ :=
  if signed then byte.toInt8.toInt else byte.toNat

/-- One label, or the end of the name. -/
def nameStep (buf : Buf) (ptr : ℤ) : ℤ ⊕ Option ℤ :=
  match load buf ptr with
  | none => .inr none
  | some byte =>
      if byte = 0 then .inr (some (ptr + 1))
      else if byte &&& 0xc0 = 0xc0 then .inr (some (ptr + 2))
      else .inl (ptr + (plainChar signed byte + 1))

def skipName (buf : Buf) (ptr : ℤ) : Option ℤ :=
  (Machine.run (nameStep signed buf) fuel ptr).join

/-- The questions that are left to be skipped. -/
def skipQuestions (buf : Buf) : ℕ → ℤ → Option ℤ
  | 0, ptr => some ptr
  | count + 1, ptr => do
      let ptr ← skipName signed fuel buf ptr
      skipQuestions buf count (ptr + 4)

/-- `for( j=0; j<t->rdlen; j++ ) addrs[lno][j] = *ptr++`, with `count` rounds left. -/
def copyAddr (lno : ℕ) : ℕ → ℕ → ℤ → Statics → Option (ℤ × Statics)
  | 0, _, ptr, s => some (ptr, s)
  | count + 1, j, ptr, s => do
      let byte ← load s.buf ptr
      let s ← storeAddr s lno j byte
      copyAddr lno count (j + 1) (ptr + 1) s

/-- The answers that are left to be parsed. -/
def parseAnswers : ℕ → ℤ → ℕ → Statics → Option Statics
  | 0, _, lno, s => storeNull s lno
  | count + 1, ptr, lno, s => do
      let t ← skipName signed fuel s.buf ptr
      let type ← load16 s.buf t
      let rdlen ← load16 s.buf (t + 8)
      if type = 1 then
        let (ptr, s) ← copyAddr lno rdlen 0 (t + 10) s
        let s ← storeAddress ahead s lno
        parseAnswers count ptr (lno + 1) s
      else parseAnswers count (t + 10 + rdlen) lno s

/-- The tables, and whether the host is returned or `NULL`. -/
def process (s : Statics) : Option (Statics × Bool) :=
  if Accepted s.buf then do
    let ptr ← skipQuestions signed fuel s.buf (min (qdcount s.buf) 4) 12
    let s := { s with buf := capped s.buf }
    let s ← parseAnswers signed ahead fuel (ancount s.buf) ptr 0 s
    return (s, true)
  else some (s, false)

end Parser

/-! ## Loads and stores -/

theorem load_eq_some {buf : Buf} {offset : ℤ} {byte : UInt8} :
    load buf offset = some byte ↔
      ∃ h : 0 ≤ offset ∧ offset < 512, buf ⟨offset.toNat, by omega⟩ = byte := by
  rw [load]
  by_cases h : 0 ≤ offset ∧ offset < 512
  · rw [dif_pos h, Option.some.injEq]
    exact ⟨fun hbyte => ⟨h, hbyte⟩, fun ⟨_, hbyte⟩ => hbyte⟩
  · rw [dif_neg h]
    exact ⟨fun hnone => (nomatch hnone), fun ⟨hinside, _⟩ => absurd hinside h⟩

theorem notAnd_eq_zero (bits : UInt8) : notAnd bits = 0 := by
  rw [notAnd]
  by_cases hbits : bits = 0
  · rw [if_pos hbits]
    rfl
  · rw [if_neg hbits]
    rfl

/-- The two checks of bits never refuse a reply. -/
theorem accepted_iff (buf : Buf) : Accepted buf ↔ id buf = 42 ∧ ancount buf ≠ 0 := by
  rw [Accepted, notAnd_eq_zero, notAnd_eq_zero]
  simp only [true_and]

theorem ancount_capped (buf : Buf) : ancount (capped buf) = min (ancount buf) 4 := by
  rw [capped]
  by_cases hmany : ancount buf > 4
  · have hne : (6 : Fin 512) ≠ 7 := by decide
    rw [if_pos hmany, Nat.min_eq_right (Nat.le_of_lt hmany), ancount,
      Function.update_of_ne hne, Function.update_self, Function.update_self]
    rfl
  · rw [if_neg hmany, Nat.min_eq_left (Nat.le_of_not_gt hmany)]

/-- The cap is seen in the buffer. -/
theorem capped_eq_iff (buf : Buf) : capped buf = buf ↔ ancount buf ≤ 4 := by
  constructor
  · intro heq
    have hcount := ancount_capped buf
    rw [heq] at hcount
    exact hcount ▸ Nat.min_le_right _ _
  · intro hfew
    rw [capped, if_neg (Nat.not_lt_of_ge hfew)]

end Fip.Firc.Resolver
