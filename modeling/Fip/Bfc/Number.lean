import Fip.Core.Fragment
import Fip.Bfc.Words
import Mathlib.Data.BitVec
import Mathlib.Data.Nat.Digits.Defs

/-!
# Spiffy's number parser

`>num` of `spiffy.fs` with the words it is made of.
-/

namespace Fip.Bfc.Number

open Fip.Bfc.Flow

/-- A literal, and a `var`, which leaves its address. -/
def number (n : Cell) : Flow
  | ⟨data, ret⟩ => some (.inl ⟨n :: data, ret⟩)

def swap : Flow
  | ⟨b :: a :: data, ret⟩ => some (.inl ⟨a :: b :: data, ret⟩)
  | _ => none

def dup : Flow
  | ⟨a :: data, ret⟩ => some (.inl ⟨a :: a :: data, ret⟩)
  | _ => none

def drop : Flow
  | ⟨_ :: data, ret⟩ => some (.inl ⟨data, ret⟩)
  | _ => none

def plus : Flow
  | ⟨b :: a :: data, ret⟩ => some (.inl ⟨(a + b) :: data, ret⟩)
  | _ => none

def xor : Flow
  | ⟨b :: a :: data, ret⟩ => some (.inl ⟨(a ^^^ b) :: data, ret⟩)
  | _ => none

def and : Flow
  | ⟨b :: a :: data, ret⟩ => some (.inl ⟨(a &&& b) :: data, ret⟩)
  | _ => none

def com : Flow
  | ⟨a :: data, ret⟩ => some (.inl ⟨(~~~a) :: data, ret⟩)
  | _ => none

def shl : Flow
  | ⟨a :: data, ret⟩ => some (.inl ⟨(a <<< 1) :: data, ret⟩)
  | _ => none

def push : Flow
  | ⟨a :: data, ret⟩ => some (.inl ⟨data, a :: ret⟩)
  | _ => none

def pull : Flow
  | ⟨data, a :: ret⟩ => some (.inl ⟨a :: data, ret⟩)
  | _ => none

def neg : Flow :=
  colon [com, number 1, plus]

/-- `-` -/
def minus : Flow :=
  colon [neg, plus]

/-- `over` -/
def overWord : Flow :=
  colon [push, dup, pull, swap]

def rot : Flow :=
  colon [push, swap, pull, swap]

def nip : Flow :=
  colon [push, drop, pull]

/-- `2dup` -/
def twoDup : Flow :=
  colon [overWord, overWord]

/-- `2drop` -/
def twoDrop : Flow :=
  colon [drop, drop]

/-- `0<` -/
def zeroLt : Flow :=
  colon [number 0x8000, and]

/-- `>` -/
def gt : Flow :=
  colon [swap, minus, number 0x8000, and]

/-- `u<` -/
def ult : Flow :=
  colon [twoDup, xor, zeroLt, ifElse [nip, zeroLt, exit] [], minus, zeroLt]

/-- `u>` -/
def ugt : Flow :=
  colon [swap, ult]

/-- `isdig?` -/
def isdig : Flow :=
  colon [dup, number 0x30, ult, ifElse [drop, number 0, exit] [],
    dup, number 0x66, ugt, ifElse [drop, number 0, exit] [],
    dup, number 0x39, ugt, swap, number 0x61, ult, and, ifElse [drop, number 0, exit] [],
    number (-1)]

def todig : Flow :=
  colon [number 0x30, minus, dup, number 9, gt, ifElse [number 0x27, minus] []]

section

variable (mem : Cell → UInt8)

/-- `@` -/
def fetch : Flow
  | ⟨a :: data, ret⟩ =>
      some (.inl ⟨.ofNat 16 ((mem a).toNat * 256 + (mem (a + 1)).toNat) :: data, ret⟩)
  | _ => none

/-- `c@` -/
def cFetch : Flow
  | ⟨a :: data, ret⟩ => some (.inl ⟨.ofNat 16 (mem a).toNat :: data, ret⟩)
  | _ => none

/-- `c@+` -/
def cFetchPlus : Flow :=
  colon [dup, number 1, plus, swap, cFetch mem]

/-- `@+` -/
def fetchPlus : Flow :=
  colon [dup, number 2, plus, swap, fetch mem]

/-- The body of the loop in `>num`. -/
def scan : List Flow :=
  [cFetchPlus mem, dup, isdig,
    ifElse [todig, rot, shl, shl, shl, shl, plus, swap]
      [twoDrop, drop, number 0, pull, drop, exit]]

/-- `>num` -/
def toNum (wordb : Cell) (fuel : ℕ) : Flow :=
  colon [number 0, number wordb, fetchPlus mem, forNext fuel (scan mem), drop, number (-1)]

end

/-- The truth value of a comparison. -/
def flag (p : Prop) [Decidable p] : Cell :=
  if p then 0x8000 else 0

theorem and_sign (a : Cell) : a &&& 0x8000 = flag a.msb := by
  have hbit : a &&& BitVec.twoPow 16 15 = if a.getLsbD 15 then BitVec.twoPow 16 15 else 0 :=
    BitVec.and_twoPow a 15
  have hmsb : a.getLsbD 15 = a.msb := (BitVec.msb_eq_getLsbD_last a).symm
  rw [hmsb] at hbit
  exact hbit

section

variable (a b c : Cell) (data ret : List Cell)

theorem minus_eq : minus ⟨b :: a :: data, ret⟩ = some (.inl ⟨(a - b) :: data, ret⟩) := by
  have hneg : a - b = a + (~~~b + 1) := by
    rw [BitVec.sub_eq_add_neg, BitVec.neg_eq_not_add]
    rfl
  rw [hneg]
  rfl

theorem rot_eq : rot ⟨c :: b :: a :: data, ret⟩ = some (.inl ⟨a :: c :: b :: data, ret⟩) :=
  rfl

theorem zeroLt_eq : zeroLt ⟨a :: data, ret⟩ = some (.inl ⟨flag a.msb :: data, ret⟩) := by
  rw [← and_sign]
  rfl

theorem gt_eq : gt ⟨b :: a :: data, ret⟩ = some (.inl ⟨flag (b - a).msb :: data, ret⟩) := by
  rw [← and_sign, gt, colon, seq_cons rfl, seq_cons (minus_eq b a data []), seq_cons rfl,
    seq_cons rfl]
  rfl

/-- Numbers with different signs. -/
theorem lt_iff_of_msb_ne {a b : Cell} (hmsb : (a ^^^ b).msb = true) : a < b ↔ b.msb = true := by
  have hla := a.isLt
  have hlb := b.isLt
  rw [BitVec.msb_xor, BitVec.msb_eq_decide, BitVec.msb_eq_decide] at hmsb
  rw [BitVec.lt_def, BitVec.msb_eq_decide]
  simp at hmsb ⊢
  omega

/-- Numbers with the same sign. -/
theorem lt_iff_of_msb_eq {a b : Cell} (hmsb : (a ^^^ b).msb = false) :
    a < b ↔ (a - b).msb = true := by
  have hla := a.isLt
  have hlb := b.isLt
  rw [BitVec.msb_xor, BitVec.msb_eq_decide, BitVec.msb_eq_decide] at hmsb
  rw [BitVec.lt_def, BitVec.msb_eq_decide, BitVec.toNat_sub]
  simp at hmsb ⊢
  omega

theorem ifElse_flag {p : Prop} [Decidable p] (yes no : List Flow) :
    ifElse yes no ⟨flag p :: data, ret⟩ = seq (if p then yes else no) ⟨data, ret⟩ := by
  rw [ifElse, flag]
  by_cases hp : p
  · have hne : (0x8000 : Cell) ≠ 0 := by decide
    rw [if_pos hp, if_pos hp, if_neg hne]
  · rw [if_neg hp, if_neg hp, if_pos rfl]

/-- An `if` that is not taken. -/
theorem ifElse_flag_neg {p : Prop} [Decidable p] (hp : ¬p) (yes : List Flow) :
    ifElse yes [] ⟨flag p :: data, ret⟩ = some (.inl ⟨data, ret⟩) := by
  rw [ifElse_flag, if_neg hp]
  rfl

/-- The signs are compared first, then the difference has the sign. -/
theorem ult_eq : ult ⟨b :: a :: data, ret⟩ = some (.inl ⟨flag (a < b) :: data, ret⟩) := by
  rw [ult, colon, seq_cons rfl, seq_cons rfl, seq_cons (zeroLt_eq _ _ _)]
  by_cases hsigns : (a ^^^ b).msb
  · have hif : ifElse [nip, zeroLt, exit] [] ⟨flag (a ^^^ b).msb :: b :: a :: data, []⟩ =
        some (.inr ⟨flag (a < b) :: data, []⟩) := by
      rw [ifElse_flag, if_pos hsigns, seq_cons rfl, seq_cons (zeroLt_eq _ _ _), seq_exit rfl]
      simp only [lt_iff_of_msb_ne hsigns]
    rw [seq_exit hif]
    rfl
  · have hsame : (a ^^^ b).msb = false := eq_false_of_ne_true hsigns
    rw [seq_cons (ifElse_flag_neg _ _ hsigns _), seq_cons (minus_eq a b data []),
      seq_cons (zeroLt_eq _ _ _)]
    simp only [lt_iff_of_msb_eq hsame]
    rfl

theorem ugt_eq : ugt ⟨b :: a :: data, ret⟩ = some (.inl ⟨flag (b < a) :: data, ret⟩) := by
  rw [ugt, colon, seq_cons rfl, seq_cons (ult_eq b a data [])]
  rfl

/-- Below the digits. -/
theorem isdig_below {c : Cell} (hc : c < 0x30) :
    isdig ⟨c :: data, ret⟩ = some (.inl ⟨0 :: data, ret⟩) := by
  have hif : ifElse [drop, number 0, exit] [] ⟨flag (c < 0x30) :: c :: data, []⟩ =
      some (.inr ⟨0 :: data, []⟩) := by
    rw [ifElse_flag, if_pos hc]
    rfl
  rw [isdig, colon, seq_cons rfl, seq_cons rfl, seq_cons (ult_eq _ _ _ _), seq_exit hif]
  rfl

/-- Above the letters. -/
theorem isdig_above {c : Cell} (hc : 0x66 < c) :
    isdig ⟨c :: data, ret⟩ = some (.inl ⟨0 :: data, ret⟩) := by
  have hbelow : ¬c < 0x30 := by
    intro hlt
    exact absurd (BitVec.lt_trans hc hlt) (by decide)
  have hif : ifElse [drop, number 0, exit] [] ⟨flag (0x66 < c) :: c :: data, []⟩ =
      some (.inr ⟨0 :: data, []⟩) := by
    rw [ifElse_flag, if_pos hc]
    rfl
  rw [isdig, colon, seq_cons rfl, seq_cons rfl, seq_cons (ult_eq _ _ _ _),
    seq_cons (ifElse_flag_neg _ _ hbelow _), seq_cons rfl, seq_cons rfl,
    seq_cons (ugt_eq _ _ _ _), seq_exit hif]
  rfl

theorem flag_and (p q : Prop) [Decidable p] [Decidable q] :
    flag p &&& flag q = flag (p ∧ q) := by
  by_cases hp : p <;> by_cases hq : q <;> simp [flag, hp, hq]

/-- Behind the first two tests the character is used up. -/
theorem isdig_inside {c : Cell} (hbelow : ¬c < 0x30) (habove : ¬0x66 < c) :
    isdig ⟨c :: data, ret⟩ =
      colon [ifElse [drop, number 0, exit] [], number (-1)]
        ⟨flag (0x39 < c ∧ c < 0x61) :: data, ret⟩ := by
  have hand : Number.and ⟨flag (c < 0x61) :: flag (0x39 < c) :: data, []⟩ =
      some (.inl ⟨flag (0x39 < c ∧ c < 0x61) :: data, []⟩) := by
    rw [← flag_and]
    rfl
  rw [isdig, colon, seq_cons rfl, seq_cons rfl, seq_cons (ult_eq _ _ _ _),
    seq_cons (ifElse_flag_neg _ _ hbelow _), seq_cons rfl, seq_cons rfl,
    seq_cons (ugt_eq _ _ _ _), seq_cons (ifElse_flag_neg _ _ habove _), seq_cons rfl,
    seq_cons rfl, seq_cons (ugt_eq _ _ _ _), seq_cons rfl, seq_cons rfl,
    seq_cons (ult_eq _ _ _ _), seq_cons hand]
  rfl

/-- A digit or a letter. -/
theorem isdig_digit {c : Cell} (hbelow : ¬c < 0x30) (habove : ¬0x66 < c)
    (hbetween : ¬(0x39 < c ∧ c < 0x61)) :
    isdig ⟨c :: data, ret⟩ = some (.inl ⟨(-1) :: data, ret⟩) := by
  rw [isdig_inside data ret hbelow habove, colon, seq_cons (ifElse_flag_neg _ _ hbetween _)]
  rfl

/-- Between the digits and the letters, something else is dropped for the
character. -/
theorem isdig_between {c : Cell} (hbelow : 0x39 < c) (habove : c < 0x61) (d : Cell) :
    isdig ⟨c :: d :: data, ret⟩ = some (.inl ⟨0 :: data, ret⟩) := by
  have hdigit : ¬c < 0x30 := by
    intro hlt
    exact absurd (BitVec.lt_trans hbelow hlt) (by decide)
  have hletter : ¬0x66 < c := by
    intro hlt
    exact absurd (BitVec.lt_trans hlt habove) (by decide)
  have hif : ifElse [drop, number 0, exit] [] ⟨flag (0x39 < c ∧ c < 0x61) :: d :: data, []⟩ =
      some (.inr ⟨0 :: data, []⟩) := by
    rw [ifElse_flag, if_pos ⟨hbelow, habove⟩]
    rfl
  rw [isdig_inside (d :: data) ret hdigit hletter, colon, seq_exit hif]
  rfl

end

/-- One of `0` to `9` and `a` to `f`. -/
def IsHex (c : UInt8) : Prop :=
  (0x30 ≤ c ∧ c ≤ 0x39) ∨ (0x61 ≤ c ∧ c ≤ 0x66)

instance : DecidablePred IsHex :=
  fun c => inferInstanceAs (Decidable ((0x30 ≤ c ∧ c ≤ 0x39) ∨ (0x61 ≤ c ∧ c ≤ 0x66)))

def hexValue (c : UInt8) : ℕ :=
  if c ≤ 0x39 then c.toNat - 0x30 else c.toNat - 0x57

/-- One of the characters between `9` and `a`. -/
def Between (c : UInt8) : Prop :=
  0x39 < c ∧ c < 0x61

instance : DecidablePred Between :=
  fun c => inferInstanceAs (Decidable (0x39 < c ∧ c < 0x61))

/-- A character on the stack. -/
def cell (c : UInt8) : Cell :=
  .ofNat 16 c.toNat

theorem toNat_cell (c : UInt8) : (cell c).toNat = c.toNat := by
  rw [cell, BitVec.toNat_ofNat]
  exact Nat.mod_eq_of_lt (Nat.lt_trans c.toNat_lt (by decide))

theorem cell_lt_cell {c d : UInt8} : cell c < cell d ↔ c < d := by
  rw [BitVec.lt_def, toNat_cell, toNat_cell, UInt8.lt_iff_toNat_lt]

theorem isHex_iff {c : UInt8} : IsHex c ↔ ¬c < 0x30 ∧ ¬0x66 < c ∧ ¬Between c := by
  simp only [IsHex, Between, UInt8.lt_iff_toNat_lt, UInt8.le_iff_toNat_le, UInt8.reduceToNat]
  omega

section

variable (data ret : List Cell) {c : UInt8}

theorem isdig_hex (hc : IsHex c) :
    isdig ⟨cell c :: data, ret⟩ = some (.inl ⟨(-1) :: data, ret⟩) := by
  obtain ⟨hbelow, habove, hbetween⟩ := isHex_iff.mp hc
  have hbelow' : ¬cell c < cell 0x30 := mt cell_lt_cell.mp hbelow
  have habove' : ¬cell 0x66 < cell c := mt cell_lt_cell.mp habove
  have hbetween' : ¬(cell 0x39 < cell c ∧ cell c < cell 0x61) := by
    rw [cell_lt_cell, cell_lt_cell]
    exact hbetween
  exact isdig_digit data ret hbelow' habove' hbetween'

theorem isdig_other (hc : ¬IsHex c) (hbetween : ¬Between c) :
    isdig ⟨cell c :: data, ret⟩ = some (.inl ⟨0 :: data, ret⟩) := by
  by_cases hbelow : c < 0x30
  · have hbelow' : cell c < cell 0x30 := cell_lt_cell.mpr hbelow
    exact isdig_below data ret hbelow'
  · have habove : 0x66 < c := by
      by_contra habove
      exact hc (isHex_iff.mpr ⟨hbelow, habove, hbetween⟩)
    have habove' : cell 0x66 < cell c := cell_lt_cell.mpr habove
    exact isdig_above data ret habove'

/-- Above 9 the difference is negative. -/
theorem msb_nine_sub {x : Cell} (hx : x.toNat < 32768) : (9 - x).msb = true ↔ 9 < x.toNat := by
  rw [BitVec.msb_eq_decide, BitVec.toNat_sub, decide_eq_true_iff]
  have hnine : (9 : Cell).toNat = 9 := rfl
  rw [hnine]
  omega

theorem todig_hex (hc : IsHex c) :
    todig ⟨cell c :: data, ret⟩ = some (.inl ⟨.ofNat 16 (hexValue c) :: data, ret⟩) := by
  have hlt := c.toNat_lt
  rw [IsHex] at hc
  simp only [UInt8.le_iff_toNat_le, UInt8.reduceToNat] at hc
  have hdigit : (cell c - 0x30).toNat = c.toNat - 0x30 := by
    have h30 : (0x30 : Cell).toNat = 0x30 := rfl
    rw [BitVec.toNat_sub, toNat_cell, h30]
    omega
  have hsmall : (cell c - 0x30).toNat < 32768 := by omega
  rw [todig, colon, seq_cons rfl, seq_cons (minus_eq _ _ _ _), seq_cons rfl, seq_cons rfl,
    seq_cons (gt_eq _ _ _ _)]
  by_cases hc9 : c ≤ 0x39
  · have hle : c.toNat ≤ 0x39 := UInt8.le_iff_toNat_le.mp hc9
    have hvalue : cell c - 0x30 = .ofNat 16 (hexValue c) := by
      apply BitVec.eq_of_toNat_eq
      rw [hdigit, hexValue, if_pos hc9, BitVec.toNat_ofNat]
      omega
    have hnot : ¬(9 - (cell c - 0x30)).msb = true := by
      rw [msb_nine_sub hsmall, hdigit]
      omega
    rw [seq_cons (ifElse_flag_neg _ _ hnot _), hvalue]
    rfl
  · have hle : 0x61 ≤ c.toNat := by
      simp only [UInt8.le_iff_toNat_le, UInt8.reduceToNat] at hc9
      omega
    have hvalue : cell c - 0x30 - 0x27 = .ofNat 16 (hexValue c) := by
      apply BitVec.eq_of_toNat_eq
      have h27 : (0x27 : Cell).toNat = 0x27 := rfl
      rw [BitVec.toNat_sub, hdigit, h27, hexValue, if_neg hc9, BitVec.toNat_ofNat]
      omega
    have habove : (9 - (cell c - 0x30)).msb = true := by
      rw [msb_nine_sub hsmall, hdigit]
      omega
    have hif : ifElse [number 0x27, minus] []
        ⟨flag (9 - (cell c - 0x30)).msb :: (cell c - 0x30) :: data, []⟩ =
        some (.inl ⟨.ofNat 16 (hexValue c) :: data, []⟩) := by
      rw [ifElse_flag, if_pos habove, seq_cons rfl, seq_cons (minus_eq _ _ _ _), hvalue]
      rfl
    rw [seq_cons hif]
    rfl

end

/-- The characters from an address on. -/
def Holds (mem : Cell → UInt8) : Cell → List UInt8 → Prop
  | _, [] => True
  | addr, c :: chars => mem addr = c ∧ Holds mem (addr + 1) chars

/-- A string with its length before it. -/
structure Counted (mem : Cell → UInt8) (wordb : Cell) (chars : List UInt8) : Prop where
  length : (mem wordb).toNat * 256 + (mem (wordb + 1)).toNat = chars.length
  holds : Holds mem (wordb + 2) chars

theorem Counted.length_lt {mem : Cell → UInt8} {wordb : Cell} {chars : List UInt8}
    (hcounted : Counted mem wordb chars) : chars.length < 65536 := by
  have hhigh := (mem wordb).toNat_lt
  have hlow := (mem (wordb + 1)).toNat_lt
  rw [← hcounted.length]
  omega

/-- The value of a string of digits, the last of which is that of the units. -/
def value (chars : List UInt8) : ℕ :=
  Nat.ofDigits 16 (chars.map hexValue).reverse

section

variable {mem : Cell → UInt8} (data ret : List Cell) {addr : Cell} {c : UInt8}

theorem cFetchPlus_eq (hmem : mem addr = c) :
    cFetchPlus mem ⟨addr :: data, ret⟩ = some (.inl ⟨cell c :: (addr + 1) :: data, ret⟩) := by
  rw [← hmem]
  rfl

/-- A digit is added to the number. -/
theorem scan_hex (hmem : mem addr = c) (hc : IsHex c) (v : ℕ) :
    seq (scan mem) ⟨addr :: .ofNat 16 v :: data, ret⟩ =
      some (.inl ⟨(addr + 1) :: .ofNat 16 (v * 16 + hexValue c) :: data, ret⟩) := by
  have hyes : ifElse [todig, rot, shl, shl, shl, shl, plus, swap]
      [twoDrop, drop, number 0, pull, drop, exit]
      ⟨(-1) :: cell c :: (addr + 1) :: .ofNat 16 v :: data, ret⟩ =
      some (.inl ⟨(addr + 1) :: .ofNat 16 (v * 16 + hexValue c) :: data, ret⟩) := by
    have hne : (-1 : Cell) ≠ 0 := by decide
    have hsum : BitVec.ofNat 16 (hexValue c) + BitVec.ofNat 16 v <<< 1 <<< 1 <<< 1 <<< 1 =
        BitVec.ofNat 16 (v * 16 + hexValue c) := by
      apply BitVec.eq_of_toNat_eq
      simp only [BitVec.toNat_add, BitVec.toNat_shiftLeft, BitVec.toNat_ofNat,
        Nat.shiftLeft_eq]
      omega
    rw [ifElse, if_neg hne, seq_cons (todig_hex _ _ hc), seq_cons (rot_eq _ _ _ _ _),
      seq_cons rfl, seq_cons rfl, seq_cons rfl, seq_cons rfl, seq_cons rfl, ← hsum]
    rfl
  rw [scan, seq_cons (cFetchPlus_eq _ _ hmem), seq_cons rfl, seq_cons (isdig_hex _ _ hc),
    seq_cons hyes]
  rfl

/-- What is left where another character is found; between the digits and the letters,
the number below is gone. -/
def rejected (c : UInt8) (data : List Cell) : Option (List Cell) :=
  if Between c then (if data = [] then none else some (0 :: data.tail))
  else some (0 :: data)

/-- The word is left with its counter. -/
theorem scan_other (hmem : mem addr = c) (hc : ¬IsHex c) (v counter : Cell) :
    seq (scan mem) ⟨addr :: v :: data, counter :: ret⟩ =
      (rejected c data).map fun data => .inr ⟨data, ret⟩ := by
  have hno : ∀ a b d data, ifElse [todig, rot, shl, shl, shl, shl, plus, swap]
      [twoDrop, drop, number 0, pull, drop, exit] ⟨0 :: d :: b :: a :: data, counter :: ret⟩ =
      some (.inr ⟨0 :: data, ret⟩) := by
    intro a b d data
    rw [ifElse, if_pos rfl]
    rfl
  rw [scan, seq_cons (cFetchPlus_eq _ _ hmem), seq_cons rfl, rejected]
  by_cases hbetween : Between c
  · have hbelow : cell 0x39 < cell c := cell_lt_cell.mpr hbetween.1
    have habove : cell c < cell 0x61 := cell_lt_cell.mpr hbetween.2
    rw [if_pos hbetween, seq_cons (isdig_between _ _ hbelow habove _)]
    cases data with
    | nil =>
        have hnone : ifElse [todig, rot, shl, shl, shl, shl, plus, swap]
            [twoDrop, drop, number 0, pull, drop, exit] ⟨[0, addr + 1, v], counter :: ret⟩ =
            none := by
          rw [ifElse, if_pos rfl]
          rfl
        rw [seq_none hnone, if_pos rfl]
        rfl
    | cons d data =>
        rw [seq_exit (hno _ _ _ _), if_neg (List.cons_ne_nil d data)]
        rfl
  · rw [if_neg hbetween, seq_cons (isdig_other _ _ hc hbetween), seq_exit (hno _ _ _ _)]
    rfl

theorem ofNat_ne_zero {n : ℕ} (hne : n ≠ 0) (hlt : n < 65536) : BitVec.ofNat 16 n ≠ 0 := by
  intro hzero
  have hnat := congrArg BitVec.toNat hzero
  rw [BitVec.toNat_ofNat, Nat.mod_eq_of_lt hlt] at hnat
  exact hne hnat

/-- The digits before something else, or before the end. -/
theorem reaches_digits {digits rest : List UInt8} (hhex : ∀ c ∈ digits, IsHex c)
    (hholds : Holds mem addr (digits ++ rest)) (hlength : (digits ++ rest).length < 65536)
    (v : ℕ) :
    ∃ addr', Holds mem addr' rest ∧
      Machine.Reaches (Flow.dofor (seq (scan mem)))
        ⟨addr :: .ofNat 16 v :: data, .ofNat 16 (digits ++ rest).length :: ret⟩
        ⟨addr' :: .ofNat 16 (digits.foldl (fun v c => v * 16 + hexValue c) v) :: data,
          .ofNat 16 rest.length :: ret⟩ := by
  induction digits generalizing addr v with
  | nil => exact ⟨addr, hholds, .refl⟩
  | cons c digits ih =>
      obtain ⟨hmem, hholds⟩ := hholds
      rw [List.forall_mem_cons] at hhex
      rw [List.cons_append, List.length_cons] at hlength
      obtain ⟨addr', hrest, hreaches⟩ :=
        ih hhex.2 hholds (Nat.lt_of_succ_lt hlength) (v * 16 + hexValue c)
      refine ⟨addr', hrest, .head ?_ hreaches⟩
      have hcounter : BitVec.ofNat 16 (c :: (digits ++ rest)).length - 1 =
          BitVec.ofNat 16 (digits ++ rest).length := by
        rw [List.length_cons, BitVec.ofNat_add]
        exact BitVec.add_sub_cancel _ _
      have hne : BitVec.ofNat 16 (c :: (digits ++ rest)).length ≠ 0 :=
        ofNat_ne_zero (Nat.succ_ne_zero _) hlength
      rw [List.cons_append, Flow.dofor, if_neg hne, hcounter, scan_hex _ _ hmem hhex.1]

theorem value_eq (chars : List UInt8) :
    chars.foldl (fun v c => v * 16 + hexValue c) 0 = value chars := by
  have hstep : (fun (v : ℕ) c => v * 16 + hexValue c) = fun v c => hexValue c + 16 * v := by
    funext v c
    rw [Nat.mul_comm, Nat.add_comm]
  rw [value, Nat.ofDigits_eq_foldr, List.foldr_reverse, List.foldl_map, hstep]
  rfl

/-- Behind the loop, or behind `exit`. -/
def closed (ret : List Cell) : Stacks ⊕ Stacks → Option (Stacks ⊕ Stacks)
  | .inl ⟨_ :: data, []⟩ => some (.inl ⟨(-1) :: data, ret⟩)
  | .inr ⟨data, []⟩ => some (.inl ⟨data, ret⟩)
  | _ => none

variable {wordb : Cell} {chars : List UInt8}

/-- `>num` is its loop, from the beginning of the string. -/
theorem toNum_eq (hcounted : Counted mem wordb chars) (fuel : ℕ) :
    toNum mem wordb fuel ⟨data, ret⟩ =
      (Machine.run (Flow.dofor (seq (scan mem))) fuel
        ⟨(wordb + 2) :: .ofNat 16 0 :: data, [.ofNat 16 chars.length]⟩).join.bind
          (closed ret) := by
  have hfetch : fetchPlus mem ⟨wordb :: 0 :: data, []⟩ =
      some (.inl ⟨.ofNat 16 chars.length :: (wordb + 2) :: 0 :: data, []⟩) := by
    rw [← hcounted.length]
    rfl
  rw [toNum, colon, seq_cons rfl, seq_cons rfl, seq_cons hfetch, seq, forNext]
  dsimp only [Bfc.push, Option.bind_some]
  rcases (Machine.run (Flow.dofor (seq (scan mem))) fuel _).join with _ | st | st
  · rfl
  · obtain ⟨_ | ⟨a, data'⟩, _ | ⟨r, ret'⟩⟩ := st <;> rfl
  · obtain ⟨data', _ | ⟨r, ret'⟩⟩ := st <;> rfl

/-- If the loop ends, it decides the result. -/
theorem toNum_unique (hcounted : Counted mem wordb chars) {fuel : ℕ}
    {result : Option (Stacks ⊕ Stacks)} {left : Stacks ⊕ Stacks}
    (hrun : Machine.run (Flow.dofor (seq (scan mem))) fuel
      ⟨(wordb + 2) :: .ofNat 16 0 :: data, [.ofNat 16 chars.length]⟩ = some result)
    {more : ℕ} (hmore : toNum mem wordb more ⟨data, ret⟩ = some left) :
    result.bind (closed ret) = some left := by
  rw [toNum_eq data ret hcounted] at hmore
  rcases hother : Machine.run (Flow.dofor (seq (scan mem))) more
      ⟨(wordb + 2) :: .ofNat 16 0 :: data, [.ofNat 16 chars.length]⟩ with _ | other
  · rw [hother] at hmore
    cases hmore
  · rw [hother] at hmore
    cases Machine.run_unique hrun hother
    exact hmore

/-- A string of digits. -/
theorem run_hex (hcounted : Counted mem wordb chars) (hhex : ∀ c ∈ chars, IsHex c) :
    ∃ fuel addr, Machine.run (Flow.dofor (seq (scan mem))) fuel
      ⟨(wordb + 2) :: .ofNat 16 0 :: data, [.ofNat 16 chars.length]⟩ =
        some (some (.inl ⟨addr :: .ofNat 16 (value chars) :: data, []⟩)) := by
  have hall : chars ++ [] = chars := List.append_nil chars
  have hlength := hcounted.length_lt
  have hholds := hcounted.holds
  rw [← hall] at hlength hholds
  obtain ⟨addr, _, hreaches⟩ := reaches_digits data [] hhex hholds hlength 0
  rw [hall, value_eq] at hreaches
  have hend : Machine.run (Flow.dofor (seq (scan mem))) 1
      ⟨addr :: .ofNat 16 (value chars) :: data, [.ofNat 16 0]⟩ =
        some (some (.inl ⟨addr :: .ofNat 16 (value chars) :: data, []⟩)) := rfl
  obtain ⟨fuel, hrun⟩ := hreaches.run hend
  exact ⟨fuel, addr, hrun⟩

/-- A string with something else behind its first digits. -/
theorem run_other {digits rest : List UInt8} {c : UInt8}
    (hcounted : Counted mem wordb (digits ++ c :: rest)) (hhex : ∀ c ∈ digits, IsHex c)
    (hc : ¬IsHex c) :
    ∃ fuel, Machine.run (Flow.dofor (seq (scan mem))) fuel
      ⟨(wordb + 2) :: .ofNat 16 0 :: data, [.ofNat 16 (digits ++ c :: rest).length]⟩ =
        some ((rejected c data).map fun data => .inr ⟨data, []⟩) := by
  have hlength := hcounted.length_lt
  obtain ⟨addr, ⟨hmem, _⟩, hreaches⟩ :=
    reaches_digits data [] hhex hcounted.holds hlength 0
  have hne : BitVec.ofNat 16 (c :: rest).length ≠ 0 := by
    refine ofNat_ne_zero (Nat.succ_ne_zero _) ?_
    rw [List.length_append] at hlength
    exact Nat.lt_of_le_of_lt (Nat.le_add_left _ _) hlength
  have hend : Machine.run (Flow.dofor (seq (scan mem))) 1
      ⟨addr :: .ofNat 16 (digits.foldl (fun v c => v * 16 + hexValue c) 0) :: data,
        [.ofNat 16 (c :: rest).length]⟩ =
        some ((rejected c data).map fun data => .inr ⟨data, []⟩) := by
    rw [Machine.run, Flow.dofor, if_neg hne, scan_other _ _ hmem hc]
    cases rejected c data <;> rfl
  exact hreaches.run hend

/-- What `>num` should leave on the stack. -/
def expected (chars : List UInt8) (data : List Cell) : List Cell :=
  if chars.all (IsHex ·) then (-1) :: .ofNat 16 (value chars) :: data else 0 :: data

theorem expected_hex (hhex : ∀ c ∈ chars, IsHex c) :
    expected chars data = (-1) :: .ofNat 16 (value chars) :: data := by
  rw [expected, if_pos]
  rw [List.all_eq_true]
  exact fun c hc => decide_eq_true (hhex c hc)

theorem expected_other {c : UInt8} (hmem : c ∈ chars) (hc : ¬IsHex c) :
    expected chars data = 0 :: data := by
  rw [expected, if_neg]
  rw [List.all_eq_true]
  exact fun hall => hc (of_decide_eq_true (hall c hmem))

end

/-- `>num` leaves what it should exactly if the first character that is no digit, if
there is one, is not one of those between `9` and `a`. -/
theorem toNum_iff {mem : Cell → UInt8} {wordb : Cell} {chars : List UInt8}
    (hcounted : Counted mem wordb chars) (data ret : List Cell) :
    (∃ fuel, toNum mem wordb fuel ⟨data, ret⟩ = some (.inl ⟨expected chars data, ret⟩)) ↔
      ∀ c ∈ chars.find? fun c => ¬IsHex c, ¬Between c := by
  rcases hfind : chars.find? fun c => ¬IsHex c with _ | c
  · have hhex : ∀ c ∈ chars, IsHex c := by
      intro c hc
      have hnot := List.find?_eq_none.mp hfind c hc
      rw [decide_eq_true_iff, not_not] at hnot
      exact hnot
    refine iff_of_true ?_ fun c hc => by cases hc
    obtain ⟨fuel, addr, hrun⟩ := run_hex data hcounted hhex
    refine ⟨fuel, ?_⟩
    rw [toNum_eq data ret hcounted, hrun, expected_hex data hhex]
    rfl
  · obtain ⟨hc, digits, rest, rfl, hdigits⟩ := List.find?_eq_some_iff_append.mp hfind
    rw [decide_eq_true_iff] at hc
    have hhex : ∀ d ∈ digits, IsHex d := by
      intro d hd
      have hnot := hdigits d hd
      simpa using hnot
    have hmem : c ∈ digits ++ c :: rest := List.mem_append_right _ List.mem_cons_self
    obtain ⟨fuel, hrun⟩ := run_other data hcounted hhex hc
    rw [expected_other data hmem hc]
    have hsome : (∀ d ∈ some c, ¬Between d) ↔ ¬Between c := by
      simp
    rw [hsome]
    by_cases hbetween : Between c
    · refine iff_of_false ?_ (not_not.mpr hbetween)
      rintro ⟨more, hmore⟩
      have hresult := toNum_unique data ret hcounted hrun hmore
      rw [rejected, if_pos hbetween] at hresult
      cases data with
      | nil => cases hresult
      | cons d data =>
          rw [if_neg (List.cons_ne_nil d data)] at hresult
          simp [closed] at hresult
    · refine iff_of_true ⟨fuel, ?_⟩ hbetween
      rw [toNum_eq data ret hcounted, hrun, rejected, if_neg hbetween]
      rfl

/-- Memory with a counted string of two characters at 0. -/
def twoChars (first second : UInt8) (addr : Cell) : UInt8 :=
  if addr = 1 then 2 else if addr = 2 then first else if addr = 3 then second else 0

theorem counted_twoChars (first second : UInt8) :
    Counted (twoChars first second) 0 [first, second] := by
  constructor
  · simp [twoChars]
  · simp [twoChars, Holds]

theorem toNum_iff_twoChars :
    (∃ fuel, toNum (twoChars 0x31 0x66) 0 fuel ⟨[7], []⟩ =
        some (.inl ⟨expected [0x31, 0x66] [7], []⟩)) ↔
      ∀ c ∈ [0x31, 0x66].find? fun c => ¬IsHex c, ¬Between c :=
  toNum_iff (counted_twoChars 0x31 0x66) [7] []

/-- `1F` takes the number below with it. -/
theorem not_toNum_capital :
    ¬∃ fuel, toNum (twoChars 0x31 0x46) 0 fuel ⟨[7], []⟩ =
      some (.inl ⟨expected [0x31, 0x46] [7], []⟩) := by
  rintro ⟨more, hmore⟩
  have hrun : Machine.run (Flow.dofor (seq (scan (twoChars 0x31 0x46)))) 2
      ⟨[2, 0, 7], [2]⟩ = some (some (.inr ⟨[0], []⟩)) := by
    decide
  have hresult := toNum_unique [7] [] (counted_twoChars 0x31 0x46) hrun hmore
  cases hresult

end Fip.Bfc.Number
