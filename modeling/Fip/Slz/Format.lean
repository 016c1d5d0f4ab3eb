import Fip.Core.Bits
import Fip.Core.Lz77
import Fip.Slz.Slz
import Mathlib.Data.Nat.Bitwise

/-!
# The packed format

Tokens in groups of eight.  A group is a tag byte, whose bits from the highest
down tell which of its items are matches, and the items.  The text ends in a
match of length zero, in the last group or, if that is full, in one of its own.
-/

namespace Fip.Slz

open Fip.Lz77

/-! ## Tags -/

def isCopy : Token UInt8 → Bool
  | .literal _ => false
  | .copy .. => true

def itemBytes : Token UInt8 → List UInt8
  | .literal cell => [cell]
  | .copy distance length => matchBytes distance length

/-- What an item adds to the tag at its place. -/
def tagBit (place : ℕ) (token : Token UInt8) : ℕ :=
  bif isCopy token then 128 >>> place else 0

/-- The tag of items from a place on. -/
def tagFrom (place : ℕ) : List (Token UInt8) → ℕ
  | [] => 0
  | token :: group => tagBit place token ||| tagFrom (place + 1) group

theorem tagFrom_snoc (place : ℕ) (group : List (Token UInt8)) (token : Token UInt8) :
    tagFrom place (group ++ [token]) =
      tagFrom place group ||| tagBit (place + group.length) token := by
  induction group generalizing place with
  | nil => simp [tagFrom]
  | cons first group ih =>
      rw [List.cons_append, tagFrom, ih, tagFrom, Nat.or_assoc, List.length_cons,
        Nat.add_assoc, Nat.add_comm 1]

/-- The bit of a place. -/
theorem testBit_place {place other : ℕ} (hplace : place < 8) (hother : other < 8) :
    (128 >>> place).testBit (7 - other) = decide (place = other) := by
  have hbits : ∀ place other : Fin 8,
      (128 >>> place.1).testBit (7 - other.1) = decide (place.1 = other.1) := by decide
  exact hbits ⟨place, hplace⟩ ⟨other, hother⟩

theorem testBit_tagBit {place other : ℕ} (hplace : place < 8) (hother : other < 8)
    (token : Token UInt8) :
    (tagBit place token).testBit (7 - other) = (isCopy token && decide (place = other)) := by
  rw [tagBit]
  cases isCopy token with
  | false => exact Nat.zero_testBit _
  | true => exact testBit_place hplace hother

/-- The tag says of each of the items whether it is a match. -/
def Flagged (tag : ℕ) : ℕ → List (Token UInt8) → Prop
  | _, [] => True
  | place, token :: group =>
      tag.testBit (7 - place) = isCopy token ∧ Flagged tag (place + 1) group

theorem testBit_tagFrom_below {place other : ℕ} {group : List (Token UInt8)}
    (hfits : place + group.length ≤ 8) (hother : other < place) :
    (tagFrom place group).testBit (7 - other) = false := by
  induction group generalizing place with
  | nil => exact Nat.zero_testBit _
  | cons token group ih =>
      rw [List.length_cons] at hfits
      rw [tagFrom, Nat.testBit_or, testBit_tagBit (by omega) (by omega),
        ih (by omega) (by omega), decide_eq_false (by omega), Bool.and_false, Bool.or_false]

/-- Any tag with the bits of the group will do. -/
theorem flagged_of_bits {tag place : ℕ} {group : List (Token UInt8)}
    (hfits : place + group.length ≤ 8)
    (hbits : ∀ other, place ≤ other → other < place + group.length →
      tag.testBit (7 - other) = (tagFrom place group).testBit (7 - other)) :
    Flagged tag place group := by
  induction group generalizing place with
  | nil => trivial
  | cons token group ih =>
      rw [List.length_cons] at hfits hbits
      constructor
      · have hbelow : (tagFrom (place + 1) group).testBit (7 - place) = false :=
          testBit_tagFrom_below (by omega) (Nat.lt_succ_self place)
        rw [hbits place (Nat.le_refl _) (by omega), tagFrom, Nat.testBit_or,
          testBit_tagBit (by omega) (by omega), hbelow, decide_eq_true rfl, Bool.and_true,
          Bool.or_false]
      · apply ih (by omega)
        intro other hlow hhigh
        rw [hbits other (by omega) (by omega), tagFrom, Nat.testBit_or,
          testBit_tagBit (by omega) (by omega), decide_eq_false (by omega), Bool.and_false,
          Bool.false_or]

theorem flagged_tagFrom {group : List (Token UInt8)} (hfits : group.length ≤ 8) :
    Flagged (tagFrom 0 group) 0 group :=
  flagged_of_bits (by omega) fun _ _ _ => rfl

/-- The mark of the end behind the group does not disturb its tag. -/
theorem flagged_end {group : List (Token UInt8)} (hfits : group.length < 8) :
    Flagged (tagFrom 0 group ||| 128 >>> group.length) 0 group ∧
      (tagFrom 0 group ||| 128 >>> group.length).testBit (7 - group.length) = true := by
  constructor
  · apply flagged_of_bits (by omega)
    intro other _ hhigh
    rw [Nat.testBit_or, testBit_place hfits (by omega), decide_eq_false (by omega),
      Bool.or_false]
  · rw [Nat.testBit_or, testBit_place hfits hfits, decide_eq_true rfl, Bool.or_true]

theorem tagFrom_lt {place : ℕ} {group : List (Token UInt8)}
    (hfits : place + group.length ≤ 8) : tagFrom place group < 256 := by
  induction group generalizing place with
  | nil => exact Nat.zero_lt_succ _
  | cons token group ih =>
      rw [List.length_cons] at hfits
      have hbit : tagBit place token < 2 ^ 8 := by
        rw [tagBit]
        cases isCopy token with
        | false => exact Nat.zero_lt_succ _
        | true =>
            exact Nat.lt_of_le_of_lt (Nat.shiftRight_le 128 place) (by decide)
      exact Nat.or_lt_two_pow hbit (ih (by omega))

/-! ## Tokens -/

/-- Tokens that have a packed form and that can be expanded behind a text. -/
def Valid (text : List UInt8) : List (Token UInt8) → Prop
  | [] => True
  | .literal cell :: tokens => Valid (text ++ [cell]) tokens
  | .copy distance length :: tokens =>
      (0 < distance ∧ distance < 4096 ∧ distance ≤ text.length ∧ 3 ≤ length ∧ length ≤ 17) ∧
        Valid (copy distance length text) tokens

theorem valid_append {text : List UInt8} {front back : List (Token UInt8)} :
    Valid text (front ++ back) ↔ Valid text front ∧ Valid (expand text front) back := by
  induction front generalizing text with
  | nil => exact ⟨fun hback => ⟨trivial, hback⟩, fun hboth => hboth.2⟩
  | cons token front ih =>
      cases token with
      | literal cell => exact ih
      | copy distance length =>
          exact (and_congr_right fun _ => ih).trans and_assoc.symm

/-- The bytes of tokens behind the ones that the group already has. -/
def encode (group : List (Token UInt8)) : List (Token UInt8) → List UInt8
  | [] =>
      if group.length = 8 then
        UInt8.ofNat (tagFrom 0 group) :: (group.flatMap itemBytes ++ [255, 0, 0])
      else
        UInt8.ofNat (tagFrom 0 group ||| 128 >>> group.length) ::
          (group.flatMap itemBytes ++ [0, 0])
  | token :: tokens =>
      if group.length = 8 then
        UInt8.ofNat (tagFrom 0 group) :: (group.flatMap itemBytes ++ encode [token] tokens)
      else encode (group ++ [token]) tokens

/-! ## The bytes of a match -/

/-- The upper half of a byte. -/
theorem and_upper {number : ℕ} (hbyte : number < 256) :
    number &&& MASK_upper = number / 16 * 16 := by
  calc number &&& (2 ^ 4 - 1) <<< 4
      = number / 16 % 16 * 16 := Bits.and_mask number 4 4
    _ = number / 16 * 16 := by omega

theorem and_lower (number : ℕ) : number &&& MASK_lower = number % 16 :=
  Nat.and_two_pow_sub_one_eq_mod number 4

/-- The bytes of a match give back its distance and its length. -/
theorem matchBytes_spec {distance length : ℕ} (hdistance : distance < 4096)
    (hlong : 3 ≤ length) (hshort : length ≤ 17) :
    ∃ first second, matchBytes distance length = [first, second] ∧ first ≠ 0 ∧
      (MASK_upper &&& first.toNat) * SHIFT_UPPER + second.toNat = distance ∧
      (first.toNat &&& MASK_lower) + 2 = length := by
  have hupper : (distance >>> LSR_upper) &&& MASK_upper = distance / 256 * 16 := by
    rw [LSR_upper, Nat.shiftRight_eq_div_pow, and_upper (by omega)]
    omega
  have hfirst : (UInt8.ofNat (distance / 256 * 16 + (length - 2))).toNat =
      distance / 256 * 16 + (length - 2) :=
    UInt8.toNat_ofNat_of_lt' (show _ < 256 by omega)
  have hsecond : (UInt8.ofNat distance).toNat = distance % 256 := UInt8.toNat_ofNat'
  refine ⟨_, _, rfl, ?_, ?_, ?_⟩
  · rw [hupper]
    intro hzero
    rw [hzero] at hfirst
    have hnone : (0 : UInt8).toNat = 0 := rfl
    omega
  · rw [hupper, hfirst, hsecond, Nat.and_comm, and_upper (by omega), SHIFT_UPPER]
    omega
  · rw [hupper, hfirst, and_lower]
    omega

end Fip.Slz
