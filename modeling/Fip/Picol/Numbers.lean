import Fip.Picol.Interp

/-!
# Numbers and their texts

What `%ld` prints is read back by `atol`, and is a word of its own in a script.
-/

namespace Fip.Picol

/-- A sign and digits. -/
theorem showLong_eq (v : Long) :
    showLong v = if v.toInt < 0 then '-' :: Nat.toDigits 10 v.toInt.natAbs
      else Nat.toDigits 10 v.toInt.natAbs := by
  rw [showLong]
  cases hv : v.toInt with
  | ofNat n =>
      have hpos : ¬ Int.ofNat n < 0 := Int.not_lt.mpr (Int.natCast_nonneg n)
      rw [if_neg hpos]
      exact Nat.toList_repr
  | negSucc n =>
      rw [if_pos (Int.negSucc_lt_zero n)]
      have htext : toString (Int.negSucc n) = "-" ++ Nat.repr (n + 1) := rfl
      rw [htext, String.toList_append, Nat.toList_repr]
      rfl

theorem isDigit_of_mem {n : ℕ} {c : Char} (hc : c ∈ Nat.toDigits 10 n) : c.isDigit = true :=
  Nat.isDigit_of_mem_toDigits (by decide) (by decide) hc

theorem digits_toDigits (n : ℕ) : digits (Nat.toDigits 10 n) = n := by
  have htake : (Nat.toDigits 10 n).takeWhile Char.isDigit = Nat.toDigits 10 n :=
    List.takeWhile_eq_self_iff.mpr fun _ => isDigit_of_mem
  rw [digits, htake, Nat.ofDigitChars_ten_toDigits]

theorem atol_of_isDigit {c : Char} {s : List Char} (hc : c.isDigit = true) :
    atol (c :: s) = BitVec.ofNat 32 (digits (c :: s)) := by
  have hspace : isSpace c = false := by
    by_contra hspace
    rw [Bool.not_eq_false] at hspace
    simp only [isSpace, isBlank, Bool.or_eq_true, beq_iff_eq] at hspace
    rcases hspace with ((((rfl | rfl) | rfl) | rfl) | rfl) | rfl <;> cases hc
  have hminus : c ≠ '-' := by
    rintro rfl
    cases hc
  have hplus : c ≠ '+' := by
    rintro rfl
    cases hc
  rw [atol, List.dropWhile_cons_of_neg (by simp [hspace])]
  dsimp only
  rw [if_neg hminus, if_neg hplus]

theorem atol_toDigits (n : ℕ) : atol (Nat.toDigits 10 n) = BitVec.ofNat 32 n := by
  rcases hdigits : Nat.toDigits 10 n with _ | ⟨c, s⟩
  · exact absurd hdigits Nat.toDigits_ne_nil
  · have hc : c.isDigit = true := isDigit_of_mem (hdigits ▸ List.mem_cons_self)
    rw [atol_of_isDigit hc, ← hdigits, digits_toDigits]

@[simp]
theorem atol_showLong (v : Long) : atol (showLong v) = v := by
  have hv : BitVec.ofInt 32 v.toInt = v := BitVec.ofInt_toInt
  rw [showLong_eq]
  split_ifs with hneg
  · have habs : v.toInt = -(v.toInt.natAbs : ℤ) := by
      rw [Int.ofNat_natAbs_of_nonpos (Int.le_of_lt hneg), Int.neg_neg]
    calc atol ('-' :: Nat.toDigits 10 v.toInt.natAbs)
        = -BitVec.ofNat 32 (digits (Nat.toDigits 10 v.toInt.natAbs)) := rfl
      _ = -BitVec.ofNat 32 v.toInt.natAbs := by rw [digits_toDigits]
      _ = BitVec.ofInt 32 (-(v.toInt.natAbs : ℤ)) := by
          rw [BitVec.ofInt_neg, BitVec.ofInt_natCast]
      _ = v := by rw [← habs, hv]
  · have habs : v.toInt = (v.toInt.natAbs : ℤ) :=
      (Int.natAbs_of_nonneg (Int.not_lt.mp hneg)).symm
    rw [atol_toDigits, ← BitVec.ofInt_natCast, ← habs, hv]

/-- The characters that a number is printed with. -/
def isNumeral (c : Char) : Bool := c.isDigit || c == '-'

theorem isNumeral_of_mem {v : Long} {c : Char} (hc : c ∈ showLong v) : isNumeral c = true := by
  rw [showLong_eq] at hc
  split_ifs at hc
  · rcases List.mem_cons.mp hc with rfl | hc
    · rfl
    · rw [isNumeral, isDigit_of_mem hc]
      rfl
  · rw [isNumeral, isDigit_of_mem hc]
    rfl

theorem showLong_ne_nil (v : Long) : showLong v ≠ [] := by
  rw [showLong_eq]
  split_ifs
  · exact List.cons_ne_nil _ _
  · exact Nat.toDigits_ne_nil

end Fip.Picol
