import Fip.Bfc.Number

/-!
# Spiffy's comparisons

`u<` looks at the signs before it subtracts; `>` subtracts only, and has the wrong sign
where the difference overflows.
-/

namespace Fip.Bfc.Number

open Fip.Bfc.Flow

/-- A word takes two numbers from the stack and leaves a flag that tells whether they
are related so. -/
def Compares (word : Flow) (related : Cell → Cell → Prop) (a b : Cell) : Prop :=
  ∀ data ret, ∃ f, word ⟨b :: a :: data, ret⟩ = some (.inl ⟨f :: data, ret⟩) ∧
    (f ≠ 0 ↔ related a b)

/-- The difference is a signed number again. -/
def Subtractable (b a : Cell) : Prop :=
  -0x8000 ≤ b.toInt - a.toInt ∧ b.toInt - a.toInt < 0x8000

section

variable {a b : Cell}

theorem flag_ne_zero (p : Prop) [Decidable p] : flag p ≠ 0 ↔ p := by
  rw [flag]
  by_cases hp : p
  · rw [if_pos hp]
    exact iff_of_true (by decide) hp
  · rw [if_neg hp]
    exact iff_of_false (not_not.mpr rfl) hp

theorem compares_ult : Compares ult (· < ·) a b := by
  intro data ret
  exact ⟨flag (a < b), ult_eq a b data ret, flag_ne_zero _⟩

/-- The sign of a difference is that of the numbers where nothing overflows, and the
other one where something does. -/
theorem msb_sub_iff : ((b - a).msb = true ↔ b.toInt < a.toInt) ↔ Subtractable b a := by
  have ha := a.isLt
  have hb := b.isLt
  rw [Subtractable, BitVec.msb_eq_decide, BitVec.toNat_sub, BitVec.toInt_eq_toNat_cond,
    BitVec.toInt_eq_toNat_cond, decide_eq_true_iff]
  split <;> split <;> omega

theorem compares_gt_iff :
    Compares gt (fun a b => b.toInt < a.toInt) a b ↔ Subtractable b a := by
  rw [← msb_sub_iff]
  constructor
  · intro hcompares
    obtain ⟨f, hgt, hf⟩ := hcompares [] []
    rw [gt_eq] at hgt
    cases hgt
    exact (flag_ne_zero _).symm.trans hf
  · intro hmsb data ret
    refine ⟨flag (b - a).msb, gt_eq a b data ret, ?_⟩
    rw [flag_ne_zero]
    exact hmsb

end

/-- Both comparisons are right exactly if the difference does not overflow. -/
theorem comparisons_iff (a b : Cell) :
    Compares ult (· < ·) a b ∧ Compares gt (fun a b => b.toInt < a.toInt) a b ↔
      Subtractable b a := by
  rw [compares_gt_iff]
  exact and_iff_right compares_ult

/-- The largest number is not greater than the smallest one. -/
theorem not_compares_gt_ends :
    ¬ (Compares ult (· < ·) 0x7fff 0x8000 ∧
      Compares gt (fun a b => b.toInt < a.toInt) 0x7fff 0x8000) := by
  rintro ⟨-, hcompares⟩
  have hends := compares_gt_iff.mp hcompares
  exact absurd hends.1 (by decide)

end Fip.Bfc.Number
