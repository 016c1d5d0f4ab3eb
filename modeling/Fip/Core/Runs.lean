import Mathlib.Data.List.Basic
import Mathlib.Tactic.Common

/-!
# Runs of a machine that is fed with inputs

A state transition for each input.  A property that every step of a run has is
compared with a condition on the states before the steps: where the two agree
under an invariant, and the property keeps the invariant, they agree on whole
runs.
-/

namespace Fip.Runs

variable {σ ι : Type*} {step : σ → ι → σ} {p q : σ → ι → Prop}

/-- Every step of the run has the property; it may speak of the state before the
step and of the input. -/
def Always (step : σ → ι → σ) (p : σ → ι → Prop) : σ → List ι → Prop
  | _, [] => True
  | s, input :: inputs => p s input ∧ Always step p (step s input) inputs

/-- The step rule for properties of runs. -/
theorem always_iff (inv : σ → Prop)
    (hsame : ∀ s input, inv s → (p s input ↔ q s input))
    (hkeeps : ∀ s input, inv s → p s input → inv (step s input))
    {s : σ} (hinv : inv s) (inputs : List ι) :
    Always step p s inputs ↔ Always step q s inputs := by
  induction inputs generalizing s with
  | nil => exact Iff.rfl
  | cons input inputs ih =>
      rw [Always, Always, ← hsame s input hinv]
      apply and_congr_right
      intro hp
      exact ih (hkeeps s input hinv hp)

end Fip.Runs
