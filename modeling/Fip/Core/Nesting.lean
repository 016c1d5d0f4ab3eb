import Mathlib.Data.List.Basic
import Mathlib.Tactic.Common

/-!
# Nested brackets

A text is read with a count of the brackets that are open.  It is balanced if the count is
zero at its end, never falls below, and the text has none of the letters that a reader
might take for something else.
-/

namespace Fip.Nesting

variable {α : Type*} [DecidableEq α] {opening closing : α} {other : α → Bool}
  {text more : List α}

/-- The brackets that are open behind a text, with so many open in front of it. -/
def depth (opening closing : α) (other : α → Bool) : ℕ → List α → Option ℕ
  | count, [] => some count
  | count, letter :: text =>
      if letter = opening then depth opening closing other (count + 1) text
      else if letter = closing then
        if count = 0 then none else depth opening closing other (count - 1) text
      else if other letter then none
      else depth opening closing other count text

def Balanced (opening closing : α) (other : α → Bool) (text : List α) : Prop :=
  depth opening closing other 0 text = some 0

instance : Decidable (Balanced opening closing other text) := inferInstanceAs (Decidable (_ = _))

theorem depth_append (count : ℕ) (text more : List α) :
    depth opening closing other count (text ++ more) =
      (depth opening closing other count text).bind fun count =>
        depth opening closing other count more := by
  induction text generalizing count with
  | nil => rfl
  | cons letter text ih =>
      rw [List.cons_append, depth, depth]
      split_ifs
      · exact ih _
      · rfl
      · exact ih _
      · rfl
      · exact ih _

/-- Brackets that are open around a text do not matter in it. -/
theorem depth_add {count final : ℕ} (more : ℕ)
    (hdepth : depth opening closing other count text = some final) :
    depth opening closing other (count + more) text = some (final + more) := by
  induction text generalizing count with
  | nil =>
      obtain rfl := Option.some.inj hdepth
      rfl
  | cons letter text ih =>
      rw [depth] at hdepth ⊢
      split_ifs at hdepth ⊢ with hopening hclosing hmore hzero hzero hother
      · rw [Nat.add_right_comm]
        exact ih hdepth
      · exact absurd (Nat.eq_zero_of_add_eq_zero_right hmore) hzero
      · rw [Nat.sub_add_comm (Nat.pos_of_ne_zero hzero)]
        exact ih hdepth
      · exact ih hdepth

theorem depth_balanced (hbalanced : Balanced opening closing other text) (count : ℕ) :
    depth opening closing other count text = some count := by
  have hdepth := depth_add count hbalanced
  rwa [Nat.zero_add] at hdepth

@[simp]
theorem balanced_nil : Balanced opening closing other [] := rfl

theorem Balanced.append (htext : Balanced opening closing other text)
    (hmore : Balanced opening closing other more) :
    Balanced opening closing other (text ++ more) := by
  rw [Balanced, depth_append, htext]
  exact hmore

/-- A letter that is no bracket. -/
theorem Balanced.cons {letter : α} (hopening : letter ≠ opening) (hclosing : letter ≠ closing)
    (hother : other letter = false) (htext : Balanced opening closing other text) :
    Balanced opening closing other (letter :: text) := by
  rw [Balanced, depth, if_neg hopening, if_neg hclosing, if_neg (by simp [hother])]
  exact htext

theorem balanced_of_forall
    (hplain : ∀ letter ∈ text, letter ≠ opening ∧ letter ≠ closing ∧ other letter = false) :
    Balanced opening closing other text := by
  induction text with
  | nil => rfl
  | cons letter text ih =>
      obtain ⟨⟨hopening, hclosing, hother⟩, hplain⟩ := List.forall_mem_cons.mp hplain
      exact (ih hplain).cons hopening hclosing hother

/-- A balanced text in brackets. -/
theorem Balanced.enclose (hne : closing ≠ opening)
    (htext : Balanced opening closing other text) :
    Balanced opening closing other (opening :: (text ++ [closing])) := by
  rw [Balanced, depth, if_pos rfl, depth_append, depth_balanced htext, Option.bind_some, depth,
    if_neg hne, if_pos rfl]
  rfl

end Fip.Nesting
