import Mathlib.Data.List.Basic
import Mathlib.Logic.Function.Basic
import Mathlib.Tactic.Common

/-!
# Literals and copies

A text is given by tokens: a cell of its own, or a copy of cells that came a
distance earlier, which may overlap what is being written.  A decoder needs only
the last cells, in a ring.
-/

namespace Fip.Lz77

variable {α : Type*}

inductive Token (α : Type*)
  | literal (cell : α)
  | copy (distance length : ℕ)

/-- Cells that came `distance` earlier, one after the other. -/
def copy (distance : ℕ) : ℕ → List α → List α
  | 0, text => text
  | length + 1, text => copy distance length (text ++ text[text.length - distance]?.toList)

def expand (text : List α) : List (Token α) → List α
  | [] => text
  | .literal cell :: tokens => expand (text ++ [cell]) tokens
  | .copy distance length :: tokens => expand (copy distance length text) tokens

theorem expand_append (text : List α) (front back : List (Token α)) :
    expand text (front ++ back) = expand (expand text front) back := by
  induction front generalizing text with
  | nil => rfl
  | cons token front ih => cases token <;> exact ih _

/-- A copy of cells that were compared goes on with the text. -/
theorem copy_take {text : List α} {distance : ℕ} (hpos : 0 < distance) :
    ∀ {length place : ℕ}, distance ≤ place → place + length ≤ text.length →
      (∀ i < length, text[place - distance + i]? = text[place + i]?) →
      copy distance length (text.take place) = text.take (place + length)
  | 0, _, _, _, _ => rfl
  | length + 1, place, hplace, hfits, hsame => by
      have hlength : (text.take place).length = place :=
        List.length_take_of_le (by omega)
      have hcell : (text.take place)[place - distance]? = text[place]? := by
        rw [List.getElem?_take_of_lt (by omega)]
        exact hsame 0 (Nat.zero_lt_succ length)
      have hnext : ∀ i < length, text[place + 1 - distance + i]? = text[place + 1 + i]? := by
        intro i hi
        have hthis := hsame (i + 1) (Nat.succ_lt_succ hi)
        rw [show place + 1 - distance + i = place - distance + (i + 1) by omega,
          show place + 1 + i = place + (i + 1) by omega]
        exact hthis
      have hrest : copy distance length (text.take (place + 1)) =
          text.take (place + 1 + length) :=
        copy_take hpos (by omega) (by omega) hnext
      rw [copy, hlength, hcell, ← List.take_add_one, hrest, Nat.add_assoc,
        Nat.add_comm 1]

/-! ## The last cells in a ring -/

/-- The last `size` cells of the text are found by their distance from `offset`. -/
def Recalls (size : ℕ) (ring : ℕ → α) (offset : ℕ) (text : List α) : Prop :=
  ∀ distance, 0 < distance → distance ≤ text.length → distance < size →
    text[text.length - distance]? = some (ring ((offset + (size - distance)) % size))

theorem recalls_nil (size : ℕ) (ring : ℕ → α) (offset : ℕ) :
    Recalls size ring offset [] := by
  intro distance hpos hlength _
  exact absurd hlength (Nat.not_le_of_lt hpos)

/-- The next cell goes to the offset, and the offset to the next place. -/
theorem Recalls.push {size offset : ℕ} {ring : ℕ → α} {text : List α}
    (hrecalls : Recalls size ring offset text) (hoffset : offset < size) (cell : α) :
    Recalls size (Function.update ring offset cell) ((offset + 1) % size)
      (text ++ [cell]) := by
  intro distance hpos hlength hsize
  rw [List.length_append, List.length_singleton] at hlength ⊢
  have hplace : ((offset + 1) % size + (size - distance)) % size =
      (offset + (size - (distance - 1))) % size := by
    rw [Nat.mod_add_mod]
    congr 1
    omega
  rw [hplace]
  rcases Nat.eq_or_lt_of_le hpos with hone | hmore
  · obtain rfl : distance = 1 := hone.symm
    rw [Nat.sub_self, Nat.sub_zero, Nat.add_mod_right, Nat.mod_eq_of_lt hoffset,
      Function.update_self, Nat.add_sub_cancel, List.getElem?_append_right (Nat.le_refl _),
      Nat.sub_self]
    rfl
  · have hne : (offset + (size - (distance - 1))) % size ≠ offset := by
      intro heq
      rcases Nat.lt_or_ge (offset + (size - (distance - 1))) size with hin | hover
      · rw [Nat.mod_eq_of_lt hin] at heq
        omega
      · rw [Nat.mod_eq_sub_mod hover, Nat.mod_eq_of_lt (by omega)] at heq
        omega
    have hrest := hrecalls (distance - 1) (by omega) (by omega) (by omega)
    rw [Function.update_of_ne hne, ← hrest,
      List.getElem?_append_left (show text.length + 1 - distance < text.length by omega)]
    congr 1
    omega

end Fip.Lz77
