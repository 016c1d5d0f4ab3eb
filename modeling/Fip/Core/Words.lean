import Fip.Core.Records
import Mathlib.Data.List.TakeWhile

/-!
# The words of a text

The words are the maximal runs without a separator, in order.
-/

namespace Fip

variable {α : Type*} [DecidableEq α]

/-- The words of a text between separators. -/
def words (sep : α) (text : List α) : List (List α) :=
  (text.splitOn sep).filter (· ≠ [])

theorem words_sep (sep : α) (text : List α) : words sep (sep :: text) = words sep text := by
  rw [words, List.splitOn_cons_eq_if_modifyHead, if_pos (beq_self_eq_true sep),
    List.filter_cons_of_neg (by simp), words]

/-- Separators in front make no word. -/
theorem words_dropWhile (sep : α) (text : List α) :
    words sep (text.dropWhile (· == sep)) = words sep text := by
  induction text with
  | nil => rfl
  | cons letter text ih =>
      by_cases hletter : letter = sep
      · subst hletter
        rw [List.dropWhile_cons, if_pos (beq_self_eq_true letter), ih, words_sep]
      · rw [List.dropWhile_cons_of_neg (by simpa using hletter)]

/-- A word up to the end of the text or up to a separator. -/
theorem words_append {sep : α} {word rest : List α} (hne : word ≠ []) (hword : sep ∉ word)
    (hrest : ∀ letter ∈ rest.head?, letter = sep) :
    words sep (word ++ rest) = word :: words sep rest := by
  cases rest with
  | nil =>
      rw [List.append_nil, words, List.splitOn_eq_singleton hword,
        List.filter_cons_of_pos (by simpa using hne)]
      rfl
  | cons letter rest =>
      obtain rfl := hrest letter rfl
      rw [words, List.splitOn_append_cons_self_of_not_mem hword,
        List.filter_cons_of_pos (by simpa using hne), words_sep]
      rfl

theorem words_append_sep {sep : α} {word : List α} (hne : word ≠ []) (hword : sep ∉ word)
    (rest : List α) : words sep (word ++ sep :: rest) = word :: words sep rest := by
  rw [words_append hne hword (by simp), words_sep]

/-- A text that does not start with a separator is a word, or starts with one that a
separator ends. -/
theorem exists_word {sep first : α} (hfirst : first ≠ sep) (letters : List α) :
    ∃ word, word ≠ [] ∧ sep ∉ word ∧
      (first :: letters = word ∨ ∃ rest, first :: letters = word ++ sep :: rest) := by
  have hsplit : letters.takeWhile (· != sep) ++ letters.dropWhile (· != sep) = letters :=
    List.takeWhile_append_dropWhile
  have hword : sep ∉ letters.takeWhile (· != sep) := by
    intro hmem
    have hkept := List.mem_takeWhile_imp hmem
    exact bne_iff_ne.mp hkept rfl
  refine ⟨first :: letters.takeWhile (· != sep), List.cons_ne_nil _ _,
    List.not_mem_cons_of_ne_of_not_mem hfirst.symm hword, ?_⟩
  rcases hrest : letters.dropWhile (· != sep) with _ | ⟨letter, rest⟩
  · rw [hrest, List.append_nil] at hsplit
    exact .inl (congrArg (first :: ·) hsplit.symm)
  · have hletter : letter = sep := by
      have hnot := List.head?_dropWhile_not (· != sep) letters
      rw [hrest] at hnot
      simpa using hnot
    rw [hrest, hletter] at hsplit
    exact .inr ⟨rest, congrArg (first :: ·) hsplit.symm⟩

theorem sep_not_mem_words {sep : α} {text word : List α} (hword : word ∈ words sep text) :
    sep ∉ word :=
  Records.not_mem_of_mem_splitOn (List.mem_filter.mp hword).1

end Fip
