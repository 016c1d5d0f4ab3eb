import Mathlib.Data.List.Basic
import Mathlib.Data.List.TakeWhile
import Mathlib.Logic.Function.Basic
import Mathlib.Tactic.Common

/-!
# Strings in a buffer

Pointers into a buffer are offsets in the list of its bytes.  A scan moves a pointer on
over the bytes that satisfy a test.
-/

namespace Fip

/-- The string at an offset, up to its NUL. -/
def stringAt (buffer : List UInt8) (pos : ℕ) : List UInt8 :=
  (buffer.drop pos).takeWhile (· != 0)

theorem stringAt_append (front : List UInt8) {text : List UInt8} (htext : 0 ∉ text)
    (more : List UInt8) : stringAt (front ++ (text ++ 0 :: more)) front.length = text := by
  have hkept : ∀ c ∈ text, (c != 0) = true :=
    fun c hc => bne_iff_ne.mpr fun hzero => htext (hzero ▸ hc)
  rw [stringAt, List.drop_left, List.takeWhile_append_of_pos hkept,
    List.takeWhile_cons_of_neg (by decide), List.append_nil]

/-- What stands behind the first NUL is not seen. -/
theorem takeWhile_append_nul (text more : List UInt8) :
    (text ++ 0 :: more).takeWhile (· != 0) = text.takeWhile (· != 0) := by
  induction text with
  | nil => rfl
  | cons c text ih =>
      rw [List.cons_append, List.takeWhile_cons, List.takeWhile_cons, ih]

theorem stringAt_cons (front : List UInt8) {c : UInt8} (hc : c ≠ 0) (more : List UInt8) :
    stringAt (front ++ c :: more) front.length = c :: more.takeWhile (· != 0) := by
  have hkept : (c != 0) = true := bne_iff_ne.mpr hc
  rw [stringAt, List.drop_left, List.takeWhile_cons, if_pos hkept]

section

variable {α : Type*}

/-- The first place from `pos` on, where `bytes` starts, that fails the test; `none`
behind the end. -/
def scan (test : α → Bool) : List α → ℕ → Option ℕ
  | [], _ => none
  | c :: bytes, pos => if test c then scan test bytes (pos + 1) else some pos

theorem scan_append {test : α → Bool} {bytes : List α} (hbytes : ∀ c ∈ bytes, test c = true)
    {c : α} (hstop : test c = false) (more : List α) (pos : ℕ) :
    scan test (bytes ++ c :: more) pos = some (pos + bytes.length) := by
  induction bytes generalizing pos with
  | nil =>
      rw [List.nil_append, scan, hstop]
      rfl
  | cons byte bytes ih =>
      rw [List.cons_append, scan, if_pos (hbytes byte List.mem_cons_self),
        ih (fun c hc => hbytes c (List.mem_cons_of_mem _ hc)), List.length_cons,
        Nat.add_assoc, Nat.add_comm 1]

theorem scan_ge {test : α → Bool} {bytes : List α} {pos stop : ℕ}
    (hscan : scan test bytes pos = some stop) : pos ≤ stop := by
  induction bytes generalizing pos with
  | nil => cases hscan
  | cons c bytes ih =>
      rw [scan] at hscan
      split at hscan
      · exact Nat.le_of_succ_le (ih hscan)
      · cases hscan
        exact Nat.le_refl _

/-- A scan for a separator or a NUL stops behind the word. -/
theorem scan_word {sep : UInt8} {word : List UInt8} (hsep : sep ∉ word) (hzero : 0 ∉ word)
    {c : UInt8} (hc : c = sep ∨ c = 0) (more : List UInt8) (pos : ℕ) :
    scan (fun c => c != sep && c != 0) (word ++ c :: more) pos = some (pos + word.length) := by
  refine scan_append ?_ ?_ more pos
  · intro letter hletter
    have hletter_sep : letter ≠ sep := fun h => hsep (h ▸ hletter)
    have hletter_zero : letter ≠ 0 := fun h => hzero (h ▸ hletter)
    simp [hletter_sep, hletter_zero]
  · rcases hc with rfl | rfl <;> simp

theorem getElem?_append_length (front : List α) (c : α) (more : List α) :
    (front ++ c :: more)[front.length]? = some c := by
  rw [List.getElem?_append_right (Nat.le_refl _), Nat.sub_self]
  rfl

theorem set_append_length (front : List α) (c c' : α) (more : List α) :
    (front ++ c :: more).set front.length c' = front ++ c' :: more := by
  rw [List.set_append_right _ _ (Nat.le_refl _), Nat.sub_self]
  rfl

theorem getElem?_behind (front text : List α) (c : α) (more : List α) :
    (front ++ (text ++ c :: more))[front.length + text.length]? = some c := by
  rw [← List.append_assoc, ← List.length_append]
  exact getElem?_append_length _ c more

theorem set_behind (front text : List α) (c c' : α) (more : List α) :
    (front ++ (text ++ c :: more)).set (front.length + text.length) c' =
      front ++ (text ++ c' :: more) := by
  rw [← List.append_assoc, ← List.length_append, set_append_length, List.append_assoc]

theorem drop_behind (front text : List α) (c : α) (more : List α) :
    (front ++ (text ++ c :: more)).drop (front.length + text.length + 1) = more := by
  rw [← List.append_assoc, ← List.length_append, List.drop_length_add_append]
  rfl

/-! ## Arrays as functions of the index -/

theorem map_update_range (array : ℕ → α) (pos : ℕ) (c : α) :
    (List.range pos).map (Function.update array pos c) = (List.range pos).map array := by
  refine List.map_congr_left fun i hi => ?_
  exact Function.update_of_ne (Nat.ne_of_lt (List.mem_range.mp hi)) _ _

/-- A store behind the elements in use adds one. -/
theorem map_update_range_succ (array : ℕ → α) (pos : ℕ) (c : α) :
    (List.range (pos + 1)).map (Function.update array pos c) =
      (List.range pos).map array ++ [c] := by
  rw [List.range_succ, List.map_append, map_update_range, List.map_singleton,
    Function.update_self]

end

end Fip
