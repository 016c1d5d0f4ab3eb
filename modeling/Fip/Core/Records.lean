import Mathlib.Data.List.Basic
import Mathlib.Tactic.Common

/-!
# Texts of records

Every record is a line, and its fields are separated by a mark.  A text is read by
splitting it at the ends of the lines and at the marks.  What was written is read back
exactly if no field has one of the two characters in it.
-/

namespace Fip.Records

variable {α : Type*} [DecidableEq α] {sep eol : α} {text piece : List α}
  {fields : List (List α)} {records : List (List (List α))}

/-- The text of a record. -/
def line (sep eol : α) (fields : List (List α)) : List α :=
  [sep].intercalate fields ++ [eol]

def encode (sep eol : α) (records : List (List (List α))) : List α :=
  records.flatMap (line sep eol)

/-- The lines that are ended, split at the marks. -/
def decode (sep eol : α) (text : List α) : List (List (List α)) :=
  (text.splitOn eol).dropLast.map (List.splitOn sep)

/-- The pieces of a text do not have the mark in them. -/
theorem not_mem_of_mem_splitOn (hpiece : piece ∈ text.splitOn sep) : sep ∉ piece := by
  induction text generalizing piece with
  | nil =>
      rw [List.splitOn_nil, List.mem_singleton] at hpiece
      rw [hpiece]
      exact List.not_mem_nil
  | cons first text ih =>
      rw [List.splitOn_cons_eq_if_modifyHead] at hpiece
      split at hpiece
      · rcases List.mem_cons.mp hpiece with rfl | hpiece
        · exact List.not_mem_nil
        · exact ih hpiece
      · next hfirst =>
          obtain ⟨head, tail, hsplit⟩ :=
            List.exists_cons_of_ne_nil (List.splitOn_ne_nil sep text)
          rw [hsplit, List.modifyHead_cons] at hpiece
          rw [hsplit] at ih
          rcases List.mem_cons.mp hpiece with rfl | hpiece
          · have hne : sep ≠ first := fun heq => hfirst (by rw [heq]; exact beq_self_eq_true _)
            rw [List.mem_cons]
            exact not_or.mpr ⟨hne, ih List.mem_cons_self⟩
          · exact ih (List.mem_cons_of_mem _ hpiece)

/-- The pieces of a text have nothing in them that the text does not have. -/
theorem mem_of_mem_splitOn (hpiece : piece ∈ text.splitOn sep) {a : α} (ha : a ∈ piece) :
    a ∈ text := by
  induction text generalizing piece with
  | nil =>
      rw [List.splitOn_nil, List.mem_singleton] at hpiece
      rwa [hpiece] at ha
  | cons first text ih =>
      rw [List.splitOn_cons_eq_if_modifyHead] at hpiece
      split at hpiece
      · rcases List.mem_cons.mp hpiece with rfl | hpiece
        · cases ha
        · exact List.mem_cons_of_mem _ (ih hpiece ha)
      · obtain ⟨head, tail, hsplit⟩ :=
          List.exists_cons_of_ne_nil (List.splitOn_ne_nil sep text)
        rw [hsplit, List.modifyHead_cons] at hpiece
        rw [hsplit] at ih
        rcases List.mem_cons.mp hpiece with rfl | hpiece
        · rcases List.mem_cons.mp ha with rfl | ha
          · exact List.mem_cons_self
          · exact List.mem_cons_of_mem _ (ih List.mem_cons_self ha)
        · exact List.mem_cons_of_mem _ (ih (List.mem_cons_of_mem _ hpiece) ha)

/-- No field that is read has one of the two characters in it. -/
theorem clean_of_mem_decode (hfields : fields ∈ decode sep eol text) (hpiece : piece ∈ fields) :
    sep ∉ piece ∧ eol ∉ piece := by
  obtain ⟨record, hrecord, rfl⟩ := List.mem_map.mp hfields
  refine ⟨not_mem_of_mem_splitOn hpiece, fun heol => ?_⟩
  exact not_mem_of_mem_splitOn (List.dropLast_subset _ hrecord)
    (mem_of_mem_splitOn hpiece heol)

omit [DecidableEq α] in
theorem eol_not_mem_intercalate (hne : eol ≠ sep) (hclean : ∀ piece ∈ fields, eol ∉ piece) :
    eol ∉ [sep].intercalate fields := by
  induction fields with
  | nil => exact List.not_mem_nil
  | cons first fields ih =>
      have hfirst := hclean first List.mem_cons_self
      cases fields with
      | nil => rwa [List.intercalate_singleton]
      | cons second fields =>
          have hrest := ih fun piece hmem => hclean piece (List.mem_cons_of_mem _ hmem)
          rw [List.intercalate_cons_cons, List.mem_append, List.mem_append, List.mem_singleton]
          exact not_or.mpr ⟨not_or.mpr ⟨hfirst, hne⟩, hrest⟩

omit [DecidableEq α] in
theorem mem_intercalate {a : α} (hpiece : piece ∈ fields) (ha : a ∈ piece) :
    a ∈ [sep].intercalate fields := by
  induction fields with
  | nil => cases hpiece
  | cons first fields ih =>
      cases fields with
      | nil =>
          rw [List.intercalate_singleton]
          rwa [List.mem_singleton.mp hpiece] at ha
      | cons second fields =>
          rw [List.intercalate_cons_cons, List.mem_append]
          rcases List.mem_cons.mp hpiece with rfl | hpiece
          · exact .inl (List.mem_append_left _ ha)
          · exact .inr (ih hpiece)

/-- A text that begins with a record. -/
theorem decode_line_append (hne : eol ≠ sep) (hfields : fields ≠ [])
    (hclean : ∀ piece ∈ fields, sep ∉ piece ∧ eol ∉ piece) :
    decode sep eol (line sep eol fields ++ text) = fields :: decode sep eol text := by
  have heol := eol_not_mem_intercalate hne fun piece hmem => (hclean piece hmem).2
  rw [decode, line, List.append_assoc, List.singleton_append,
    List.splitOn_append_cons_self_of_not_mem heol,
    List.dropLast_cons_of_ne_nil (List.splitOn_ne_nil _ _), List.map_cons,
    List.splitOn_intercalate sep (fun piece hmem => (hclean piece hmem).1) hfields, decode]

theorem decode_encode (hne : eol ≠ sep) (hrecords : ∀ fields ∈ records, fields ≠ [])
    (hclean : ∀ fields ∈ records, ∀ piece ∈ fields, sep ∉ piece ∧ eol ∉ piece) :
    decode sep eol (encode sep eol records) = records := by
  induction records with
  | nil => rfl
  | cons fields records ih =>
      rw [List.forall_mem_cons] at hrecords hclean
      rw [encode, List.flatMap_cons, decode_line_append hne hrecords.1 hclean.1, ← encode,
        ih hrecords.2 hclean.2]

/-- A text that begins with records. -/
theorem decode_encode_append (hne : eol ≠ sep) (hrecords : ∀ fields ∈ records, fields ≠ [])
    (hclean : ∀ fields ∈ records, ∀ piece ∈ fields, sep ∉ piece ∧ eol ∉ piece) :
    decode sep eol (encode sep eol records ++ text) = records ++ decode sep eol text := by
  induction records with
  | nil => rfl
  | cons fields records ih =>
      rw [List.forall_mem_cons] at hrecords hclean
      rw [encode, List.flatMap_cons, List.append_assoc,
        decode_line_append hne hrecords.1 hclean.1, ← encode, ih hrecords.2 hclean.2,
        List.cons_append]

theorem splitOn_append_of_not_mem {front : List α} (hfront : eol ∉ front) :
    (front ++ text).splitOn eol = (text.splitOn eol).modifyHead (front ++ ·) := by
  obtain ⟨head, tail, hsplit⟩ := List.exists_cons_of_ne_nil (List.splitOn_ne_nil eol text)
  rw [hsplit, List.modifyHead_cons]
  induction front with
  | nil => exact hsplit
  | cons first front ih =>
      rw [List.mem_cons, not_or] at hfront
      have hfirst : (first == eol) = false := beq_eq_false_iff_ne.mpr (Ne.symm hfront.1)
      rw [List.cons_append, List.splitOn_cons_eq_if_modifyHead, hfirst,
        if_neg Bool.false_ne_true, ih hfront.2, List.modifyHead_cons, List.cons_append]

/-- Where the first of several fields is clean it is the first one that is read. -/
theorem head_decode_line {first second : List α} (hne : eol ≠ sep)
    (hfirst : sep ∉ first ∧ eol ∉ first) :
    ∃ read rest, decode sep eol (line sep eol (first :: second :: fields) ++ text) =
      (first :: read) :: rest := by
  have hline : line sep eol (first :: second :: fields) ++ text =
      (first ++ [sep]) ++ ([sep].intercalate (second :: fields) ++ eol :: text) := by
    simp [line, List.intercalate_cons_cons]
  have hfront : eol ∉ first ++ [sep] := by
    simp [hfirst.2, hne]
  obtain ⟨head, tail, hsplit⟩ := List.exists_cons_of_ne_nil
    (List.splitOn_ne_nil eol ([sep].intercalate (second :: fields)))
  have htail : tail ++ text.splitOn eol ≠ [] :=
    List.append_ne_nil_of_right_ne_nil _ (List.splitOn_ne_nil _ _)
  refine ⟨head.splitOn sep, (tail ++ text.splitOn eol).dropLast.map (List.splitOn sep), ?_⟩
  rw [hline, decode, splitOn_append_of_not_mem hfront, List.splitOn_append_cons_self, hsplit,
    List.cons_append, List.modifyHead_cons, List.dropLast_cons_of_ne_nil htail, List.map_cons,
    List.append_assoc, List.singleton_append,
    List.splitOn_append_cons_self_of_not_mem hfirst.1]

theorem length_splitOn (sep : α) (text : List α) :
    (text.splitOn sep).length = text.count sep + 1 := by
  induction text with
  | nil => rw [List.splitOn_nil, List.count_nil, List.length_singleton]
  | cons first text ih =>
      rw [List.splitOn_cons_eq_if_modifyHead, List.count_cons]
      split
      · next hfirst => rw [List.length_cons, ih]
      · next hfirst => rw [List.length_modifyHead, ih, Nat.add_zero]

/-- Marks in the fields make more fields. -/
theorem count_intercalate (sep : α) (fields : List (List α)) :
    ([sep].intercalate fields).count sep + 1 =
      fields.flatten.count sep + max fields.length 1 := by
  induction fields with
  | nil => rfl
  | cons first fields ih =>
      cases fields with
      | nil =>
          rw [List.intercalate_singleton, List.flatten_singleton, List.length_singleton,
            Nat.max_self]
      | cons second fields =>
          rw [List.intercalate_cons_cons, List.count_append, List.count_append,
            List.count_singleton_self, List.flatten_cons, List.count_append]
          simp only [List.length_cons] at ih ⊢
          omega

/-- A line that is read as one record with as many fields has no marks in them. -/
theorem clean_of_decode_line {read : List (List α)} (hfields : fields ≠ [])
    (hdecode : decode sep eol (line sep eol fields) = [read])
    (hlength : read.length = fields.length) :
    ∀ piece ∈ fields, sep ∉ piece ∧ eol ∉ piece := by
  rw [decode, line, List.splitOn_append_cons_self, List.splitOn_nil, List.dropLast_concat]
    at hdecode
  have hlines : ([sep].intercalate fields).count eol = 0 := by
    have hone := congrArg List.length hdecode
    rw [List.length_map, length_splitOn, List.length_singleton] at hone
    exact Nat.succ.inj hone
  have heol : eol ∉ [sep].intercalate fields := List.count_eq_zero.mp hlines
  rw [List.splitOn_eq_singleton heol, List.map_singleton, List.singleton_inj] at hdecode
  have hmarks := count_intercalate sep fields
  rw [← length_splitOn, hdecode, hlength] at hmarks
  have hpositive := List.length_pos_iff.mpr hfields
  have hnone : fields.flatten.count sep = 0 := by omega
  intro piece hpiece
  refine ⟨fun hmem => ?_, fun hmem => heol (mem_intercalate hpiece hmem)⟩
  exact List.count_eq_zero.mp hnone (List.mem_flatten_of_mem hpiece hmem)

/-- What was written is read back in just this case. -/
theorem decode_encode_iff (hne : eol ≠ sep) (hrecords : ∀ fields ∈ records, fields ≠ []) :
    decode sep eol (encode sep eol records) = records ↔
      ∀ fields ∈ records, ∀ piece ∈ fields, sep ∉ piece ∧ eol ∉ piece := by
  constructor
  · intro hdecode fields hfields piece hpiece
    rw [← hdecode] at hfields
    exact clean_of_mem_decode hfields hpiece
  · exact decode_encode hne hrecords

end Fip.Records
