import Mathlib.Data.List.Basic
import Mathlib.Tactic.Common

/-!
# Regular files addressed by offset

A regular file is the list of its cells.  `pread` is a read that stops at the
end of the file, `pwrite` a write that extends it, filling a gap with zeros.
The lemmas say which cells a write leaves alone and what a later read sees.
-/

namespace Fip.ByteFile

variable {α : Type*}

/-- At most `count` cells from `offset` on; short only at the end of file. -/
def pread (file : List α) (offset count : ℕ) : List α :=
  (file.drop offset).take count

/-- Store `data` at `offset`.  A write of no cells does not extend the file. -/
def pwrite [Zero α] (file : List α) (offset : ℕ) (data : List α) : List α :=
  if data = [] then file
  else
    file.take offset ++ List.replicate (offset - file.length) 0 ++ data ++
      file.drop (offset + data.length)

theorem getElem?_pread (file : List α) (offset count index : ℕ) :
    (pread file offset count)[index]? =
      if index < count then file[offset + index]? else none := by
  simp [pread, List.getElem?_take, List.getElem?_drop]

theorem length_pread (file : List α) (offset count : ℕ) :
    (pread file offset count).length = min count (file.length - offset) := by
  simp [pread]

theorem length_pread_of_le {file : List α} {offset count : ℕ}
    (hfits : offset + count ≤ file.length) :
    (pread file offset count).length = count := by
  rw [length_pread]
  omega

/-- Two files that agree on a window are read alike there. -/
theorem pread_congr {left right : List α} {offset count : ℕ}
    (hagree : ∀ index, offset ≤ index → index < offset + count →
      left[index]? = right[index]?) :
    pread left offset count = pread right offset count := by
  apply List.ext_getElem?
  intro index
  rw [getElem?_pread, getElem?_pread]
  by_cases hindex : index < count
  · rw [if_pos hindex, if_pos hindex]
    exact hagree (offset + index) (by omega) (by omega)
  · rw [if_neg hindex, if_neg hindex]

variable [Zero α]

/-- Writing no cells is no write. -/
@[simp]
theorem pwrite_nil (file : List α) (offset : ℕ) :
    pwrite file offset [] = file := by
  simp [pwrite]

theorem getElem?_pwrite {file : List α} {offset : ℕ} (data : List α)
    (hoffset : offset ≤ file.length) (index : ℕ) :
    (pwrite file offset data)[index]? =
      if offset ≤ index ∧ index < offset + data.length then
        data[index - offset]?
      else file[index]? := by
  by_cases hdata : data = []
  · subst data
    rw [pwrite_nil, if_neg]
    simp only [List.length_nil]
    omega
  rw [pwrite, if_neg hdata, Nat.sub_eq_zero_of_le hoffset]
  simp only [List.replicate_zero, List.append_nil]
  rcases Nat.lt_or_ge index offset with hbelow | habove
  · rw [if_neg (by omega), List.getElem?_append_left (by simp; omega),
      List.getElem?_append_left (by simp; omega),
      List.getElem?_take_of_lt hbelow]
  rcases Nat.lt_or_ge index (offset + data.length) with hin | hout
  · rw [if_pos ⟨habove, hin⟩, List.getElem?_append_left (by simp; omega),
      List.getElem?_append_right (by simp; omega)]
    simp [Nat.min_eq_left hoffset]
  · rw [if_neg (by omega), List.getElem?_append_right (by simp; omega),
      List.getElem?_drop]
    simp only [List.length_append, List.length_take, Nat.min_eq_left hoffset]
    congr 1
    omega

/-- The written cells, also where the write begins past the end. -/
theorem getElem?_pwrite_inside (file : List α) (offset : ℕ) (data : List α)
    {index : ℕ} (hindex : index < data.length) :
    (pwrite file offset data)[offset + index]? = data[index]? := by
  have hdata : data ≠ [] := by
    rintro rfl
    simp at hindex
  have hfront : (file.take offset ++
      List.replicate (offset - file.length) 0).length = offset := by
    simp only [List.length_append, List.length_take, List.length_replicate]
    omega
  rw [pwrite, if_neg hdata, List.getElem?_append_left (by
      rw [List.length_append, hfront]
      omega),
    List.getElem?_append_right (by omega), hfront, Nat.add_sub_cancel_left]

/-- A write leaves the cells before it alone. -/
theorem getElem?_pwrite_below {file : List α} {offset index : ℕ}
    (data : List α) (hfile : index < file.length) (hbelow : index < offset) :
    (pwrite file offset data)[index]? = file[index]? := by
  by_cases hdata : data = []
  · simp [hdata]
  have htaken : index < (file.take offset).length := by
    rw [List.length_take]
    omega
  rw [pwrite, if_neg hdata, List.append_assoc, List.append_assoc,
    List.getElem?_append_left htaken, List.getElem?_take_of_lt hbelow]

/-- A write leaves all cells of the file alone that it does not write, also where it
leaves a gap behind the file. -/
theorem getElem?_pwrite_frame {file : List α} {offset index : ℕ} {data : List α}
    (hfile : index < file.length)
    (hclear : index < offset ∨ offset + data.length ≤ index) :
    (pwrite file offset data)[index]? = file[index]? := by
  rcases Nat.lt_or_ge index offset with hbelow | habove
  · exact getElem?_pwrite_below data hfile hbelow
  · rw [getElem?_pwrite data (Nat.le_of_lt (Nat.lt_of_le_of_lt habove hfile)), if_neg]
    omega

theorem length_pwrite {file : List α} {offset : ℕ} {data : List α}
    (hfits : offset + data.length ≤ file.length) :
    (pwrite file offset data).length = file.length := by
  by_cases hdata : data = []
  · simp [hdata]
  · simp only [pwrite, if_neg hdata, List.length_append, List.length_take,
      List.length_replicate, List.length_drop]
    omega

/-- A file never shrinks. -/
theorem length_le_length_pwrite (file : List α) (offset : ℕ) (data : List α) :
    file.length ≤ (pwrite file offset data).length := by
  by_cases hdata : data = []
  · simp [hdata]
  · simp only [pwrite, if_neg hdata, List.length_append, List.length_take,
      List.length_replicate, List.length_drop]
    omega

/-- A file ends no earlier than what was last written to it. -/
theorem le_length_pwrite (file : List α) (offset : ℕ) {data : List α}
    (hdata : data ≠ []) :
    offset + data.length ≤ (pwrite file offset data).length := by
  simp only [pwrite, if_neg hdata, List.length_append, List.length_take,
    List.length_replicate, List.length_drop]
  omega

/-- The written cells read back. -/
theorem pread_pwrite_self (file : List α) (offset : ℕ) (data : List α)
    (hoffset : offset ≤ file.length) :
    pread (pwrite file offset data) offset data.length = data := by
  apply List.ext_getElem?
  intro index
  rw [getElem?_pread, getElem?_pwrite data hoffset]
  by_cases hindex : index < data.length
  · rw [if_pos hindex, if_pos (by omega), Nat.add_sub_cancel_left]
  · rw [if_neg hindex, List.getElem?_eq_none (by omega)]

/-- Writing over the front of a window replaces the front of what it reads. -/
theorem pread_pwrite_front {file : List α} {offset : ℕ} {data : List α}
    {size : ℕ} (hoffset : offset ≤ file.length) (hsize : data.length ≤ size) :
    pread (pwrite file offset data) offset size =
      data ++ (pread file offset size).drop data.length := by
  apply List.ext_getElem?
  intro index
  rw [getElem?_pread, getElem?_pwrite data hoffset]
  rcases Nat.lt_or_ge index data.length with hin | hout
  · rw [if_pos (by omega), if_pos (by omega),
      List.getElem?_append_left hin, Nat.add_sub_cancel_left]
  · rw [List.getElem?_append_right hout, List.getElem?_drop, getElem?_pread,
      Nat.add_sub_of_le hout]
    by_cases hindex : index < size
    · rw [if_pos hindex, if_neg (by omega), if_pos hindex]
    · rw [if_neg hindex, if_neg hindex]

/-- A write that goes on behind another one. -/
theorem pwrite_append (file : List α) (offset : ℕ) (data more : List α) :
    pwrite (pwrite file offset data) (offset + data.length) more =
      pwrite file offset (data ++ more) := by
  by_cases hdata : data = []
  · subst hdata
    rw [pwrite_nil, List.length_nil, Nat.add_zero, List.nil_append]
  by_cases hmore : more = []
  · rw [hmore, pwrite_nil, List.append_nil]
  have hfront : (file.take offset ++ List.replicate (offset - file.length) 0 ++ data).length =
      offset + data.length := by
    simp only [List.length_append, List.length_take, List.length_replicate]
    omega
  have hne : data ++ more ≠ [] := fun happend => hdata (List.append_eq_nil_iff.mp happend).1
  have hfile : pwrite file offset data =
      (file.take offset ++ List.replicate (offset - file.length) 0 ++ data) ++
        file.drop (offset + data.length) := by
    rw [pwrite, if_neg hdata]
  have hle : offset + data.length ≤ (pwrite file offset data).length :=
    le_length_pwrite file offset hdata
  rw [pwrite, if_neg hmore, Nat.sub_eq_zero_of_le hle, List.replicate_zero, List.append_nil,
    hfile, ← hfront, List.take_left, List.drop_append, List.drop_of_length_le (by omega),
    Nat.add_sub_cancel_left, List.nil_append, List.drop_drop, hfront, pwrite, if_neg hne]
  simp only [List.append_assoc, List.length_append, Nat.add_assoc]

theorem length_pwrite_max (file : List α) (offset : ℕ) {data : List α} (hdata : data ≠ []) :
    (pwrite file offset data).length = max file.length (offset + data.length) := by
  simp only [pwrite, if_neg hdata, List.length_append, List.length_take, List.length_replicate,
    List.length_drop]
  omega

/-- The cells of a file that is written, with zeros behind its end. -/
theorem getD_pwrite (file : List α) (offset : ℕ) (data : List α) (index : ℕ) :
    (pwrite file offset data).getD index 0 =
      if offset ≤ index ∧ index < offset + data.length then data.getD (index - offset) 0
      else file.getD index 0 := by
  by_cases hin : offset ≤ index ∧ index < offset + data.length
  · rw [if_pos hin]
    have hindex : index - offset < data.length := by omega
    have hcell := getElem?_pwrite_inside file offset data hindex
    rw [Nat.add_sub_of_le hin.1] at hcell
    rw [List.getD_eq_getElem?_getD, List.getD_eq_getElem?_getD, hcell]
  · rw [if_neg hin]
    rcases Nat.lt_or_ge index file.length with hfile | hfile
    · have hclear : index < offset ∨ offset + data.length ≤ index := by omega
      rw [List.getD_eq_getElem?_getD, List.getD_eq_getElem?_getD,
        getElem?_pwrite_frame hfile hclear]
    · have hzero : file.getD index 0 = 0 := by
        rw [List.getD_eq_getElem?_getD, List.getElem?_eq_none hfile, Option.getD_none]
      by_cases hdata : data = []
      · rw [hdata, pwrite_nil]
      rw [hzero, List.getD_eq_getElem?_getD]
      rcases Nat.lt_or_ge index offset with hbelow | habove
      · rw [pwrite, if_neg hdata, List.drop_of_length_le (by omega), List.append_nil,
          List.getElem?_append_left (by simp; omega), List.getElem?_append_right (by simp; omega),
          List.getElem?_replicate]
        split_ifs <;> rfl
      · have hlength := length_pwrite_max file offset hdata
        rw [List.getElem?_eq_none (by omega), Option.getD_none]

/-- Files are equal if they have the same length and the same cells. -/
theorem ext_getD {left right : List α} (hlength : left.length = right.length)
    (hcells : ∀ index, left.getD index 0 = right.getD index 0) : left = right := by
  apply List.ext_getElem hlength
  intro index hleft hright
  have hcell := hcells index
  rwa [List.getD_eq_getElem?_getD, List.getD_eq_getElem?_getD, List.getElem?_eq_getElem hleft,
    List.getElem?_eq_getElem hright] at hcell

end Fip.ByteFile
