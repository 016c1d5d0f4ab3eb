import Fip.Core.ByteFile
import Mathlib.Data.List.GetD

/-!
# A file as an array of sectors

The cells of a file are zero past its end, so that a file of any length is an
array of sectors.  Writing one sector changes no other, also where the write
leaves a gap behind the file.
-/

namespace Fip.Sectors

open Fip.ByteFile

variable {α : Type*} [Zero α]

/-- Zeros up to `count` cells. -/
def padded (count : ℕ) (cells : List α) : List α :=
  cells ++ List.replicate (count - cells.length) 0

/-- The `index`-th sector of `size` cells. -/
def sector (size : ℕ) (file : List α) (index : ℕ) : List α :=
  padded size (pread file (index * size) size)

theorem length_padded {count : ℕ} {cells : List α} (hcells : cells.length ≤ count) :
    (padded count cells).length = count := by
  rw [padded, List.length_append, List.length_replicate]
  exact Nat.add_sub_of_le hcells

@[simp]
theorem length_sector (size : ℕ) (file : List α) (index : ℕ) :
    (sector size file index).length = size := by
  apply length_padded
  rw [length_pread]
  exact Nat.min_le_left _ _

/-- Zeros behind a file are not seen. -/
theorem getD_append_zeros (cells : List α) (count index : ℕ) :
    (cells ++ List.replicate count 0).getD index 0 = cells.getD index 0 := by
  rcases Nat.lt_or_ge index cells.length with hin | hout
  · rw [List.getD_append _ _ _ _ hin]
  · rw [List.getD_append_right _ _ _ _ hout, List.getD_eq_default _ _ hout]
    rcases Nat.lt_or_ge (index - cells.length) count with hzero | hpast
    · rw [List.getD_replicate _ hzero]
    · rw [List.getD_eq_default]
      rw [List.length_replicate]
      exact hpast

/-- The cells of a sector are those of the file. -/
theorem getElem?_sector (size : ℕ) (file : List α) (index : ℕ) {i : ℕ} (hi : i < size) :
    (sector size file index)[i]? = some (file.getD (index * size + i) 0) := by
  have hlength : i < (sector size file index).length := by
    rw [length_sector]
    exact hi
  calc (sector size file index)[i]?
      = some ((sector size file index).getD i 0) := by
        rw [List.getElem?_eq_getElem hlength, List.getD_eq_getElem _ _ hlength]
    _ = some ((pread file (index * size) size).getD i 0) := by
        rw [sector, padded, getD_append_zeros]
    _ = some (file.getD (index * size + i) 0) := by
        rw [List.getD_eq_getElem?_getD, List.getD_eq_getElem?_getD, getElem?_pread,
          if_pos hi]

/-- A write, seen cell by cell, with zeros past the end. -/
theorem getD_pwrite (file : List α) (offset : ℕ) {data : List α} (hdata : data ≠ [])
    (index : ℕ) :
    (pwrite file offset data).getD index 0 =
      if offset ≤ index ∧ index < offset + data.length then data.getD (index - offset) 0
      else file.getD index 0 := by
  have hfront : (file.take offset ++ List.replicate (offset - file.length) 0).length =
      offset := by
    rw [List.length_append, List.length_take, List.length_replicate]
    omega
  rw [pwrite, if_neg hdata, List.append_assoc]
  rcases Nat.lt_or_ge index offset with hbelow | habove
  · rw [if_neg (fun hin => absurd hin.1 (Nat.not_le_of_lt hbelow)),
      List.getD_append _ _ _ _ (by rw [hfront]; exact hbelow), getD_append_zeros,
      List.getD_eq_getElem?_getD, List.getElem?_take_of_lt hbelow,
      ← List.getD_eq_getElem?_getD]
  rw [List.getD_append_right _ _ _ _ (by rw [hfront]; exact habove), hfront]
  rcases Nat.lt_or_ge index (offset + data.length) with hin | hout
  · rw [if_pos ⟨habove, hin⟩, List.getD_append _ _ _ _ (by omega)]
  · have hback : index - offset - data.length + (offset + data.length) = index := by
      omega
    rw [if_neg (fun hin => absurd hin.2 (Nat.not_lt_of_ge hout)),
      List.getD_append_right _ _ _ _ (by omega), List.getD_eq_getElem?_getD,
      List.getElem?_drop, Nat.add_comm, hback, ← List.getD_eq_getElem?_getD]

variable {size index : ℕ} {data : List α}

/-- What was written is read back. -/
theorem sector_pwrite_self (hsize : 0 < size) (hdata : data.length = size)
    (file : List α) (index : ℕ) :
    sector size (pwrite file (index * size) data) index = data := by
  have hcells : data ≠ [] := List.ne_nil_of_length_pos (hdata ▸ hsize)
  apply List.ext_getElem?
  intro i
  rcases Nat.lt_or_ge i size with hi | hi
  · have hinside : index * size ≤ index * size + i ∧
        index * size + i < index * size + data.length := by omega
    have hlength : i < data.length := hdata ▸ hi
    rw [getElem?_sector size _ index hi, getD_pwrite file _ hcells, if_pos hinside,
      Nat.add_sub_cancel_left, List.getD_eq_getElem _ _ hlength,
      List.getElem?_eq_getElem hlength]
  · rw [List.getElem?_eq_none (by rw [length_sector]; exact hi),
      List.getElem?_eq_none (by rw [hdata]; exact hi)]

/-- Frame: the other sectors stay. -/
theorem sector_pwrite_other (hsize : 0 < size) (hdata : data.length = size)
    (file : List α) {other : ℕ} (hother : other ≠ index) :
    sector size (pwrite file (index * size) data) other = sector size file other := by
  have hcells : data ≠ [] := List.ne_nil_of_length_pos (hdata ▸ hsize)
  apply List.ext_getElem?
  intro i
  rcases Nat.lt_or_ge i size with hi | hi
  · have hclear : ¬(index * size ≤ other * size + i ∧
        other * size + i < index * size + data.length) := by
      rintro ⟨hlow, hhigh⟩
      rw [hdata, ← Nat.succ_mul] at hhigh
      have hle : other ≤ index := by
        by_contra hlt
        have hmul : (index + 1) * size ≤ other * size :=
          Nat.mul_le_mul_right size (Nat.lt_of_not_le hlt)
        exact absurd hhigh (Nat.not_lt_of_ge (Nat.le_trans hmul (Nat.le_add_right _ _)))
      have hmul : (other + 1) * size ≤ index * size :=
        Nat.mul_le_mul_right size (Nat.lt_of_le_of_ne hle hother)
      rw [Nat.succ_mul] at hmul
      omega
    rw [getElem?_sector size _ other hi, getElem?_sector size _ other hi,
      getD_pwrite file _ hcells, if_neg hclear]
  · rw [List.getElem?_eq_none (by rw [length_sector]; exact hi),
      List.getElem?_eq_none (by rw [length_sector]; exact hi)]

/-- A sector of two halves. -/
theorem sector_double (size : ℕ) (file : List α) (index : ℕ) :
    sector (2 * size) file index =
      sector size file (2 * index) ++ sector size file (2 * index + 1) := by
  apply List.ext_getElem?
  intro i
  rcases Nat.lt_or_ge i size with hfront | hback
  · rw [getElem?_sector _ _ _ (by omega),
      List.getElem?_append_left (by rw [length_sector]; exact hfront),
      getElem?_sector _ _ _ hfront, Nat.mul_left_comm, Nat.mul_assoc]
  rw [List.getElem?_append_right (by rw [length_sector]; exact hback), length_sector]
  rcases Nat.lt_or_ge i (2 * size) with hi | hi
  · have hcell : (2 * index + 1) * size + (i - size) = index * (2 * size) + i := by
      rw [Nat.succ_mul, Nat.mul_left_comm, ← Nat.mul_assoc]
      omega
    rw [getElem?_sector _ _ _ hi, getElem?_sector _ _ _ (by omega), hcell]
  · rw [List.getElem?_eq_none (by rw [length_sector]; exact hi),
      List.getElem?_eq_none (by rw [length_sector]; omega)]

end Fip.Sectors
