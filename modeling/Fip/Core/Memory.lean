import Mathlib.Data.List.Basic
import Mathlib.Data.List.Range
import Mathlib.Data.Nat.ModEq
import Mathlib.Logic.Function.Basic
import Mathlib.Tactic.Common

/-!
# Copying into a memory whose addresses wrap

`write` stores cells one after the other, `wrapWrite` does so in a memory of
`size` cells, where the address behind the last one is the first.
-/

namespace Fip.Memory

variable {β : Type*}

def write (mem : ℕ → β) (addr : ℕ) : List β → ℕ → β
  | [] => mem
  | cell :: cells => write (Function.update mem addr cell) (addr + 1) cells

def wrapWrite (size : ℕ) (mem : ℕ → β) (addr : ℕ) : List β → ℕ → β
  | [] => mem
  | cell :: cells =>
      wrapWrite size (Function.update mem (addr % size) cell) (addr + 1) cells

/-- In front of what is written nothing changes. -/
theorem write_of_lt {addr other : ℕ} (hlt : other < addr) (mem : ℕ → β) (cells : List β) :
    write mem addr cells other = mem other := by
  induction cells generalizing mem addr with
  | nil => rfl
  | cons cell cells ih =>
      rw [write, ih (Nat.lt_succ_of_lt hlt)]
      exact Function.update_of_ne (Nat.ne_of_lt hlt) cell mem

/-- What was written is read back. -/
theorem write_add {index : ℕ} {cells : List β} (hindex : index < cells.length)
    (mem : ℕ → β) (addr : ℕ) (fill : β) :
    write mem addr cells (addr + index) = cells.getD index fill := by
  induction cells generalizing mem addr index with
  | nil => exact absurd hindex (Nat.not_lt_zero _)
  | cons cell cells ih =>
      cases index with
      | zero =>
          rw [Nat.add_zero, write, write_of_lt (Nat.lt_succ_self addr)]
          exact Function.update_self addr cell mem
      | succ index =>
          rw [write, Nat.add_comm index, ← Nat.add_assoc,
            ih (Nat.lt_of_succ_lt_succ hindex), Nat.add_comm 1]
          rfl

theorem wrapWrite_append (size : ℕ) (mem : ℕ → β) (addr : ℕ) (cells more : List β) :
    wrapWrite size mem addr (cells ++ more) =
      wrapWrite size (wrapWrite size mem addr cells) (addr + cells.length) more := by
  induction cells generalizing mem addr with
  | nil => rfl
  | cons cell cells ih =>
      rw [List.cons_append, wrapWrite, ih, wrapWrite, List.length_cons,
        Nat.add_right_comm, Nat.add_assoc]

/-- Only the address modulo the size of the memory matters. -/
theorem wrapWrite_mod (size : ℕ) (mem : ℕ → β) (addr : ℕ) (cells : List β) :
    wrapWrite size mem (addr % size) cells = wrapWrite size mem addr cells := by
  have hcongr : ∀ (cells : List β) (mem : ℕ → β) (left right : ℕ),
      left % size = right % size →
      wrapWrite size mem left cells = wrapWrite size mem right cells := by
    intro cells
    induction cells with
    | nil => intros; rfl
    | cons cell cells ih =>
        intro mem left right heq
        have hnext : (left + 1) % size = (right + 1) % size := by
          rw [Nat.add_mod, heq, ← Nat.add_mod]
        rw [wrapWrite, wrapWrite, heq, ih _ _ _ hnext]
  exact hcongr cells mem _ _ (Nat.mod_mod addr size)

/-- Inside the memory nothing wraps. -/
theorem write_eq_wrapWrite {size addr : ℕ} {cells : List β}
    (hinside : addr + cells.length ≤ size) (mem : ℕ → β) :
    write mem addr cells = wrapWrite size mem addr cells := by
  induction cells generalizing mem addr with
  | nil => rfl
  | cons cell cells ih =>
      rw [List.length_cons] at hinside
      have hcell : addr % size = addr := Nat.mod_eq_of_lt (by omega)
      rw [write, wrapWrite, hcell, ih (by omega)]

/-- A cell that is not written can be written before or after. -/
theorem wrapWrite_update {size addr other : ℕ} {cells : List β}
    (houtside : ∀ i < cells.length, (addr + i) % size ≠ other) (mem : ℕ → β) (cell : β) :
    wrapWrite size (Function.update mem other cell) addr cells =
      Function.update (wrapWrite size mem addr cells) other cell := by
  induction cells generalizing mem addr with
  | nil => rfl
  | cons first cells ih =>
      have hfirst : addr % size ≠ other := houtside 0 (Nat.zero_lt_succ _)
      have hrest : ∀ i < cells.length, (addr + 1 + i) % size ≠ other := by
        intro i hi
        rw [Nat.add_assoc, Nat.add_comm 1]
        exact houtside (i + 1) (Nat.succ_lt_succ hi)
      rw [wrapWrite, wrapWrite, Function.update_comm hfirst.symm, ih hrest]

/-- Inside the size of the memory, different offsets are different addresses. -/
theorem add_mod_ne {size addr i j : ℕ} (hi : i < size) (hj : j < size) (hne : i ≠ j) :
    (addr + i) % size ≠ (addr + j) % size := by
  intro heq
  have hmod : i % size = j % size := Nat.ModEq.add_left_cancel' addr heq
  rw [Nat.mod_eq_of_lt hi, Nat.mod_eq_of_lt hj] at hmod
  exact hne hmod

/-- What is written again is as if it had been written once. -/
theorem wrapWrite_again {size addr : ℕ} {cells again : List β}
    (hlength : again.length = cells.length) (hsize : cells.length ≤ size) (mem : ℕ → β) :
    wrapWrite size (wrapWrite size mem addr cells) addr again =
      wrapWrite size mem addr again := by
  induction cells generalizing mem addr again with
  | nil =>
      have hnil : again = [] := List.length_eq_zero_iff.mp hlength
      rw [hnil]
      rfl
  | cons first cells ih =>
      obtain ⟨first', again, rfl⟩ := List.exists_cons_of_length_eq_add_one hlength
      have hlength' : again.length = cells.length := Nat.succ.inj hlength
      have hsize' : cells.length < size := hsize
      have houtside : ∀ i < cells.length, (addr + 1 + i) % size ≠ addr % size := by
        intro i hi
        rw [Nat.add_assoc, Nat.add_comm 1]
        exact add_mod_ne (j := 0) (by omega) (by omega) (Nat.succ_ne_zero i)
      calc wrapWrite size (wrapWrite size mem addr (first :: cells)) addr (first' :: again)
          = wrapWrite size (Function.update (wrapWrite size
              (Function.update mem (addr % size) first) (addr + 1) cells)
                (addr % size) first') (addr + 1) again := rfl
        _ = wrapWrite size (Function.update (Function.update
              (wrapWrite size mem (addr + 1) cells) (addr % size) first)
                (addr % size) first') (addr + 1) again := by
              rw [wrapWrite_update houtside]
        _ = wrapWrite size (wrapWrite size (Function.update mem (addr % size) first')
              (addr + 1) cells) (addr + 1) again := by
              rw [Function.update_idem, wrapWrite_update houtside]
        _ = wrapWrite size (Function.update mem (addr % size) first') (addr + 1) again :=
              ih hlength' (Nat.le_of_lt hsize') _

/-- Writes to different places can be exchanged. -/
theorem wrapWrite_comm {size addr other : ℕ} {cells more : List β}
    (hapart : ∀ i < cells.length, ∀ j < more.length,
      (addr + i) % size ≠ (other + j) % size) (mem : ℕ → β) :
    wrapWrite size (wrapWrite size mem addr cells) other more =
      wrapWrite size (wrapWrite size mem other more) addr cells := by
  induction more generalizing mem other with
  | nil => rfl
  | cons first more ih =>
      have hfirst : ∀ i < cells.length, (addr + i) % size ≠ other % size :=
        fun i hi => hapart i hi 0 (Nat.zero_lt_succ _)
      have hrest : ∀ i < cells.length, ∀ j < more.length,
          (addr + i) % size ≠ (other + 1 + j) % size := by
        intro i hi j hj
        rw [Nat.add_assoc, Nat.add_comm 1]
        exact hapart i hi (j + 1) (Nat.succ_lt_succ hj)
      rw [wrapWrite, wrapWrite, ← wrapWrite_update hfirst, ih hrest]

/-- A part of what was written is patched. -/
theorem wrapWrite_patch {size : ℕ} (mem : ℕ → β) (addr : ℕ)
    {front cells back patch : List β} (hlength : patch.length = cells.length)
    (hsize : (front ++ cells ++ back).length ≤ size) :
    wrapWrite size (wrapWrite size mem addr (front ++ cells ++ back))
        (addr + front.length) patch =
      wrapWrite size mem addr (front ++ patch ++ back) := by
  rw [List.length_append, List.length_append] at hsize
  have hapart : ∀ i < back.length, ∀ j < patch.length,
      (addr + (front ++ cells).length + i) % size ≠ (addr + front.length + j) % size := by
    intro i hi j hj
    rw [List.length_append, Nat.add_assoc, Nat.add_assoc addr front.length j]
    exact add_mod_ne (by omega) (by omega) (by omega)
  have hfront : (front ++ cells).length = (front ++ patch).length := by
    rw [List.length_append, List.length_append, hlength]
  calc wrapWrite size (wrapWrite size mem addr (front ++ cells ++ back))
        (addr + front.length) patch
      = wrapWrite size (wrapWrite size (wrapWrite size mem addr (front ++ cells))
          (addr + (front ++ cells).length) back) (addr + front.length) patch := by
            rw [wrapWrite_append]
    _ = wrapWrite size (wrapWrite size (wrapWrite size mem addr (front ++ cells))
          (addr + front.length) patch) (addr + (front ++ cells).length) back :=
            wrapWrite_comm hapart _
    _ = wrapWrite size (wrapWrite size (wrapWrite size (wrapWrite size mem addr front)
          (addr + front.length) cells) (addr + front.length) patch)
            (addr + (front ++ cells).length) back := by
            rw [wrapWrite_append size mem addr front cells]
    _ = wrapWrite size (wrapWrite size (wrapWrite size mem addr front)
          (addr + front.length) patch) (addr + (front ++ cells).length) back := by
            rw [wrapWrite_again hlength (by omega)]
    _ = wrapWrite size mem addr (front ++ patch ++ back) := by
            rw [hfront, wrapWrite_append size mem addr (front ++ patch) back,
              wrapWrite_append size mem addr front patch]

/-! ## Reading a part of a memory -/

/-- The `count` cells from `start` on. -/
def cells (mem : ℕ → β) (start count : ℕ) : List β :=
  (List.range count).map fun i => mem (start + i)

@[simp]
theorem length_cells (mem : ℕ → β) (start count : ℕ) : (cells mem start count).length = count := by
  rw [cells, List.length_map, List.length_range]

theorem cells_congr {mem mem' : ℕ → β} {start count : ℕ}
    (hagree : ∀ i < count, mem (start + i) = mem' (start + i)) :
    cells mem start count = cells mem' start count :=
  List.map_congr_left fun i hi => hagree i (List.mem_range.mp hi)

theorem cells_add (mem : ℕ → β) (start count more : ℕ) :
    cells mem start (count + more) = cells mem start count ++ cells mem (start + count) more := by
  rw [cells, List.range_add, List.map_append, List.map_map]
  refine congrArg _ (List.map_congr_left fun i _ => ?_)
  rw [Function.comp_apply, Nat.add_assoc]

/-- The first cells. -/
theorem cells_of_append {mem : ℕ → β} {start : ℕ} (count more : ℕ) {front back : List β}
    (hcells : cells mem start (count + more) = front ++ back) (hfront : front.length = count) :
    cells mem start count = front := by
  rw [cells_add] at hcells
  exact (List.append_inj hcells (by rw [length_cells, hfront])).1

theorem cells_eq_replicate {mem : ℕ → β} {start count : ℕ} {cell : β}
    (hall : ∀ i < count, mem (start + i) = cell) :
    cells mem start count = List.replicate count cell := by
  rw [List.eq_replicate_iff, length_cells]
  refine ⟨rfl, fun b hb => ?_⟩
  obtain ⟨i, hi, rfl⟩ := List.mem_map.mp hb
  exact hall i (List.mem_range.mp hi)

/-- Behind what is written nothing changes. -/
theorem write_of_le {addr other : ℕ} {data : List β} (hle : addr + data.length ≤ other)
    (mem : ℕ → β) : write mem addr data other = mem other := by
  induction data generalizing mem addr with
  | nil => rfl
  | cons cell data ih =>
      rw [List.length_cons] at hle
      rw [write, ih (by omega), Function.update_of_ne (by omega)]

/-- A write outside. -/
theorem cells_write_of_disjoint {addr start count : ℕ} {data : List β}
    (hdisjoint : addr + data.length ≤ start ∨ start + count ≤ addr) (mem : ℕ → β) :
    cells (write mem addr data) start count = cells mem start count := by
  refine cells_congr fun i hi => ?_
  rcases hdisjoint with hbelow | habove
  · exact write_of_le (by omega) mem
  · exact write_of_lt (by omega) mem data

/-- What was written is read. -/
theorem cells_write (mem : ℕ → β) (addr : ℕ) (data : List β) :
    cells (write mem addr data) addr data.length = data := by
  induction data generalizing mem addr with
  | nil => rfl
  | cons cell data ih =>
      have hcell : write (Function.update mem addr cell) (addr + 1) data addr = cell := by
        rw [write_of_lt (Nat.lt_succ_self addr), Function.update_self]
      rw [List.length_cons, Nat.add_comm, cells_add, write, ih]
      exact congrArg (· ++ data) (congrArg (fun cell => [cell]) hcell)

/-- A part of what is read is written over. -/
theorem cells_write_middle {mem : ℕ → β} {start addr count : ℕ} {front old back data : List β}
    (hcells : cells mem start count = front ++ old ++ back)
    (haddr : addr = start + front.length) (hlength : data.length = old.length) :
    cells (write mem addr data) start count = front ++ data ++ back := by
  have hcount := congrArg List.length hcells
  simp only [length_cells, List.length_append] at hcount
  subst haddr
  have hsplit : ∀ mem : ℕ → β, cells mem start count =
      cells mem start front.length ++ cells mem (start + front.length) data.length ++
        cells mem (start + front.length + data.length) back.length := by
    intro mem
    rw [hcount, ← hlength, cells_add, cells_add]
    simp only [Nat.add_assoc]
  rw [hsplit, List.append_assoc, List.append_assoc] at hcells
  obtain ⟨hfront, hrest⟩ := List.append_inj hcells (length_cells ..)
  obtain ⟨-, hback⟩ := List.append_inj hrest (by rw [length_cells, hlength])
  rw [hsplit, cells_write, cells_write_of_disjoint (.inr le_rfl),
    cells_write_of_disjoint (.inl le_rfl), hfront, hback]

end Fip.Memory
