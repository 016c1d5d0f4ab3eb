import Mathlib.Data.List.Basic
import Mathlib.Tactic.Common

/-!
# Databases that are written anew to change an entry

The entries are copied; those with the key of the new entry are replaced by it,
and it is put behind the others if there were none.
-/

namespace Fip.Keyed

variable {α κ : Type*} [DecidableEq κ] {key : α → κ} {entry : α} {db : List α}

/-- The entries that are written, and whether one was replaced. -/
def rewrite (key : α → κ) (entry : α) : List α → List α × Bool
  | [] => ([], false)
  | s :: db =>
      let (d, r) := rewrite key entry db
      if key s = key entry then (entry :: d, true) else (s :: d, r)

def update (key : α → κ) (entry : α) (db : List α) : List α :=
  let (d, r) := rewrite key entry db
  if r then d else d ++ [entry]

theorem rewrite_eq (db : List α) :
    rewrite key entry db =
      (db.map fun s => if key s = key entry then entry else s,
        db.any fun s => key s = key entry) := by
  induction db with
  | nil => rfl
  | cons s db ih =>
      rw [rewrite, ih]
      by_cases hkey : key s = key entry <;> simp [hkey]

/-- An entry with a new key is put behind the others. -/
theorem update_of_new (hnew : ∀ s ∈ db, key s ≠ key entry) :
    update key entry db = db ++ [entry] := by
  have hmap : (db.map fun s => if key s = key entry then entry else s) = db := by
    calc (db.map fun s => if key s = key entry then entry else s)
        = db.map id := List.map_congr_left fun s hs => if_neg (hnew s hs)
      _ = db := List.map_id db
  have hany : (db.any fun s => key s = key entry) = false := by
    simpa using hnew
  rw [update, rewrite_eq, hmap, hany]
  rfl

/-- Otherwise all entries with its key are replaced. -/
theorem update_of_old (hold : ∃ s ∈ db, key s = key entry) :
    update key entry db = db.map fun s => if key s = key entry then entry else s := by
  have hany : (db.any fun s => key s = key entry) = true := by
    simpa using hold
  rw [update, rewrite_eq, hany]
  rfl

theorem mem_update : entry ∈ update key entry db := by
  by_cases hold : ∃ s ∈ db, key s = key entry
  · obtain ⟨s, hs, hkey⟩ := hold
    rw [update_of_old ⟨s, hs, hkey⟩]
    exact List.mem_map.mpr ⟨s, hs, if_pos hkey⟩
  · rw [update_of_new fun s hs hkey => hold ⟨s, hs, hkey⟩]
    exact List.mem_append_right db List.mem_cons_self

theorem mem_of_mem_update {s : α} (hs : s ∈ update key entry db) : s = entry ∨ s ∈ db := by
  by_cases hold : ∃ s ∈ db, key s = key entry
  · rw [update_of_old hold] at hs
    obtain ⟨s', hs', rfl⟩ := List.mem_map.mp hs
    split
    · exact .inl rfl
    · exact .inr hs'
  · rw [update_of_new fun s hs hkey => hold ⟨s, hs, hkey⟩] at hs
    rcases List.mem_append.mp hs with hs | hs
    · exact .inr hs
    · exact .inl (List.mem_singleton.mp hs)

end Fip.Keyed
