import Fip.Decb.Commands
import Fip.Core.Chain
import Mathlib.Data.List.GetD

/-!
# What an image file holds

The granule table, the directory and the granules seen through the file, and
how each of the three kinds of write changes what is seen.  The regions they
occupy are disjoint, so a write of one kind leaves the others alone.
-/

namespace Fip.Decb

open Fip.ByteFile

/-- The file holds a whole disk at `offset`. -/
def Holds (image : List UInt8) (offset : ℕ) : Prop :=
  offset + diskz ≤ image.length

def fatOf (image : List UInt8) (offset : ℕ) : Fat := fun granule =>
  (pread image (fatst + offset) fatz).getD granule 0

def entryOf (image : List UInt8) (offset slot : ℕ) : Dirent :=
  Dirent.ofBytes (pread image (dirst + offset + 32 * slot) 32)

/-- The file reaches to the end of the granule. -/
def Reaches (image : List UInt8) (offset : ℕ) (granule : Fin 68) : Prop :=
  seekgran offset granule + granz ≤ image.length

def granOf (image : List UInt8) (offset : ℕ) (granule : Fin 68) :
    List UInt8 :=
  pread image (seekgran offset granule) granz

/-! ## Layout -/

/-- Granules lie inside the disk and clear of track 17, which holds the FAT,
the directory and the label. -/
theorem seekgran_bounds (offset : ℕ) (granule : Fin 68) :
    offset ≤ seekgran offset granule ∧
      (seekgran offset granule + granz ≤ offset + 78336 ∨
        offset + 82944 ≤ seekgran offset granule) ∧
      seekgran offset granule + granz ≤ offset + diskz := by
  have hlt := granule.isLt
  simp only [seekgran, granz, diskz]
  split <;> omega

/-- The map from granules to sectors is injective, with room for a granule
between any two images. -/
theorem seekgran_disjoint (offset : ℕ) {left right : Fin 68}
    (hne : left ≠ right) :
    seekgran offset left + granz ≤ seekgran offset right ∨
      seekgran offset right + granz ≤ seekgran offset left := by
  have hval : left.val ≠ right.val := fun heq => hne (Fin.ext heq)
  simp only [seekgran, granz]
  split <;> split <;> omega

/-- The file offsets that belong to a granule. -/
def inGran (offset : ℕ) (granule : Fin 68) (index : ℕ) : Prop :=
  seekgran offset granule ≤ index ∧ index < seekgran offset granule + granz

theorem Holds.of_length_eq {image image' : List UInt8} {offset : ℕ}
    (hholds : Holds image offset) (hlength : image'.length = image.length) :
    Holds image' offset := by
  unfold Holds at *
  omega

theorem entryOf_congr {image image' : List UInt8} {offset slot : ℕ}
    (hslot : slot < slots)
    (hagree : ∀ index, offset + 78336 ≤ index → index < offset + 82944 →
      image'[index]? = image[index]?) :
    entryOf image' offset slot = entryOf image offset slot := by
  rw [entryOf, entryOf, pread_congr]
  intro index hlow hhigh
  simp only [dirst, slots] at hslot hlow hhigh
  exact hagree index (by omega) (by omega)

theorem granOf_congr {image image' : List UInt8} {offset : ℕ}
    {granule : Fin 68}
    (hagree : ∀ index, inGran offset granule index →
      image'[index]? = image[index]?) :
    granOf image' offset granule = granOf image offset granule := by
  rw [granOf, granOf, pread_congr]
  intro index hlow hhigh
  exact hagree index ⟨hlow, hhigh⟩

/-! ## Reads -/

section Reads

variable {image : List UInt8} {offset : ℕ}

theorem loadfat_eq (hholds : Holds image offset) :
    loadfat image offset = .ok (fatOf image offset) := by
  have hlength : (pread image (fatst + offset) fatz).length = fatz := by
    apply length_pread_of_le
    simp only [Holds, fatst, fatz, diskz] at *
    omega
  simp only [loadfat]
  rw [hlength, if_neg (by decide), if_neg (by simp)]
  rfl

theorem Holds.reaches (hholds : Holds image offset) (granule : Fin 68) :
    Reaches image offset granule :=
  Nat.le_trans (seekgran_bounds offset granule).2.2 hholds

theorem Reaches.length_granOf {granule : Fin 68} (hreaches : Reaches image offset granule) :
    (granOf image offset granule).length = granz :=
  length_pread_of_le hreaches

theorem length_granOf (hholds : Holds image offset) (granule : Fin 68) :
    (granOf image offset granule).length = granz :=
  (hholds.reaches granule).length_granOf

theorem Reaches.loadgran_eq {granule : Fin 68} (hreaches : Reaches image offset granule) :
    loadgran image offset granule = .ok (granOf image offset granule) := by
  have hlength := hreaches.length_granOf
  unfold granOf at hlength
  simp only [loadgran]
  rw [hlength, if_neg (by decide), if_neg (by simp)]
  rfl

theorem getentry_eq (hholds : Holds image offset) {slot : ℕ}
    (hslot : slot ≤ slots) :
    getentry image offset slot =
      .ok (if slot < slots then some (entryOf image offset slot) else none) := by
  have hlength : (pread image (dirst + offset + 32 * slot) 32).length = 32 := by
    apply length_pread_of_le
    simp only [Holds, dirst, slots, diskz] at *
    omega
  rcases Nat.lt_or_ge slot slots with hlt | hge
  · simp [getentry, hlength, hlt, entryOf, Nat.not_lt.mpr (Nat.succ_le_of_lt hlt)]
  · simp [getentry, hlength, Nat.lt_succ_of_le hge, Nat.not_lt.mpr hge]

/-- A scan finds the first slot at which its body leaves the loop. -/
theorem scanFrom_cases {β : Type} (hholds : Holds image offset)
    (visit : Dirent → Option β) (calls slot : ℕ)
    (hcalls : slot + calls = slots + 1) :
    (∃ found verdict, slot ≤ found ∧ found < slots ∧
      visit (entryOf image offset found) = some verdict ∧
      (∀ earlier, slot ≤ earlier → earlier < found →
        visit (entryOf image offset earlier) = none) ∧
      scanFrom image offset visit slot calls =
        .ok (some (verdict, found, entryOf image offset found))) ∨
    ((∀ later, slot ≤ later → later < slots →
        visit (entryOf image offset later) = none) ∧
      scanFrom image offset visit slot calls = .ok none) := by
  induction calls generalizing slot with
  | zero => exact .inr ⟨fun later hlow hhigh => by omega, rfl⟩
  | succ calls ih =>
      rw [scanFrom, getentry_eq hholds (by omega)]
      rcases Nat.lt_or_ge slot slots with hlt | hge
      · rw [if_pos hlt]
        cases hvisit : visit (entryOf image offset slot) with
        | some verdict =>
            refine .inl ⟨slot, verdict, le_rfl, hlt, hvisit, ?_, by simp [hvisit]⟩
            intro earlier hlow hhigh
            omega
        | none =>
            simp only [hvisit]
            rcases ih (slot + 1) (by omega) with
              ⟨found, verdict, hlow, hhigh, hfound, hearlier, hscan⟩ |
              ⟨hlater, hscan⟩
            · refine .inl ⟨found, verdict, by omega, hhigh, hfound, ?_, hscan⟩
              intro earlier hle hlt'
              rcases Nat.eq_or_lt_of_le hle with rfl | hlt''
              · exact hvisit
              · exact hearlier earlier hlt'' hlt'
            · refine .inr ⟨?_, hscan⟩
              intro later hle hlt'
              rcases Nat.eq_or_lt_of_le hle with rfl | hlt''
              · exact hvisit
              · exact hlater later hlt'' hlt'
      · rw [if_neg (by omega)]
        exact .inr ⟨fun later hlow hhigh => by omega, rfl⟩

theorem scan_cases {β : Type} (hholds : Holds image offset)
    (visit : Dirent → Option β) :
    (∃ found verdict, found < slots ∧
      visit (entryOf image offset found) = some verdict ∧
      (∀ earlier < found, visit (entryOf image offset earlier) = none) ∧
      scan image offset visit =
        .ok (some (verdict, found, entryOf image offset found))) ∨
    ((∀ slot < slots, visit (entryOf image offset slot) = none) ∧
      scan image offset visit = .ok none) := by
  rcases scanFrom_cases hholds visit (slots + 1) 0 (by omega) with
    ⟨found, verdict, _, hlt, hfound, hearlier, hscan⟩ | ⟨hnone, hscan⟩
  · exact .inl ⟨found, verdict, hlt, hfound,
      fun earlier => hearlier earlier (Nat.zero_le _), hscan⟩
  · exact .inr ⟨fun slot => hnone slot (Nat.zero_le _), hscan⟩

end Reads

/-! ## Writes -/

section Writes

variable {image : List UInt8} {offset : ℕ}

/-- A write inside the disk keeps the length of the file and every byte it
does not cover. -/
theorem pwrite_inside (hholds : Holds image offset) (start : ℕ)
    (data : List UInt8) (hfits : start + data.length ≤ offset + diskz) :
    (pwrite image start data).length = image.length ∧
      ∀ index, ¬ (start ≤ index ∧ index < start + data.length) →
        (pwrite image start data)[index]? = image[index]? := by
  unfold Holds at hholds
  refine ⟨length_pwrite (by omega), fun index hindex => ?_⟩
  rw [getElem?_pwrite data (by omega), if_neg hindex]

theorem fatOf_savefat (hholds : Holds image offset) (fat : Fat) :
    fatOf (savefat image offset fat) offset = fat := by
  have hread : pread (savefat image offset fat) (fatst + offset) fatz =
      List.ofFn fat := by
    have hself := pread_pwrite_self image (fatst + offset) (List.ofFn fat) (by
      simp only [Holds, fatst, diskz] at *
      omega)
    rwa [List.length_ofFn] at hself
  funext granule
  rw [fatOf, hread, List.getD_eq_getElem _ _ (by
    rw [List.length_ofFn]
    exact granule.isLt), List.getElem_ofFn]

theorem savefat_frame (hholds : Holds image offset) (fat : Fat) :
    (savefat image offset fat).length = image.length ∧
      ∀ index, ¬ (fatst + offset ≤ index ∧ index < fatst + offset + fatz) →
        (savefat image offset fat)[index]? = image[index]? := by
  have hframe := pwrite_inside hholds (fatst + offset) (List.ofFn fat) (by
    simp only [List.length_ofFn, fatst, diskz]
    omega)
  rwa [List.length_ofFn] at hframe

theorem entryOf_savefat (hholds : Holds image offset) (fat : Fat) {slot : ℕ}
    (hslot : slot < slots) :
    entryOf (savefat image offset fat) offset slot =
      entryOf image offset slot := by
  rw [entryOf, entryOf, pread_congr]
  intro index hlow hhigh
  apply (savefat_frame hholds fat).2
  simp only [dirst, fatst, fatz, slots] at *
  omega

theorem granOf_savefat (hholds : Holds image offset) (fat : Fat)
    (granule : Fin 68) :
    granOf (savefat image offset fat) offset granule =
      granOf image offset granule := by
  apply granOf_congr
  intro index hindex
  apply (savefat_frame hholds fat).2
  have hbounds := seekgran_bounds offset granule
  simp only [inGran, granz, fatst, fatz] at *
  omega

theorem saveentry_frame (hholds : Holds image offset) (entry : Dirent)
    {slot : ℕ} (hslot : slot < slots) :
    (saveentry image offset slot entry).length = image.length ∧
      ∀ index, ¬ (dirst + offset + 32 * slot ≤ index ∧
          index < dirst + offset + 32 * slot + 32) →
        (saveentry image offset slot entry)[index]? = image[index]? := by
  have hframe := pwrite_inside hholds (dirst + offset + 32 * slot)
    entry.toBytes (by
      simp only [Dirent.length_toBytes, dirst, slots, diskz] at *
      omega)
  rwa [Dirent.length_toBytes] at hframe

theorem entryOf_saveentry (hholds : Holds image offset) (entry : Dirent)
    {slot : ℕ} (hslot : slot < slots) (other : ℕ) (hother : other < slots) :
    entryOf (saveentry image offset slot entry) offset other =
      if other = slot then entry else entryOf image offset other := by
  by_cases heq : other = slot
  · subst other
    have hself := pread_pwrite_self image (dirst + offset + 32 * slot)
      entry.toBytes (by
        simp only [Holds, dirst, diskz, slots] at *
        omega)
    rw [Dirent.length_toBytes] at hself
    rw [if_pos rfl, entryOf, saveentry, hself, Dirent.ofBytes_toBytes]
  · rw [if_neg heq, entryOf, entryOf, pread_congr]
    intro index hlow hhigh
    apply (saveentry_frame hholds entry hslot).2
    omega

theorem fatOf_saveentry (hholds : Holds image offset) (entry : Dirent)
    {slot : ℕ} (hslot : slot < slots) :
    fatOf (saveentry image offset slot entry) offset = fatOf image offset := by
  funext granule
  rw [fatOf, fatOf, pread_congr]
  intro index hlow hhigh
  apply (saveentry_frame hholds entry hslot).2
  simp only [dirst, fatst, fatz] at *
  omega

theorem granOf_saveentry (hholds : Holds image offset) (entry : Dirent)
    {slot : ℕ} (hslot : slot < slots) (granule : Fin 68) :
    granOf (saveentry image offset slot entry) offset granule =
      granOf image offset granule := by
  apply granOf_congr
  intro index hindex
  apply (saveentry_frame hholds entry hslot).2
  have hbounds := seekgran_bounds offset granule
  simp only [inGran, granz, dirst, slots] at *
  omega

/-- The file after `data` went to the front of a granule. -/
def writegran (image : List UInt8) (offset : ℕ) (granule : Fin 68)
    (data : List UInt8) : List UInt8 :=
  pwrite image (seekgran offset granule) data

theorem writegran_frame (hholds : Holds image offset) (granule : Fin 68)
    (data : List UInt8) (hdata : data.length ≤ granz) :
    (writegran image offset granule data).length = image.length ∧
      ∀ index, ¬ inGran offset granule index →
        (writegran image offset granule data)[index]? = image[index]? := by
  have hbounds := (seekgran_bounds offset granule).2.2
  have hframe := pwrite_inside hholds (seekgran offset granule) data (by omega)
  refine ⟨hframe.1, fun index hindex => hframe.2 index ?_⟩
  unfold inGran at hindex
  omega

theorem granOf_writegran_self (hholds : Holds image offset)
    (granule : Fin 68) {data : List UInt8} (hdata : data.length ≤ granz) :
    granOf (writegran image offset granule data) offset granule =
      data ++ (granOf image offset granule).drop data.length := by
  have hbounds := (seekgran_bounds offset granule).2.2
  unfold Holds at hholds
  exact pread_pwrite_front (by omega) hdata

end Writes

/-- Granules share no byte. -/
theorem not_inGran_of_ne {offset : ℕ} {left right : Fin 68} {index : ℕ}
    (hne : left ≠ right) (hindex : inGran offset left index) :
    ¬ inGran offset right index := by
  have hdisjoint := seekgran_disjoint offset hne
  unfold inGran at *
  omega

/-- No granule reaches into track 17. -/
theorem not_inGran_of_track {offset index : ℕ} (granule : Fin 68)
    (hlow : offset + 78336 ≤ index) (hhigh : index < offset + 82944) :
    ¬ inGran offset granule index := by
  have hbounds := seekgran_bounds offset granule
  unfold inGran
  omega

end Fip.Decb
