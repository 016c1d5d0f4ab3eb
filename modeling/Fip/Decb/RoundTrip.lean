import Fip.Decb.Runs

/-!
# `put` followed by `get`

`put` stores the length of a file as the number of granules, the number of
sectors in the last granule, and the number of bytes in the last sector.  A
full last sector is counted as a sector with 0 bytes in it, and `get`, which
adds the bytes to one sector less, then drops it.
-/

namespace Fip.Decb

/-- The size that `get` computes for the last granule from what `put` stored
for it. -/
theorem lastSize_putEntry (opts : Opts) (entry : Dirent) (first : UInt8)
    (form : List UInt8) {size : ℕ} (hsize : size < granz) :
    lastSize (lastByte size) (putEntry opts entry first size form) =
      if size % 256 = 0 then (size : ℤ) - 256 else size := by
  have hmask : ∀ n : Fin 10,
      ((0xc0 ||| UInt8.ofNat n) &&& ~~~0xc0 : UInt8).toNat = n.val := by decide
  have hsectors : (size + secz - 1) / secz ≤ 9 := by
    simp only [granz, secz] at *
    omega
  have hcount := hmask ⟨(size + secz - 1) / secz, by omega⟩
  have hrest : size % secz < 256 := Nat.mod_lt _ (by decide)
  have hhigh : (size % secz) >>> 8 = 0 := by
    rw [Nat.shiftRight_eq_div_pow]
    exact Nat.div_eq_of_lt hrest
  have hlow : (UInt8.ofNat ((size % secz) &&& 0xff)).toNat = size % secz := by
    rw [UInt8.toNat_ofNat', show 0xff = 2 ^ 8 - 1 by rfl,
      Nat.and_two_pow_sub_one_eq_mod]
    omega
  simp only [lastSize, lastByte, putEntry, hhigh, if_true, Fin.isValue,
    one_ne_zero, if_false, hlow] at hcount ⊢
  rw [hcount]
  have hzero : (UInt8.ofNat 0).toNat <<< 8 = 0 := rfl
  rw [hzero, Nat.zero_add]
  simp only [secz] at *
  split_ifs <;> omega

/-- What `put` needs to store `src` under a new name that `get` can find. -/
structure Storable (opts : Opts) (image src name : List UInt8) : Prop where
  new : ∀ slot < slots,
    (entryOf image opts.offset slot).key ≠ nameForm name
  visible : (nameForm name).getD 0 0 ≠ 0xff
  room : src.length / granz + 1 ≤ (freeGrans (fatOf image opts.offset)).card
  slot : ∃ slot < slots, (entryOf image opts.offset slot).isFree

/-- `put` succeeds, and `get` then succeeds and writes the same bytes. -/
def GetPutId (putOpts getOpts : Opts) (image src name : List UInt8) : Prop :=
  ∃ image', put putOpts image src name = .ok image' ∧
    get getOpts image' name = ⟨none, src⟩

section

variable {putOpts getOpts : Opts} {image name c : List UInt8}

/-- What `get` makes of a file that `put` just stored, for every length. -/
theorem get_after_put (hholds : Holds image putOpts.offset)
    (hoffset : getOpts.offset = putOpts.offset)
    (hputTrans : putOpts.trans = false) (hgetTrans : getOpts.trans = false)
    (hfits : Fits name) (hstorable : Storable putOpts image c name) :
    ∃ image', put putOpts image c name = .ok image' ∧
      (c.length % 256 ≠ 0 → get getOpts image' name = ⟨none, c⟩) ∧
      (c.length % 256 = 0 → c.length % granz ≠ 0 →
        get getOpts image' name = ⟨none, c.take (c.length - 256)⟩) ∧
      (c.length % granz = 0 →
        (get getOpts image' name).halt = some (.exit "write")) := by
  obtain ⟨hnew, hmark, hroom, hslot⟩ := hstorable
  obtain ⟨slot, hlt, hfree, hearlier, hscan⟩ :
      ∃ slot < slots, (entryOf image putOpts.offset slot).isFree ∧
        (∀ earlier < slot, (entryOf image putOpts.offset earlier).isLive) ∧
        scan image putOpts.offset slotVisit =
          .ok (some ((), slot, entryOf image putOpts.offset slot)) := by
    rcases scan_slotVisit_cases hholds with hfound | ⟨hall, _⟩
    · exact hfound
    · obtain ⟨slot, hlt, hfree⟩ := hslot
      exact absurd hfree (hall slot hlt)
  obtain ⟨image', x, tail, hput, hdone⟩ := put_spec putOpts image c name hholds
    (find_eq_none hholds hfits hnew) hlt hscan hroom
  have hholds' : Holds image' putOpts.offset :=
    hholds.of_length_eq hdone.length_image
  generalize hentry : putEntry putOpts (entryOf image putOpts.offset slot)
    (UInt8.ofNat x.val) (c.length % granz) (nameForm name) = entry
  have hstored : entryOf image' putOpts.offset slot = entry := by
    rw [hdone.entries slot hlt, if_pos rfl, hentry]
  have hkey : entry.key = nameForm name := by
    rw [← hentry]
    exact Dirent.key_setKey (entryOf image putOpts.offset slot)
      (length_nameForm name)
  have hothers : ∀ earlier < slot,
      entryOf image' putOpts.offset earlier =
        entryOf image putOpts.offset earlier := by
    intro earlier hless
    rw [hdone.entries earlier (by omega), if_neg (by omega)]
  have hfind : find image' putOpts.offset name = .ok (some (slot, entry)) := by
    rw [← hstored]
    refine find_eq_some hholds' hfits hlt (by rw [hstored, hkey]) ?_ ?_
    · intro earlier hle
      rcases Nat.lt_or_eq_of_le hle with hless | rfl
      · rw [hothers earlier hless]
        exact fun heq => hearlier earlier hless (.inr heq)
      · rwa [hstored, ← Dirent.key_getD_zero, hkey]
    · intro earlier hless
      rw [hothers earlier hless]
      exact hnew earlier (by omega)
  have hlast : c.length % granz < granz := Nat.mod_lt _ (by decide)
  have hisLast : isLast (lastByte (c.length % granz)) := by
    rw [isLast_iff]
    exact (lastByte_bounds hlast).1
  have hrounds : (x :: tail).length ≤ fatz + 1 := by
    have hcard := hdone.chain.nodup.length_le_card
    rw [Fintype.card_fin] at hcard
    simp only [fatz]
    omega
  have hsize := lastSize_putEntry putOpts (entryOf image putOpts.offset slot)
    (UInt8.ofNat x.val) (nameForm name) hlast
  rw [hentry] at hsize
  have hfirst : entry.first = UInt8.ofNat x.val := by rw [← hentry]; rfl
  have hget : get getOpts image' name =
      getLoop getOpts image' (fatOf image' putOpts.offset) entry (fatz + 1)
        (UInt8.ofNat x) [] := by
    simp only [get, hoffset, loadfat_eq hholds', hfind, hfirst]
  have hcontents : ((x :: tail).flatMap (granOf image' putOpts.offset)).take
      c.length = c := by
    rw [hdone.contents, Opts.toDisk, if_neg (by simp [hputTrans])]
  have htail : (x :: tail).length - 1 = c.length / granz := by
    rw [hdone.length_chain, Nat.add_sub_cancel]
  have hsum := Nat.div_add_mod c.length granz
  have hread : ∀ size : ℕ, lastSize (lastByte (c.length % granz)) entry = size →
      size < granz → get getOpts image' name = ⟨none,
        ((x :: tail).flatMap (granOf image' putOpts.offset)).take
          (granz * (c.length / granz) + size)⟩ := by
    intro size hcomputed hshort
    have hholds'' : Holds image' getOpts.offset := by rwa [hoffset]
    rw [hget, getLoop_chain hholds'' hdone.chain hisLast hcomputed hshort _
      hrounds, hoffset, htail, List.nil_append, Opts.toHost,
      if_neg (by simp [hgetTrans])]
  refine ⟨image', hput, fun hpartial => ?_, fun hfull hnonzero => ?_,
    fun hmultiple => ?_⟩
  · rw [hread (c.length % granz) (by
      rw [hsize, if_neg (by simp only [granz]; omega)]) hlast, hsum, hcontents]
  · have hcut : granz * (c.length / granz) + (c.length % granz - 256) =
        c.length - 256 := by
      simp only [granz] at *
      omega
    rw [hread (c.length % granz - 256) (by
        rw [hsize, if_pos (by simp only [granz]; omega)]
        simp only [granz] at *
        omega) (by omega), hcut]
    have hshorter := congrArg (List.take (c.length - 256)) hcontents
    rw [List.take_take, Nat.min_eq_left (by omega)] at hshorter
    rw [hshorter]
  · rw [hget]
    refine getLoop_negative (by rwa [hoffset]) hdone.chain hisLast ?_ _
      hrounds _
    rw [hsize, hmultiple]
    decide

/-- The round trip on every image that holds a disk. -/
theorem get_put_of_holds (hholds : Holds image putOpts.offset)
    (hoffset : getOpts.offset = putOpts.offset)
    (hputTrans : putOpts.trans = false) (hgetTrans : getOpts.trans = false)
    (hstorable : Storable putOpts image c name) :
    GetPutId putOpts getOpts image c name ↔
      c.length % 256 ≠ 0 ∧ Fits name := by
  by_cases hfits : Fits name
  swap
  · refine iff_of_false ?_ fun hboth => hfits hboth.2
    rintro ⟨image', hput, _⟩
    rw [put_overrun hholds hfits] at hput
    cases hput
  obtain ⟨image', hput, hpartial, hfull, hmultiple⟩ := get_after_put hholds
    hoffset hputTrans hgetTrans hfits hstorable
  constructor
  · rintro ⟨image'', hput', hget⟩
    refine ⟨fun hzero => ?_, hfits⟩
    rw [hput] at hput'
    cases hput'
    by_cases hgranules : c.length % granz = 0
    · have hhalt := hmultiple hgranules
      rw [hget] at hhalt
      cases hhalt
    · have hshort := hfull hzero hgranules
      rw [hget] at hshort
      have hlength := congrArg (fun copied => copied.written.length) hshort
      simp only [List.length_take, granz] at hlength hgranules
      omega
  · rintro ⟨hnonzero, _⟩
    exact ⟨image', hput, hpartial hnonzero⟩

/-- `get` after `put` is the identity on exactly the files that do not end on
a sector boundary, under exactly the names that fit into `buf`: for every disk
built by `mkfs`, `put` and `rm`. -/
theorem get_put_iff {offset : ℕ} (hbuilt : Built offset image)
    (hputOffset : putOpts.offset = offset)
    (hgetOffset : getOpts.offset = offset)
    (hputTrans : putOpts.trans = false) (hgetTrans : getOpts.trans = false)
    (hstorable : Storable putOpts image c name) :
    GetPutId putOpts getOpts image c name ↔
      c.length % 256 ≠ 0 ∧ Fits name := by
  subst hputOffset
  exact get_put_of_holds hbuilt.holds hgetOffset hputTrans hgetTrans hstorable

end

/-- Every file of at most 67 granules can be put on a fresh disk. -/
theorem storable_fresh (image : List UInt8) :
    ∃ image', mkfs .initial image = .ok image' ∧
      ∀ src name : List UInt8, src.length / granz + 1 ≤ 68 →
        (nameForm name).getD 0 0 ≠ 0xff → Storable .initial image' src name := by
  obtain ⟨image', hmkfs, _, hfat, hentries⟩ := mkfs_spec .initial image
  refine ⟨image', hmkfs, fun src name hroom hmark => ⟨?_, hmark, ?_, ?_⟩⟩
  · intro slot hslot hkey
    rw [← hkey, Dirent.key_getD_zero, hentries slot hslot] at hmark
    exact hmark rfl
  · rw [hfat, show freeGrans (reserve .initial fun _ => 0xff) = Finset.univ by
      decide, Finset.card_univ, Fintype.card_fin]
    exact hroom
  · exact ⟨0, by decide, .inr (hentries 0 (by decide))⟩

/-- One byte under the name `A` on a fresh disk. -/
theorem get_put_iff_oneByte :
    ∃ image, mkfs .initial [] = .ok image ∧
      (GetPutId .initial .initial image [0x58] [0x41] ↔
        [(0x58 : UInt8)].length % 256 ≠ 0 ∧ Fits [0x41]) := by
  obtain ⟨image, hmkfs, hstorable⟩ := storable_fresh []
  exact ⟨image, hmkfs, get_put_iff (Built.mkfs rfl hmkfs) rfl rfl rfl rfl
    (hstorable _ _ (by decide) (by decide))⟩

/-- One full sector under the name `A` on a fresh disk does not come back. -/
theorem get_put_fullSector_lost :
    ∃ image, Built 0 image ∧
      Storable .initial image (List.replicate 256 0x58) [0x41] ∧
      ¬ GetPutId .initial .initial image (List.replicate 256 0x58) [0x41] := by
  obtain ⟨image, hmkfs, hfresh⟩ := storable_fresh []
  have hbuilt : Built 0 image := .mkfs rfl hmkfs
  have hstorable := hfresh (List.replicate 256 0x58) [0x41]
    (by rw [List.length_replicate]; decide) (by decide)
  refine ⟨image, hbuilt, hstorable, ?_⟩
  rw [get_put_of_holds hbuilt.holds rfl rfl rfl hstorable, List.length_replicate]
  exact fun hboth => hboth.1 rfl

end Fip.Decb
