import Fip.Core.ByteFile
import Mathlib.Data.UInt
import Mathlib.Data.List.GetD

/-!
# Packing a disk into a ROM

`romfs` copies the sectors of a disk image one behind the other, but for those
that are all ones or all zeros, and leaves out the last sector of every ROM bank.
The first three sectors are the table of where they went.
-/

namespace Fip.Decb.Romfs

open Fip.ByteFile

/-- Sector size. -/
def secz : ℕ := 256

def ones : List UInt8 := List.replicate secz 0xff

def zero : List UInt8 := List.replicate secz 0

/-- A sector of a file. -/
def sector (file : List UInt8) (sec : ℕ) : List UInt8 :=
  pread file (sec * secz) secz

/-- What is read replaces the front of the buffer. -/
def load (image : List UInt8) (buf : List UInt8) (sec : ℕ) : List UInt8 :=
  let got := sector image sec
  got ++ buf.drop got.length

def save (file : List UInt8) (buf : List UInt8) (sec : ℕ) : List UInt8 :=
  pwrite file (sec * secz) buf

/-- The variables of the packing loop, and the output file. -/
structure State where
  buf : List UInt8
  lsns : List UInt8
  outpos : ℕ
  out : List UInt8

def start : State where
  buf := zero
  lsns := List.replicate (secz * 3) 0
  outpos := 3
  out := []

/-- Once round the loop, for sector `i`. -/
def pack (image : List UInt8) (s : State) (i : ℕ) : State :=
  let buf := load image s.buf i
  if buf = ones then { s with buf := buf, lsns := s.lsns.set i 0 }
  else if buf = zero then { s with buf := buf, lsns := s.lsns.set i 1 }
  else
    let s :=
      { buf := buf
        lsns := s.lsns.set i (.ofNat s.outpos)
        out := save s.out buf s.outpos
        outpos := s.outpos + 1 }
    if s.outpos % 64 = 63 then
      { s with out := save s.out ones s.outpos, outpos := s.outpos + 1 }
    else s

def packed (image : List UInt8) (n : ℕ) : State :=
  (List.range n).foldl (pack image) start

/-- The table is saved in the first three sectors. -/
def saveTable (lsns out : List UInt8) : List UInt8 :=
  let out := save out (pread lsns 0 secz) 0
  let out := save out (pread lsns secz secz) 1
  save out (pread lsns (secz * 2) secz) 2

/-- The exit code, and the output file if it is still there. -/
def romfs (banks : ℕ) (image : List UInt8) : ℕ × Option (List UInt8) :=
  let s := packed image 630
  if s.outpos > banks * 64 then (1, none) else (0, some (saveTable s.lsns s.out))

/-- A sector that has to be stored. -/
def IsData (image : List UInt8) (i : ℕ) : Prop :=
  sector image i ≠ ones ∧ sector image i ≠ zero

instance (image : List UInt8) (i : ℕ) : Decidable (IsData image i) :=
  inferInstanceAs (Decidable (_ ∧ _))

/-- How many of the first sectors have to be stored. -/
def stored (image : List UInt8) (n : ℕ) : ℕ :=
  ((List.range n).filter (IsData image)).length

/-- Where the nth stored sector goes: each bank has room for 63. -/
def position (n : ℕ) : ℕ :=
  n + 3 + (n + 3) / 63

/-- A sector of the disk, as the ROM has it. -/
def decode (rom : List UInt8) (i : ℕ) : List UInt8 :=
  let t := rom.getD i 0
  if t = 0 then ones else if t = 1 then zero else sector rom t.toNat

section

variable {image file buf : List UInt8} {n i sec other : ℕ}

theorem stored_succ (image : List UInt8) (n : ℕ) :
    stored image (n + 1) = stored image n + if IsData image n then 1 else 0 := by
  rw [stored, List.range_succ, List.filter_append, List.length_append]
  by_cases hdata : IsData image n <;> simp [hdata, stored]

theorem stored_mono {m : ℕ} (hle : n ≤ m) : stored image n ≤ stored image m := by
  induction hle with
  | refl => exact Nat.le_refl _
  | step _ ih =>
      rw [stored_succ]
      exact Nat.le_add_right_of_le ih

theorem stored_lt_of_isData {m : ℕ} (hdata : IsData image n) (hlt : n < m) :
    stored image n < stored image m := by
  have hnext : stored image (n + 1) = stored image n + 1 := by
    rw [stored_succ, if_pos hdata]
  calc stored image n < stored image (n + 1) := by rw [hnext]; exact Nat.lt_succ_self _
    _ ≤ stored image m := stored_mono hlt

theorem position_mod_ne (n : ℕ) : position n % 64 ≠ 63 := by
  rw [position]
  omega

theorem position_strictMono {m : ℕ} (hlt : n < m) : position n < position m := by
  rw [position, position]
  omega

theorem position_succ (n : ℕ) :
    position (n + 1) =
      if (position n + 1) % 64 = 63 then position n + 1 + 1 else position n + 1 := by
  rw [position, position]
  split <;> omega

/-- The capacity of the banks. -/
theorem position_le_iff (n : ℕ) {banks : ℕ} (hbanks : 0 < banks) :
    position n ≤ banks * 64 ↔ n ≤ 63 * banks - 3 := by
  rw [position]
  omega

theorem length_sector (hinside : (sec + 1) * secz ≤ file.length) :
    (sector file sec).length = secz := by
  rw [Nat.add_mul, Nat.one_mul] at hinside
  exact length_pread_of_le hinside

theorem load_eq (hinside : (sec + 1) * secz ≤ image.length) (hbuf : buf.length = secz) :
    load image buf sec = sector image sec := by
  rw [load, length_sector hinside, List.drop_eq_nil_of_le (Nat.le_of_eq hbuf),
    List.append_nil]

/-- What is saved is read back, wherever the file ended before. -/
theorem sector_save_self (file : List UInt8) (hbuf : buf.length = secz) (sec : ℕ) :
    sector (save file buf sec) sec = buf := by
  apply List.ext_getElem?
  intro index
  rw [sector, getElem?_pread, save]
  by_cases hindex : index < secz
  · rw [if_pos hindex, getElem?_pwrite_inside _ _ _ (hbuf.symm ▸ hindex)]
  · rw [if_neg hindex, List.getElem?_eq_none (hbuf.symm ▸ Nat.le_of_not_lt hindex)]

/-- Another sector stays as it is if there is one. -/
theorem sector_save_of_ne (hne : other ≠ sec) (hbuf : buf.length = secz)
    (hinside : (other + 1) * secz ≤ file.length) :
    sector (save file buf sec) other = sector file other := by
  rw [sector, save]
  refine pread_congr fun index hlow hhigh => ?_
  rw [secz] at *
  exact getElem?_pwrite_frame (by omega) (by omega)

theorem length_le_length_save (file buf : List UInt8) (sec : ℕ) :
    file.length ≤ (save file buf sec).length :=
  length_le_length_pwrite file _ buf

theorem le_length_save (file : List UInt8) (hbuf : buf.length = secz) (sec : ℕ) :
    (sec + 1) * secz ≤ (save file buf sec).length := by
  have hne : buf ≠ [] := List.ne_nil_of_length_eq_add_one hbuf
  calc (sec + 1) * secz = sec * secz + buf.length := by rw [hbuf, Nat.add_mul, Nat.one_mul]
    _ ≤ (save file buf sec).length := le_length_pwrite file _ hne

/-- The table entry of a sector. -/
def entry (image : List UInt8) (i : ℕ) : UInt8 :=
  if sector image i = ones then 0
  else if sector image i = zero then 1
  else .ofNat (position (stored image i))

/-- A sector that was stored is in the file. -/
def Holds (image out : List UInt8) (i : ℕ) : Prop :=
  (position (stored image i) + 1) * secz ≤ out.length ∧
    sector out (position (stored image i)) = sector image i

theorem Holds.save {image out : List UInt8} (hholds : Holds image out i)
    (hbuf : buf.length = secz) (hne : position (stored image i) ≠ sec) :
    Holds image (save out buf sec) i :=
  ⟨Nat.le_trans hholds.1 (length_le_length_save _ _ _),
    (sector_save_of_ne hne hbuf hholds.1).trans hholds.2⟩

/-- After `n` sectors. -/
structure Packed (image : List UInt8) (n : ℕ) (s : State) : Prop where
  length_buf : s.buf.length = secz
  length_lsns : s.lsns.length = secz * 3
  outpos : s.outpos = position (stored image n)
  lsns : ∀ i < n, s.lsns.getD i 0 = entry image i
  out : ∀ i < n, IsData image i → Holds image s.out i

theorem packed_start : Packed image 0 start where
  length_buf := List.length_replicate
  length_lsns := List.length_replicate
  outpos := by
    rw [show stored image 0 = 0 from rfl]
    decide
  lsns _ hi := absurd hi (Nat.not_lt_zero _)
  out _ hi := absurd hi (Nat.not_lt_zero _)

/-- The table with the entry of the next sector. -/
theorem lsns_set {s : State} (hpacked : Packed image n s) (hn : n < secz * 3)
    {t : UInt8} (ht : t = entry image n) :
    ∀ i < n + 1, (s.lsns.set n t).getD i 0 = entry image i := by
  intro i hi
  rw [List.getD_eq_getElem?_getD, List.getElem?_set]
  rcases Nat.lt_or_eq_of_le (Nat.le_of_lt_succ hi) with hlt | rfl
  · rw [if_neg (Nat.ne_of_gt hlt), ← List.getD_eq_getElem?_getD, hpacked.lsns i hlt]
  · rw [if_pos rfl, if_pos (hpacked.length_lsns.symm ▸ hn), Option.getD_some, ht]

/-- A sector that is not stored. -/
theorem packed_skip {s : State} (hn : n < secz * 3) (hpacked : Packed image n s)
    (hbuf : buf.length = secz) (hblank : ¬ IsData image n) {t : UInt8}
    (ht : t = entry image n) :
    Packed image (n + 1) { s with buf := buf, lsns := s.lsns.set n t } := by
  have hsame : stored image (n + 1) = stored image n := by
    rw [stored_succ, if_neg hblank, Nat.add_zero]
  refine ⟨hbuf, ?_, ?_, lsns_set hpacked hn ht, ?_⟩
  · exact List.length_set.trans hpacked.length_lsns
  · rw [hsame]
    exact hpacked.outpos
  · intro i hi hdata
    rcases Nat.lt_or_eq_of_le (Nat.le_of_lt_succ hi) with hlt | rfl
    · exact hpacked.out i hlt hdata
    · exact absurd hdata hblank

/-- The sectors in the file when another one has been stored. -/
theorem holds_save {s : State} (hpacked : Packed image n s) (hdata : IsData image n)
    (hbuf : (sector image n).length = secz) :
    ∀ i < n + 1, IsData image i → Holds image (save s.out (sector image n) s.outpos) i := by
  intro i hi hidata
  rw [hpacked.outpos]
  rcases Nat.lt_or_eq_of_le (Nat.le_of_lt_succ hi) with hlt | rfl
  · have hbelow := position_strictMono (stored_lt_of_isData hidata hlt)
    exact (hpacked.out i hlt hidata).save hbuf (Nat.ne_of_lt hbelow)
  · exact ⟨le_length_save _ hbuf _, sector_save_self _ hbuf _⟩

theorem packed_store {s : State} (hn : n < secz * 3) (hpacked : Packed image n s)
    (hbuf : (sector image n).length = secz) (hdata : IsData image n) :
    Packed image (n + 1)
      (let s' : State :=
        { buf := sector image n
          lsns := s.lsns.set n (.ofNat s.outpos)
          out := save s.out (sector image n) s.outpos
          outpos := s.outpos + 1 }
      if s'.outpos % 64 = 63 then
        { s' with out := save s'.out ones s'.outpos, outpos := s'.outpos + 1 }
      else s') := by
  have hentry : UInt8.ofNat s.outpos = entry image n := by
    rw [entry, if_neg hdata.1, if_neg hdata.2, hpacked.outpos]
  have hlength : (s.lsns.set n (.ofNat s.outpos)).length = secz * 3 :=
    List.length_set.trans hpacked.length_lsns
  have hnext : stored image (n + 1) = stored image n + 1 := by
    rw [stored_succ, if_pos hdata]
  have hholds := holds_save hpacked hdata hbuf
  dsimp only
  split
  · next hlast =>
      refine ⟨hbuf, hlength, ?_, lsns_set hpacked hn hentry, ?_⟩
      · rw [hnext, position_succ, ← hpacked.outpos, if_pos hlast]
      · intro i hi hidata
        refine (hholds i hi hidata).save List.length_replicate fun heq => ?_
        exact position_mod_ne _ (heq ▸ hlast)
  · next hlast =>
      refine ⟨hbuf, hlength, ?_, lsns_set hpacked hn hentry, hholds⟩
      rw [hnext, position_succ, ← hpacked.outpos, if_neg hlast]

theorem packed_pack {s : State} (himage : image.length = 161280) (hn : n < 630)
    (hpacked : Packed image n s) : Packed image (n + 1) (pack image s n) := by
  have hinside : (n + 1) * secz ≤ image.length := by
    rw [himage, secz]
    omega
  have htable : n < secz * 3 := Nat.lt_trans hn (by decide)
  have hbuf := length_sector hinside
  rw [pack, load_eq hinside hpacked.length_buf]
  by_cases hones : sector image n = ones
  · rw [if_pos hones]
    exact packed_skip htable hpacked hbuf (fun hdata => hdata.1 hones)
      (if_pos hones).symm
  · by_cases hzero : sector image n = zero
    · rw [if_neg hones, if_pos hzero]
      refine packed_skip htable hpacked hbuf (fun hdata => hdata.2 hzero) ?_
      rw [entry, if_neg hones, if_pos hzero]
    · rw [if_neg hones, if_neg hzero]
      exact packed_store htable hpacked hbuf ⟨hones, hzero⟩

/-- The packing loop, by induction on how far it has come. -/
theorem packed_packed (himage : image.length = 161280) (hn : n ≤ 630) :
    Packed image n (packed image n) := by
  induction n with
  | zero => exact packed_start
  | succ n ih =>
      rw [packed, List.range_succ, List.foldl_concat]
      exact packed_pack himage hn (ih (Nat.le_of_lt hn))

/-- A byte of a sector is the byte of the file. -/
theorem getD_of_sector {table : List UInt8} {index : ℕ}
    (hsector : sector file sec = pread table (sec * secz) secz) (hindex : index < secz) :
    file.getD (sec * secz + index) 0 = table.getD (sec * secz + index) 0 := by
  have hbyte : (sector file sec)[index]? = (pread table (sec * secz) secz)[index]? := by
    rw [hsector]
  rw [sector, getElem?_pread, getElem?_pread, if_pos hindex, if_pos hindex] at hbyte
  rw [List.getD_eq_getElem?_getD, List.getD_eq_getElem?_getD, hbyte]

theorem length_part {lsns : List UInt8} (hlsns : lsns.length = secz * 3) (place : ℕ)
    (hfrom : place ≤ secz * 2) : (pread lsns place secz).length = secz := by
  refine length_pread_of_le ?_
  rw [hlsns, Nat.mul_succ]
  exact Nat.add_le_add_right hfrom secz

/-- Behind the table nothing changes. -/
theorem sector_saveTable {lsns out : List UInt8} (hlsns : lsns.length = secz * 3)
    (hsec : 3 ≤ sec) (hinside : (sec + 1) * secz ≤ out.length) :
    sector (saveTable lsns out) sec = sector out sec := by
  have hfirst := length_part hlsns 0 (by decide)
  have hsecond := length_part hlsns secz (by decide)
  have hthird := length_part hlsns (secz * 2) (by decide)
  have hinside₁ := Nat.le_trans hinside (length_le_length_save out (pread lsns 0 secz) 0)
  have hinside₂ := Nat.le_trans hinside₁ (length_le_length_save _ (pread lsns secz secz) 1)
  calc sector (saveTable lsns out) sec
      = sector (save (save out (pread lsns 0 secz) 0) (pread lsns secz secz) 1) sec :=
        sector_save_of_ne (by omega) hthird hinside₂
    _ = sector (save out (pread lsns 0 secz) 0) sec :=
        sector_save_of_ne (by omega) hsecond hinside₁
    _ = sector out sec := sector_save_of_ne (by omega) hfirst hinside

/-- The table is read back from the file. -/
theorem getD_saveTable {lsns : List UInt8} (hlsns : lsns.length = secz * 3)
    (out : List UInt8) {index : ℕ} (hindex : index < secz * 3) :
    (saveTable lsns out).getD index 0 = lsns.getD index 0 := by
  have hfirst := length_part hlsns 0 (by decide)
  have hsecond := length_part hlsns secz (by decide)
  have hthird := length_part hlsns (secz * 2) (by decide)
  have hinside₀ := le_length_save out hfirst 0
  have hinside₁ := le_length_save (save out (pread lsns 0 secz) 0) hsecond 1
  have hsectors : ∀ sec < 3, sector (saveTable lsns out) sec =
      pread lsns (sec * secz) secz := by
    intro sec hsec
    match sec, hsec with
    | 0, _ =>
        rw [saveTable, sector_save_of_ne (by decide) hthird
          (Nat.le_trans hinside₀ (length_le_length_save _ _ _)),
          sector_save_of_ne (by decide) hsecond hinside₀, sector_save_self _ hfirst, Nat.zero_mul]
    | 1, _ =>
        rw [saveTable, sector_save_of_ne (by decide) hthird hinside₁,
          sector_save_self _ hsecond, Nat.one_mul]
    | 2, _ => rw [saveTable, sector_save_self _ hthird, Nat.mul_comm]
  have hdiv : index / secz < 3 := Nat.div_lt_of_lt_mul hindex
  have hbyte := getD_of_sector (hsectors _ hdiv) (Nat.mod_lt index (by decide))
  rwa [Nat.div_add_mod'] at hbyte

/-- The ROM has every sector of the disk, and the stored ones are in different places
of the banks, none of them in the last sector of a bank. -/
structure Converted (image rom : List UInt8) (banks : ℕ) : Prop where
  decode_eq : ∀ i < 630, decode rom i = sector image i
  low : ∀ i < 630, IsData image i → 3 ≤ (rom.getD i 0).toNat
  high : ∀ i < 630, IsData image i → (rom.getD i 0).toNat < 64 * banks
  mod_ne : ∀ i < 630, IsData image i → (rom.getD i 0).toNat % 64 ≠ 63
  distinct : ∀ i < 630, ∀ j < 630, IsData image i → IsData image j →
    rom.getD i 0 = rom.getD j 0 → i = j

/-- In an image that fits every place is less than the size of the banks, and a
byte holds it. -/
theorem position_lt {banks : ℕ} (hbanks : banks ≤ 4)
    (hfits : position (stored image 630) ≤ banks * 64) (hi : i < 630)
    (hdata : IsData image i) :
    position (stored image i) < 64 * banks ∧
      (UInt8.ofNat (position (stored image i))).toNat = position (stored image i) := by
  have hbelow := position_strictMono (stored_lt_of_isData hdata hi)
  refine ⟨by omega, ?_⟩
  rw [UInt8.toNat_ofNat']
  exact Nat.mod_eq_of_lt (by omega)

theorem converted {banks : ℕ} (himage : image.length = 161280) (hbanks : banks ≤ 4)
    (hfits : position (stored image 630) ≤ banks * 64) :
    Converted image (saveTable (packed image 630).lsns (packed image 630).out) banks := by
  have hpacked := packed_packed himage (Nat.le_refl 630)
  have hentry : ∀ i < 630,
      (saveTable (packed image 630).lsns (packed image 630).out).getD i 0 = entry image i := by
    intro i hi
    rw [getD_saveTable hpacked.length_lsns _ (Nat.lt_trans hi (by decide)), hpacked.lsns i hi]
  have hplace : ∀ i < 630, IsData image i →
      ((saveTable (packed image 630).lsns (packed image 630).out).getD i 0).toNat =
        position (stored image i) := by
    intro i hi hdata
    rw [hentry i hi, entry, if_neg hdata.1, if_neg hdata.2]
    exact (position_lt hbanks hfits hi hdata).2
  have hlow : ∀ n, 3 ≤ position n := fun n =>
    Nat.le_trans (Nat.le_add_left 3 n) (Nat.le_add_right _ _)
  refine ⟨?_, ?_, ?_, ?_, ?_⟩
  · intro i hi
    by_cases hdata : IsData image i
    · have htoNat := hplace i hi hdata
      have hge := hlow (stored image i)
      obtain ⟨hinside, hsector⟩ := hpacked.out i hi hdata
      rw [decode, if_neg, if_neg, htoNat, sector_saveTable hpacked.length_lsns hge hinside, hsector]
      · intro hone
        rw [← htoNat, hone] at hge
        exact absurd hge (by decide)
      · intro hzero
        rw [← htoNat, hzero] at hge
        exact absurd hge (by decide)
    · rw [decode, hentry i hi, entry]
      by_cases hones : sector image i = ones
      · rw [if_pos hones, hones]
        rfl
      · have hzero : sector image i = zero := by
          by_contra hzero
          exact hdata ⟨hones, hzero⟩
        rw [if_neg hones, if_pos hzero, hzero]
        rfl
  · intro i hi hdata
    rw [hplace i hi hdata]
    exact hlow _
  · intro i hi hdata
    rw [hplace i hi hdata]
    exact (position_lt hbanks hfits hi hdata).1
  · intro i hi hdata
    rw [hplace i hi hdata]
    exact position_mod_ne _
  · intro i hi j hj hidata hjdata heq
    have hsame : position (stored image i) = position (stored image j) := by
      rw [← hplace i hi hidata, ← hplace j hj hjdata, heq]
    by_contra hne
    rcases Nat.lt_or_gt_of_ne hne with hlt | hgt
    · exact Nat.ne_of_lt (position_strictMono (stored_lt_of_isData hidata hlt)) hsame
    · exact Nat.ne_of_gt (position_strictMono (stored_lt_of_isData hjdata hgt)) hsame

/-- An image is converted exactly if the sectors that have to be stored fit into the
banks; else there is no output file. -/
theorem romfs_correct {banks : ℕ} (himage : image.length = 161280) (hone : 1 ≤ banks)
    (hfour : banks ≤ 4) :
    ((romfs banks image).1 = 0 ↔ stored image 630 ≤ 63 * banks - 3) ∧
      (stored image 630 ≤ 63 * banks - 3 →
        ∃ rom, (romfs banks image).2 = some rom ∧ Converted image rom banks) ∧
      (¬ stored image 630 ≤ 63 * banks - 3 → (romfs banks image).2 = none) := by
  have houtpos := (packed_packed himage (Nat.le_refl 630)).outpos
  rw [← position_le_iff _ hone, romfs, houtpos]
  by_cases hfits : position (stored image 630) ≤ banks * 64
  · rw [if_neg (Nat.not_lt.mpr hfits)]
    exact ⟨iff_of_true rfl hfits, fun _ => ⟨_, rfl, converted himage hfour hfits⟩,
      fun hnot => absurd hfits hnot⟩
  · rw [if_pos (Nat.lt_of_not_le hfits)]
    exact ⟨iff_of_false (Nat.succ_ne_zero 0) hfits, fun hle => absurd hle hfits,
      fun _ => rfl⟩

end

/-- A sector of data, a blank one, and zeros. -/
def mixed : List UInt8 :=
  List.replicate 256 1 ++ (List.replicate 256 0xff ++ List.replicate 160768 0)

theorem length_mixed : mixed.length = 161280 := by
  simp only [mixed, List.length_append, List.length_replicate]

theorem not_isData_mixed {i : ℕ} (hfrom : 2 ≤ i) (hi : i < 630) : ¬ IsData mixed i := by
  have hzero : sector mixed i = zero := by
    have hdata : 256 - i * 256 = 0 := by omega
    have hblank : 256 - (i * 256 - 256) = 0 := by omega
    obtain ⟨rest, hrest⟩ : ∃ rest, 160768 - (i * 256 - 256 - 256) = 256 + rest :=
      Nat.exists_eq_add_of_le (by omega)
    rw [sector, pread, mixed, secz, List.drop_append, List.drop_append, List.length_replicate,
      List.length_replicate, List.drop_replicate, List.drop_replicate, List.drop_replicate, hdata,
      hblank, hrest, List.replicate_add, List.replicate_zero, List.replicate_zero, List.nil_append,
      List.nil_append]
    exact List.take_left' List.length_replicate
  exact fun hdata => hdata.2 hzero

theorem stored_mixed_le {n : ℕ} (hn : n ≤ 630) : stored mixed n ≤ 2 := by
  induction n with
  | zero => exact Nat.zero_le 2
  | succ n ih =>
      rcases Nat.lt_or_ge n 2 with hfew | hmany
      · exact (List.length_filter_le _ _).trans (by rw [List.length_range]; exact hfew)
      · rw [stored_succ, if_neg (not_isData_mixed hmany hn)]
        exact ih (Nat.le_of_succ_le hn)

theorem romfs_correct_mixed : ∃ rom, (romfs 1 mixed).2 = some rom ∧ Converted mixed rom 1 :=
  (romfs_correct length_mixed (by decide) (by decide)).2.1
    ((stored_mixed_le (Nat.le_refl 630)).trans (by decide))

end Fip.Decb.Romfs
