import Fip.Lwwire.Server
import Mathlib.Data.Nat.Bitwise

/-!
# The answers to single requests

What the server writes for each request, and what becomes of the images.  The
buffers, in which codes, sectors and sums lie on top of each other, are gone
behind the last section.
-/

namespace Fip.Lwwire

open Fip.ByteFile Fip.Sectors

/-! ## Buffers -/

section Buffers

variable (buf : Buffer) (start count : ℕ)

@[simp]
theorem length_slice : (slice buf start count).length = count := by
  rw [slice, List.length_map, List.length_range]

theorem slice_congr {buf buf' : Buffer} {start count : ℕ}
    (hagree : ∀ i < count, buf (start + i) = buf' (start + i)) :
    slice buf start count = slice buf' start count := by
  apply List.map_congr_left
  intro i hi
  exact hagree i (List.mem_range.mp hi)

theorem slice_add (more : ℕ) :
    slice buf start (count + more) =
      slice buf start count ++ slice buf (start + count) more := by
  rw [slice, List.range_add, List.map_append, List.map_map]
  congr 1
  apply List.map_congr_left
  intro i _
  rw [Function.comp_apply, Nat.add_assoc]

@[simp]
theorem slice_one : slice buf start 1 = [buf start] := rfl

/-- A byte outside the slice. -/
theorem slice_update {place : ℕ} (hplace : place < start ∨ start + count ≤ place)
    (byte : UInt8) :
    slice (Function.update buf place byte) start count = slice buf start count := by
  apply slice_congr
  intro i hi
  apply Function.update_of_ne
  omega

/-- A sector of 256 bytes and its two bytes of sum. -/
theorem slice_sum {buf : Buffer} {cells : List UInt8} (hcells : slice buf 1 256 = cells)
    (hi lo : UInt8) :
    slice (Function.update (Function.update buf 257 hi) 258 lo) 1 258 =
      cells ++ [hi, lo] := by
  have hhi : slice (Function.update (Function.update buf 257 hi) 258 lo) 257 1 = [hi] := by
    rw [slice_update _ _ _ (by omega), slice_one, Function.update_self]
  have hlo : slice (Function.update (Function.update buf 257 hi) 258 lo) 258 1 = [lo] := by
    rw [slice_one, Function.update_self]
  calc slice (Function.update (Function.update buf 257 hi) 258 lo) 1 258
      = slice (Function.update (Function.update buf 257 hi) 258 lo) 1 256 ++
          (slice (Function.update (Function.update buf 257 hi) 258 lo) 257 1 ++
            slice (Function.update (Function.update buf 257 hi) 258 lo) 258 1) := by
        rw [slice_add _ 1 256 2, slice_add _ (1 + 256) 1 1]
    _ = cells ++ [hi, lo] := by
        rw [hhi, hlo, slice_update _ _ _ (by omega), slice_update _ _ _ (by omega), hcells]
        rfl

/-- What was stored is found. -/
theorem slice_write (cells : List UInt8) :
    slice (Memory.write buf start cells) start cells.length = cells := by
  apply List.ext_getElem
  · rw [length_slice]
  · intro i hi hcells
    calc (slice (Memory.write buf start cells) start cells.length)[i]
        = Memory.write buf start cells (start + i) := by
          simp only [slice, List.getElem_map, List.getElem_range]
      _ = cells.getD i 0 := Memory.write_add hcells buf start 0
      _ = cells[i] := List.getD_eq_getElem cells 0 hcells

theorem buffer_apply {cells : List UInt8} {i : ℕ} (hi : i < cells.length) :
    buffer cells i = cells.getD i 0 := by
  rw [buffer, ← Memory.write_add hi (fun _ => 0) 0 0, Nat.zero_add]

/-- What was received is found. -/
theorem slice_buffer (front cells back : List UInt8) :
    slice (buffer (front ++ cells ++ back)) front.length cells.length = cells := by
  apply List.ext_getElem
  · rw [length_slice]
  · intro i hi hcells
    have hplace : front.length + i < (front ++ cells ++ back).length := by
      rw [List.length_append, List.length_append]
      omega
    calc (slice (buffer (front ++ cells ++ back)) front.length cells.length)[i]
        = buffer (front ++ cells ++ back) (0 + (front.length + i)) := by
          simp only [slice, List.getElem_map, List.getElem_range, Nat.zero_add]
      _ = (front ++ cells ++ back).getD (front.length + i) 0 :=
          Memory.write_add hplace _ 0 0
      _ = cells[i] := by
          rw [List.getD_eq_getElem?_getD, List.append_assoc,
            List.getElem?_append_right (Nat.le_add_right _ _), Nat.add_sub_cancel_left,
            List.getElem?_append_left hcells, List.getElem?_eq_getElem hcells,
            Option.getD_some]

end Buffers

/-! ## Numbers of several bytes -/

/-- A sector number as it is sent. -/
structure Lsn where
  hi : UInt8
  mid : UInt8
  lo : UInt8

namespace Lsn

def toNat (lsn : Lsn) : ℕ := lsn.hi.toNat * 65536 + lsn.mid.toNat * 256 + lsn.lo.toNat

def bytes (lsn : Lsn) : List UInt8 := [lsn.hi, lsn.mid, lsn.lo]

theorem toNat_lt (lsn : Lsn) : lsn.toNat < 2 ^ 24 := by
  have hhi := lsn.hi.toNat_lt
  have hmid := lsn.mid.toNat_lt
  have hlo := lsn.lo.toNat_lt
  rw [toNat]
  omega

end Lsn

/-- A byte behind a number. -/
theorem shiftLeft_or (high : ℕ) (low : UInt8) :
    high <<< 8 ||| low.toNat = high * 256 + low.toNat := by
  rw [← Nat.shiftLeft_add_eq_or_of_lt low.toNat_lt, Nat.shiftLeft_eq]

namespace Lsn

/-- The number as `lwwire_proto_read` and the others put it together. -/
def number (lsn : Lsn) : UInt32 :=
  lsn.hi.toUInt32 <<< 16 ||| lsn.mid.toUInt32 <<< 8 ||| lsn.lo.toUInt32

theorem number_toNat (lsn : Lsn) : lsn.number.toNat = lsn.toNat := by
  have hhi := lsn.hi.toNat_lt
  have hmid := lsn.mid.toNat_lt
  have hhigh : lsn.hi.toNat <<< 16 % 2 ^ 32 = lsn.hi.toNat <<< 16 := by
    apply Nat.mod_eq_of_lt
    rw [Nat.shiftLeft_eq]
    omega
  have hmiddle : lsn.mid.toNat <<< 8 % 2 ^ 32 = lsn.mid.toNat <<< 8 := by
    apply Nat.mod_eq_of_lt
    rw [Nat.shiftLeft_eq]
    omega
  calc lsn.number.toNat
      = lsn.hi.toNat <<< 16 % 2 ^ 32 ||| lsn.mid.toNat <<< 8 % 2 ^ 32 ||| lsn.lo.toNat := by
        rw [number, UInt32.toNat_or, UInt32.toNat_or, UInt32.toNat_shiftLeft,
          UInt32.toNat_shiftLeft]
        rfl
    _ = (lsn.hi.toNat <<< 8 ||| lsn.mid.toNat) <<< 8 ||| lsn.lo.toNat := by
        rw [hhigh, hmiddle, Nat.shiftLeft_or_distrib, ← Nat.shiftLeft_add]
    _ = lsn.toNat := by
        rw [shiftLeft_or, shiftLeft_or, toNat]
        omega

/-- The sectors of all numbers lie inside the offsets of 32 bits. -/
theorem offset (lsn : Lsn) : (lsn.number * 256).toNat = lsn.toNat * 256 := by
  have hlt := lsn.toNat_lt
  calc (lsn.number * 256).toNat
      = lsn.toNat * 256 % 2 ^ 32 := by
        rw [UInt32.toNat_mul, number_toNat]
        rfl
    _ = lsn.toNat * 256 := Nat.mod_eq_of_lt (by omega)

end Lsn

/-! ## Sums -/

theorem csum_le (cells : List UInt8) : csum cells ≤ cells.length * 255 := by
  induction cells with
  | nil => exact Nat.le_refl 0
  | cons cell cells ih =>
      have hcell := cell.toNat_lt
      rw [csum, List.map_cons, List.sum_cons, List.length_cons]
      rw [csum] at ih
      omega

/-- The sum of a sector fits into sixteen bits. -/
theorem sum16_toNat (cells : List UInt8) : (sum16 cells).toNat = csum cells % 65536 := by
  induction cells with
  | nil => rfl
  | cons cell cells ih =>
      calc (sum16 (cell :: cells)).toNat
          = (cell.toNat + (sum16 cells).toNat) % 65536 := rfl
        _ = (cell.toNat + csum cells) % 65536 := by rw [ih, Nat.add_mod_mod]
        _ = csum (cell :: cells) % 65536 := rfl

theorem csum_lt {cells : List UInt8} (hlength : cells.length = 256) :
    csum cells < 65536 := by
  have hle := csum_le cells
  omega

/-! ## Files -/

variable (s : Server) (dn : UInt8) (lsn : Lsn)

/-- Either the drive is not ready, or the sector of its image is fetched. -/
theorem fetchSector_spec :
    SameDrives s (fetchSector s dn lsn.number).1 ∧
      ((fetchSector s dn lsn.number).2 = (LWERR_NOTREADY, none) ∨
        (s.drivedata dn).path ≠ none ∧
          (fetchSector s dn lsn.number).2 = (0, some (sector 256 (s.image dn) lsn.toNat))) := by
  have hspec := fetchDriveFp_spec s dn
  rw [fetchSector]
  rcases hfetch : fetchDriveFp s dn with ⟨s', _ | fp⟩
  · rw [hfetch] at hspec
    exact ⟨hspec.1, Or.inl rfl⟩
  · rw [hfetch] at hspec
    have hpath : (s.drivedata dn).path = some fp.path := hspec.2 fp rfl
    have himage : (s'.files fp.path).getD [] = s.image dn := by
      rw [← hspec.1.image dn, image_of_path ((hspec.1.path dn).trans hpath)]
    refine ⟨hspec.1, Or.inr ⟨?_, ?_⟩⟩
    · rw [hpath]
      exact Option.some_ne_none _
    · simp only [himage, lsn.offset]
      rfl

theorem fetchSector_ready (hready : s.Ready dn) : (fetchSector s dn lsn.number).2.1 = 0 := by
  have hsome := fetchDriveFp_ready s dn hready
  rw [fetchSector]
  rcases hfetch : fetchDriveFp s dn with ⟨s', _ | fp⟩
  · rw [hfetch] at hsome
    exact absurd rfl hsome
  · rfl

/-- One sector of one image is stored. -/
structure Stored (s s' : Server) (dn : UInt8) (lsn : ℕ) (data : List UInt8) : Prop where
  path : ∀ dn, (s'.drivedata dn).path = (s.drivedata dn).path
  isconst : ∀ dn, (s'.drivedata dn).isconst = (s.drivedata dn).isconst
  image : s'.image dn = pwrite (s.image dn) (lsn * 256) data
  other : ∀ other, other ≠ dn → s'.image other = s.image other

theorem Stored.sector {s s' : Server} {dn : UInt8} {lsn : ℕ} {data : List UInt8}
    (hstored : Stored s s' dn lsn data) (hdata : data.length = 256) (other : UInt8)
    (number : ℕ) :
    sector 256 (s'.image other) number =
      if dn = other ∧ lsn = number then data else sector 256 (s.image other) number := by
  by_cases hother : other = dn
  · subst hother
    rw [hstored.image]
    by_cases hnumber : lsn = number
    · subst hnumber
      rw [if_pos ⟨rfl, rfl⟩, sector_pwrite_self (by omega) hdata]
    · rw [if_neg fun hsame => hnumber hsame.2,
        sector_pwrite_other (by omega) hdata _ (Ne.symm hnumber)]
  · rw [if_neg fun hsame => hother hsame.1.symm, hstored.other other hother]

/-- Either nothing is stored and the code says so, or the drive can be written. -/
theorem saveSector_spec (hdistinct : s.Distinct) (data : List UInt8) :
    SameDrives s (saveSector s dn lsn.number data).1 ∧
        ((saveSector s dn lsn.number data).2 = LWERR_WRITE ∨
          (saveSector s dn lsn.number data).2 = LWERR_NOTREADY) ∨
      ((s.drivedata dn).isconst = false ∧ (s.drivedata dn).path ≠ none) ∧
        Stored s (saveSector s dn lsn.number data).1 dn lsn.toNat data ∧
          (saveSector s dn lsn.number data).2 = 0 := by
  have hspec := fetchDriveFp_spec s dn
  rw [saveSector]
  by_cases hconst : (s.drivedata dn).isconst
  · rw [if_pos hconst]
    exact Or.inl ⟨SameDrives.refl s, Or.inl rfl⟩
  rw [if_neg hconst]
  rcases hfetch : fetchDriveFp s dn with ⟨s', _ | fp⟩
  · rw [hfetch] at hspec
    exact Or.inl ⟨hspec.1, Or.inr rfl⟩
  rw [hfetch] at hspec
  have hpath : (s.drivedata dn).path = some fp.path := hspec.2 fp rfl
  have hpath' : (s'.drivedata dn).path = some fp.path := (hspec.1.path dn).trans hpath
  have himage : (s'.files fp.path).getD [] = s.image dn := by
    rw [← hspec.1.image dn, image_of_path hpath']
  have hconst' : ¬(s'.drivedata dn).isconst := by
    rw [hspec.1.isconst dn]
    exact hconst
  dsimp only
  rw [if_neg hconst', himage, lsn.offset]
  refine Or.inr ⟨⟨Bool.eq_false_iff.mpr hconst, ?_⟩, ⟨hspec.1.path, hspec.1.isconst, ?_, ?_⟩, rfl⟩
  · rw [hpath]
    exact Option.some_ne_none _
  · exact setFile_image _ hpath'
  · intro other hother
    have hname : (s'.drivedata other).path ≠ some fp.path := fun hname =>
      hother (hdistinct other dn fp.path ((hspec.1.path other).symm.trans hname) hpath)
    exact (setFile_image_other _ hname).trans (hspec.1.image other)

/-! ## Conversations -/

open Dialogue (run)

/-- An operation that waits for a request goes on with it. -/
theorem run_main {s : Server} {op : UInt8} {count : ℕ}
    {next : List UInt8 → Dialogue UInt8 Server}
    (hop : operation s [op] = .read (count + 1) next) {request : List UInt8}
    (hlength : request.length = count + 1) :
    run main (.done s) (op :: request) = (next request).settle := by
  have hmain : main s = .read 1 (operation s) := rfl
  have hsettle : (operation s [op]).settle = ([], .read (count + 1) next) := by
    rw [hop]
    rfl
  calc run main (.done s) ([op] ++ request)
      = ((operation s [op]).settle.1 ++ (run main (operation s [op]).settle.2 request).1,
          (run main (operation s [op]).settle.2 request).2) :=
        Dialogue.run_done_append main hmain rfl request
    _ = (next request).settle := by
        rw [hsettle, List.nil_append, Dialogue.run_read main next hlength]

/-- The sum of a sector as it is sent, high byte first. -/
def sumBytes (cells : List UInt8) : List UInt8 :=
  [(sum16 cells >>> 8 &&& 0xff).toUInt8, (sum16 cells &&& 0xff).toUInt8]

/-- A code is sent as it was put into the buffer. -/
theorem settle_code (buf : Buffer) (code : UInt8) :
    (Dialogue.write (slice (Function.update buf 0 code) 0 1) (.done s)).settle =
      ([code], .done s) := by
  rw [slice_one, Function.update_self]
  rfl

theorem buffer_drive (back : List UInt8) : buffer (dn :: back) 0 = dn :=
  buffer_apply (Nat.zero_lt_succ _)

theorem lsnOf_buffer (back : List UInt8) :
    lsnOf (buffer (dn :: (lsn.bytes ++ back))) = lsn.number := by
  have hlength : (dn :: (lsn.bytes ++ back)).length = back.length + 4 := by
    simp [Lsn.bytes]
  have hbyte : ∀ i < 4, buffer (dn :: (lsn.bytes ++ back)) i =
      (dn :: (lsn.bytes ++ back)).getD i 0 := fun i hi =>
    buffer_apply (by omega)
  rw [lsnOf, hbyte 1 (by omega), hbyte 2 (by omega), hbyte 3 (by omega)]
  rfl

/-- READ: a code, and the sector with its sum if the code is zero. -/
theorem run_read {op : UInt8} (hop : op = 0x52 ∨ op = 0x72) :
    ∃ s', SameDrives s s' ∧
      (run main (.done s) (op :: dn :: lsn.bytes) =
          ([UInt8.ofNat LWERR_NOTREADY], .done s') ∨
        run main (.done s) (op :: dn :: lsn.bytes) =
          (0 :: (sector 256 (s.image dn) lsn.toNat ++
            sumBytes (sector 256 (s.image dn) lsn.toNat)), .done s')) := by
  have hoperation : operation s [op] = protoRead s := by
    rcases hop with rfl | rfl <;> rfl
  have hlsn : lsnOf (buffer (dn :: lsn.bytes)) = lsn.number := lsnOf_buffer dn lsn []
  obtain ⟨hsame, hfetch⟩ := fetchSector_spec s dn lsn
  refine ⟨_, hsame, ?_⟩
  rw [run_main hoperation rfl]
  simp only [buffer_drive, hlsn]
  rcases hfetch with hnone | ⟨-, hsome⟩
  · left
    have hpair : fetchSector s dn lsn.number =
        ((fetchSector s dn lsn.number).1, LWERR_NOTREADY, none) := Prod.ext rfl hnone
    rw [hpair]
    exact settle_code _ _ _
  · right
    have hpair : fetchSector s dn lsn.number = ((fetchSector s dn lsn.number).1, 0,
        some (sector 256 (s.image dn) lsn.toNat)) := Prod.ext rfl hsome
    have hcells := slice_write (buffer (dn :: lsn.bytes)) 1
      (sector 256 (s.image dn) lsn.toNat)
    rw [length_sector] at hcells
    have hcode : slice (Function.update (Memory.write (buffer (dn :: lsn.bytes)) 1
        (sector 256 (s.image dn) lsn.toNat)) 0 (UInt8.ofNat 0)) 1 256 =
          sector 256 (s.image dn) lsn.toNat := by
      rw [slice_update _ _ _ (by omega), hcells]
    rw [hpair]
    simp only [fill, ne_eq, not_true_eq_false, if_false, hcode, slice_sum hcode, slice_one,
      Function.update_self, Dialogue.settle_write, Dialogue.settle_done, List.append_nil,
      List.singleton_append]
    rfl

/-- The sector a READEX is answered with; zeros if it could not be fetched. -/
def readexSector : List UInt8 :=
  (fetchSector s dn lsn.number).2.2.getD (List.replicate 256 0)

/-- READEX, up to the sum of the client. -/
theorem run_readex {op : UInt8} (hop : op = 0xD2 ∨ op = 0xF2) :
    ∃ buf, run main (.done s) (op :: dn :: lsn.bytes) =
      (readexSector s dn lsn,
        readexStatus (fetchSector s dn lsn.number).1 (fetchSector s dn lsn.number).2.1
          (csum (readexSector s dn lsn)) buf) := by
  have hoperation : operation s [op] = protoReadex s := by
    rcases hop with rfl | rfl <;> rfl
  have hlsn : lsnOf (buffer (dn :: lsn.bytes)) = lsn.number := lsnOf_buffer dn lsn []
  have hsettle : ∀ (cells : List UInt8) (s : Server) (ec sum : ℕ) (buf : Buffer),
      (Dialogue.write cells (readexStatus s ec sum buf)).settle =
        (cells, readexStatus s ec sum buf) := by
    intro cells s ec sum buf
    rw [Dialogue.settle_write, readexStatus, Dialogue.settle, List.append_nil]
  have hspec := (fetchSector_spec s dn lsn).2
  rw [run_main hoperation rfl, readexSector]
  simp only [buffer_drive, hlsn, hsettle]
  generalize fetchSector s dn lsn.number = fetched at hspec
  obtain ⟨s', ec, cells⟩ := fetched
  rcases hspec with hnone | ⟨-, hsome⟩
  · obtain ⟨hec, hcells⟩ := Prod.mk.inj hnone
    subst hec hcells
    have hzeros := slice_write (buffer (dn :: lsn.bytes)) 0 (List.replicate 256 0)
    have hfailed : LWERR_NOTREADY ≠ 0 := by decide
    rw [List.length_replicate] at hzeros
    refine ⟨Memory.write (buffer (dn :: lsn.bytes)) 0 (List.replicate 256 0), ?_⟩
    simp only [if_pos hfailed, fill, hzeros, Option.getD_none]
  · obtain ⟨hec, hcells⟩ := Prod.mk.inj hsome
    subst hec hcells
    have hcells := slice_write (buffer (dn :: lsn.bytes)) 0
      (sector 256 (s.image dn) lsn.toNat)
    rw [length_sector] at hcells
    refine ⟨Memory.write (buffer (dn :: lsn.bytes)) 0 (sector 256 (s.image dn) lsn.toNat), ?_⟩
    rw [Option.getD_some]
    simp only [ne_eq, not_true_eq_false, if_false, fill]
    rw [hcells]

theorem length_readexSector : (readexSector s dn lsn).length = 256 := by
  rw [readexSector]
  rcases (fetchSector_spec s dn lsn).2 with hnone | ⟨-, hsome⟩
  · rw [hnone, Option.getD_none, List.length_replicate]
  · rw [hsome, Option.getD_some, length_sector]

/-- The code behind the sector of a READEX. -/
def readexCode (hi lo : UInt8) : UInt8 :=
  UInt8.ofNat
    (if hi.toNat * 256 + lo.toNat = csum (readexSector s dn lsn) then
      (fetchSector s dn lsn.number).2.1
    else LWERR_CHECKSUM)

variable {s dn lsn}

/-- There is no error exactly if the sum is right and the sector was fetched. -/
theorem readexCode_eq_zero {hi lo : UInt8} :
    readexCode s dn lsn hi lo = 0 ↔
      hi.toNat * 256 + lo.toNat = csum (readexSector s dn lsn) ∧
        (fetchSector s dn lsn.number).2.1 = 0 := by
  rw [readexCode]
  by_cases hsum : hi.toNat * 256 + lo.toNat = csum (readexSector s dn lsn)
  · rw [if_pos hsum]
    rcases (fetchSector_spec s dn lsn).2 with hnone | ⟨-, hsome⟩
    · rw [hnone]
      exact iff_of_false (by decide) fun hzero => absurd hzero.2 (by decide)
    · rw [hsome]
      exact iff_of_true rfl ⟨hsum, rfl⟩
  · rw [if_neg hsum]
    exact iff_of_false (by decide) fun hzero => hsum hzero.1

theorem readexSector_of_code (hcode : (fetchSector s dn lsn.number).2.1 = 0) :
    readexSector s dn lsn = sector 256 (s.image dn) lsn.toNat := by
  rcases (fetchSector_spec s dn lsn).2 with hnone | ⟨-, hsome⟩
  · rw [hnone] at hcode
    exact absurd hcode (by decide)
  · rw [readexSector, hsome, Option.getD_some]

variable (s dn lsn)

theorem run_readexStatus (ec sum : ℕ) (buf : Buffer) (hi lo : UInt8) :
    run main (readexStatus s ec sum buf) [hi, lo] =
      ([UInt8.ofNat (if hi.toNat * 256 + lo.toNat = sum then ec else LWERR_CHECKSUM)],
        .done s) := by
  have hlength : [hi, lo].length = 1 + 1 := rfl
  have hhi : Memory.write buf 0 [hi, lo] 0 = hi := rfl
  have hlo : Memory.write buf 0 [hi, lo] 1 = lo := rfl
  rw [readexStatus, Dialogue.run_read main _ hlength]
  simp only [hhi, hlo, shiftLeft_or, settle_code, ne_eq, ite_not]

/-- WRITE: the code only. -/
theorem run_write {op : UInt8} (hop : op = 0x57 ∨ op = 0x77) {data : List UInt8}
    (hdata : data.length = 256) (hi lo : UInt8) :
    run main (.done s) (op :: dn :: (lsn.bytes ++ (data ++ [hi, lo]))) =
      if csum data % 65536 = hi.toNat * 256 + lo.toNat then
        ([UInt8.ofNat (saveSector s dn lsn.number data).2],
          .done (saveSector s dn lsn.number data).1)
      else ([UInt8.ofNat LWERR_CHECKSUM], .done s) := by
  have hoperation : operation s [op] = protoWrite s := by
    rcases hop with rfl | rfl <;> rfl
  have hlength : (dn :: (lsn.bytes ++ (data ++ [hi, lo]))).length = 261 + 1 := by
    rw [List.length_cons, List.length_append, List.length_append, hdata]
    rfl
  have hslice : slice (buffer (dn :: (lsn.bytes ++ (data ++ [hi, lo])))) 4 256 = data := by
    have h := slice_buffer (dn :: lsn.bytes) data [hi, lo]
    rw [hdata, List.append_assoc] at h
    exact h
  have hbytes : slice (buffer (dn :: (lsn.bytes ++ (data ++ [hi, lo])))) 260 2 =
      [hi, lo] := by
    have h := slice_buffer (dn :: (lsn.bytes ++ data)) [hi, lo] []
    rw [List.append_nil, List.length_cons, List.length_append, hdata, List.cons_append,
      List.append_assoc] at h
    exact h
  rw [slice_add _ 260 1 1, slice_one, slice_one, List.singleton_append] at hbytes
  simp only [List.cons.injEq, and_true] at hbytes
  rw [run_main hoperation hlength]
  simp only [buffer_drive, lsnOf_buffer, hslice, hbytes, shiftLeft_or, sum16_toNat]
  by_cases hsum : csum data % 65536 = hi.toNat * 256 + lo.toNat
  · rw [if_neg (fun hne => hne hsum), if_pos hsum]
    exact settle_code _ _ _
  · rw [if_pos hsum, if_neg hsum]
    exact settle_code _ _ _

/-- A server with an image of three bytes in drive 1. -/
def threeBytes : Server where
  drivedata := fun dn =>
    { path := if dn = 1 then some "disk" else none
      fp := none
      isconst := false
      fp_path := fun _ hnone => nomatch hnone }
  files := fun path => if path = "disk" then some [1, 2, 3] else none
  clock := fun _ => []
  log := []

end Fip.Lwwire
