import Fip.Core.Bits
import Fip.Lwwire.Requests

/-!
# The DriveWire client of the booter

`dw.c` reads a block of 512 bytes as two sectors of the lwwire server.  Each is
a request, the sector, its sum as the client computed it, and a status byte.
The line may alter the bytes of sectors; requests and status bytes arrive as
they were sent.
-/

namespace Fip.Booter.DriveWire

open Fip.Lwwire Fip.Sectors
open Dialogue (run)

/-- What is left by `DWRead` of `rz` bytes: the bytes it stored, in Y their sum if all of
them came, and the condition codes, with Z (4) if they did and C (1) on a framing error. -/
structure DWRead (rz : ℕ) where
  stored : List UInt8
  y : UInt16
  cc : UInt8
  sum : cc &&& 4 = 4 → y = sum16 stored
  full : cc &&& 4 = 4 → stored.length = rz

/-- The bytes as they were sent; without the last of them `DWRead` times out. -/
def intact (rz : ℕ) (sent : List UInt8) : DWRead rz where
  stored := sent.take rz
  y := sum16 (sent.take rz)
  cc := if rz ≤ sent.length then 4 else 0
  sum := fun _ => rfl
  full := by
    intro hz
    by_cases hlength : rz ≤ sent.length
    · rw [List.length_take, Nat.min_eq_left hlength]
    · rw [if_neg hlength] at hz
      exact absurd hz (by decide)

theorem intact_byte (byte : UInt8) :
    (intact 1 [byte]).stored = [byte] ∧ (intact 1 [byte]).cc &&& 5 = 4 := by
  have hcc : (intact 1 [byte]).cc = 4 := by simp [intact]
  rw [hcc]
  exact ⟨rfl, rfl⟩

/-- A line that delivers sectors whole. -/
def Intact (line : List UInt8 → DWRead 256) : Prop :=
  ∀ sent, sent.length = 256 → (line sent).stored = sent ∧ (line sent).cc &&& 5 = 4

/-- The client and the server, and what the client has sent. -/
structure World where
  server : Dialogue UInt8 Server
  sent : List UInt8
  b2 : Buffer
  dw_cksum : UInt16
  mem : ℕ → UInt8

/-- A word as the processor stores it. -/
def wordBytes (word : UInt16) : List UInt8 := [(word >>> 8).toUInt8, word.toUInt8]

/-- `_dw_trans`: the error bits, and the bytes that were stored at `r`. -/
def dwTrans {rz : ℕ} (line : List UInt8 → DWRead rz) (w : World) (s : List UInt8) :
    UInt16 × List UInt8 × World :=
  let (reply, server) := run main w.server s
  let r := line reply
  let b := ((r.cc &&& ~~~0x50) ^^^ 4) &&& 5
  (b.toUInt16, r.stored, { w with server := server, sent := w.sent ++ s, dw_cksum := r.y })

def dwInit (line : List UInt8 → DWRead 1) (w : World) (driveNo : UInt8) : UInt16 × World :=
  let w := { w with b2 := Function.update w.b2 1 driveNo }
  let (ret, _, w) := dwTrans line w [0x5a, 0x00]
  (ret, w)

def read (line : List UInt8 → DWRead 256) (w : World) (b : ℕ) (blk : UInt32) :
    UInt16 × World :=
  let b2 := Function.update w.b2 4 (blk &&& 0xff).toUInt8
  let blk := blk >>> 8
  let b2 := Function.update b2 3 (blk &&& 0xff).toUInt8
  let blk := blk >>> 8
  let b2 := Function.update b2 2 blk.toUInt8
  let (ret, cells, w) := dwTrans line { w with b2 := b2 } (slice b2 0 5)
  let w := { w with mem := Memory.write w.mem b cells }
  let (code, cells, w) := dwTrans (intact 1) w (wordBytes w.dw_cksum)
  let w := { w with b2 := Memory.write w.b2 4 cells }
  -- A plain `char` is signed here.
  (ret ||| code ||| (w.b2 4).toInt8.toInt16.toUInt16, w)

def dwRead (first second : List UInt8 → DWRead 256) (w : World) (b : ℕ) (blk : UInt32) :
    UInt16 × World :=
  if blk &&& 0xff800000 ≠ 0 then (0xFFFF, w)
  else
    let blk := blk * 2
    let (ret, w) := read first w b blk
    if ret ≠ 0 then (0xFFFF, w)
    else read second w (b + 256) (blk + 1)

/-! ## Numbers -/

/-- The sector number that `read` puts into its request. -/
def lsnOf (blk : UInt32) : Lsn :=
  ⟨(blk >>> 8 >>> 8).toUInt8, (blk >>> 8 &&& 0xff).toUInt8, (blk &&& 0xff).toUInt8⟩

theorem and_255 (number : ℕ) : number &&& 255 = number % 256 :=
  Nat.and_two_pow_sub_one_eq_mod number 8

theorem lsnOf_toNat {blk : UInt32} (hblk : blk.toNat < 2 ^ 24) :
    (lsnOf blk).toNat = blk.toNat := by
  have hhi : (blk >>> 8 >>> 8).toUInt8.toNat = blk.toNat / 65536 := by
    simp [UInt32.toNat_shiftRight, Nat.shiftRight_eq_div_pow]
    omega
  have hmid : (blk >>> 8 &&& 0xff).toUInt8.toNat = blk.toNat / 256 % 256 := by
    simp [UInt32.toNat_shiftRight, Nat.shiftRight_eq_div_pow, and_255]
  have hlo : (blk &&& 0xff).toUInt8.toNat = blk.toNat % 256 := by
    simp [and_255]
  rw [lsnOf, Lsn.toNat, hhi, hmid, hlo]
  omega

theorem wordBytes_toNat (word : UInt16) :
    (word >>> 8).toUInt8.toNat * 256 + word.toUInt8.toNat = word.toNat := by
  have hlt := word.toNat_lt
  have hhi : (word >>> 8).toUInt8.toNat = word.toNat / 256 := by
    simp [UInt16.toNat_shiftRight, Nat.shiftRight_eq_div_pow]
    omega
  have hlo : word.toUInt8.toNat = word.toNat % 256 := UInt16.toNat_toUInt8 word
  rw [hhi, hlo]
  omega

/-- The mask of `dw_read` leaves 23 bits for the number of a block. -/
theorem large_iff (blk : UInt32) : blk &&& 0xff800000 ≠ 0 ↔ 2 ^ 23 ≤ blk.toNat := by
  have hmask : blk.toNat &&& (2 ^ 9 - 1) <<< 23 = 0 ↔ blk.toNat < 2 ^ 23 :=
    Bits.and_mask_eq_zero_iff blk.toNat_lt
  have hzero : blk &&& 0xff800000 = 0 ↔ blk.toNat &&& 0xff800000 = 0 := by
    rw [← UInt32.toNat_inj, UInt32.toNat_and]
    rfl
  rw [ne_eq, hzero, ← Nat.not_lt]
  exact not_congr hmask

/-! ## One sector -/

/-- Between two calls: the server `s` waits for a request, and `dw_init` has been called
for the drive. -/
structure Attached (w : World) (s : Server) (drive : UInt8) : Prop where
  server : w.server = .done s
  opcode : w.b2 0 = 0xd2
  drive : w.b2 1 = drive

/-- What the server sends for a sector of the drive. -/
def sectorSent (s : Server) (drive : UInt8) (lsn : Lsn) : List UInt8 :=
  (run main (.done s) (0xd2 :: drive :: lsn.bytes)).1

theorem sectorSent_eq (s : Server) (drive : UInt8) (lsn : Lsn) :
    sectorSent s drive lsn = readexSector s drive lsn := by
  obtain ⟨buf, hrun⟩ := run_readex s drive lsn (Or.inl rfl)
  rw [sectorSent, hrun]

/-- All bytes came, the sums agree, and the server had the sector. -/
def Good (line : List UInt8 → DWRead 256) (s : Server) (drive : UInt8) (lsn : Lsn) : Prop :=
  (line (sectorSent s drive lsn)).cc &&& 5 = 4 ∧
    sum16 (line (sectorSent s drive lsn)).stored = sum16 (sectorSent s drive lsn) ∧
      (fetchSector s drive lsn.number).2.1 = 0

/-- `dw_trans` returns zero exactly if Z is set and C is not. -/
theorem errorBits_eq_zero (cc : UInt8) :
    (((cc &&& ~~~0x50) ^^^ 4) &&& 5).toUInt16 = 0 ↔ cc &&& 5 = 4 := by
  have hbits : ∀ cc : BitVec 8, (((cc &&& ~~~0x50#8) ^^^ 4#8) &&& 5#8).setWidth 16 = 0#16 ↔
      cc &&& 5#8 = 4#8 := by decide
  rw [← UInt16.toBitVec_inj, ← UInt8.toBitVec_inj]
  exact hbits cc.toBitVec

/-- Z is set where `dw_trans` returns zero. -/
theorem and_four {cc : UInt8} (hcc : cc &&& 5 = 4) : cc &&& 4 = 4 := by
  have hbits : ∀ cc : BitVec 8, cc &&& 5#8 = 4#8 → cc &&& 4#8 = 4#8 := by decide
  rw [← UInt8.toBitVec_inj] at hcc ⊢
  exact hbits cc.toBitVec hcc

/-- The sign of a status does not make it zero. -/
theorem signed_eq_zero (status : UInt8) :
    status.toInt8.toInt16.toUInt16 = 0 ↔ status = 0 := by
  have hbits : ∀ status : BitVec 8, status.signExtend 16 = 0#16 ↔ status = 0#8 := by decide
  rw [← UInt16.toBitVec_inj, ← UInt8.toBitVec_inj]
  exact hbits status.toBitVec

/-- The status is zero exactly if the client has computed the sum of what was sent. -/
theorem status_eq_zero (s : Server) (drive : UInt8) (lsn : Lsn) (word : UInt16) :
    readexCode s drive lsn (word >>> 8).toUInt8 word.toUInt8 = 0 ↔
      word = sum16 (readexSector s drive lsn) ∧ (fetchSector s drive lsn.number).2.1 = 0 := by
  have hlt : csum (readexSector s drive lsn) < 65536 :=
    csum_lt (length_readexSector s drive lsn)
  rw [readexCode_eq_zero, wordBytes_toNat, ← UInt16.toNat_inj, sum16_toNat,
    Nat.mod_eq_of_lt hlt]

/-- `dw_init` attaches the client to a drive of a server that waits for requests. -/
theorem dwInit_attached {w : World} {s : Server} (hserver : w.server = .done s)
    (hopcode : w.b2 0 = 0xd2) (line : List UInt8 → DWRead 1) (driveNo : UInt8) :
    Attached (dwInit line w driveNo).2 s driveNo := by
  have hop : operation s [0x5a] = .read (0 + 1) fun _ => .write [0x80] (.done s) := rfl
  have hrun : run main (.done s) [0x5a, 0x00] = ([0x80], .done s) := run_main hop rfl
  have hdrive : Function.update w.b2 1 driveNo 0 = 0xd2 :=
    (Function.update_of_ne Nat.zero_ne_one driveNo w.b2).trans hopcode
  simp only [dwInit, dwTrans, hserver, hrun]
  exact ⟨rfl, hdrive, Function.update_self 1 driveNo w.b2⟩

/-- One sector: what is returned, and what is left behind. -/
theorem read_spec {w : World} {s : Server} {drive : UInt8} (hw : Attached w s drive)
    (line : List UInt8 → DWRead 256) (b : ℕ) (blk : UInt32) :
    ((read line w b blk).1 = 0 ↔ Good line s drive (lsnOf blk)) ∧
      Attached (read line w b blk).2 (fetchSector s drive (lsnOf blk).number).1 drive ∧
      (read line w b blk).2.mem =
        Memory.write w.mem b (line (sectorSent s drive (lsnOf blk))).stored := by
  have hb2 : slice (Function.update (Function.update (Function.update w.b2 4
      (blk &&& 0xff).toUInt8) 3 (blk >>> 8 &&& 0xff).toUInt8) 2 (blk >>> 8 >>> 8).toUInt8)
        0 5 = 0xd2 :: drive :: (lsnOf blk).bytes := by
    rw [← hw.opcode, ← hw.drive]
    rfl
  obtain ⟨buf, hrun⟩ := run_readex s drive (lsnOf blk) (Or.inl rfl)
  have hstatus : ∀ hi lo, run main (readexStatus (fetchSector s drive (lsnOf blk).number).1
      (fetchSector s drive (lsnOf blk).number).2.1 (csum (readexSector s drive (lsnOf blk)))
        buf) [hi, lo] = ([readexCode s drive (lsnOf blk) hi lo],
          .done (fetchSector s drive (lsnOf blk).number).1) := fun hi lo =>
    run_readexStatus _ _ _ buf hi lo
  rw [Good, sectorSent_eq]
  simp only [read, dwTrans, hb2, hw.server, hrun, wordBytes, hstatus, intact_byte,
    UInt16.or_eq_zero_iff, errorBits_eq_zero, and_true]
  refine ⟨?_, ⟨rfl, hw.opcode, hw.drive⟩⟩
  have hcode : ∀ (mem : Buffer) (code : UInt8), Memory.write mem 4 [code] 4 = code :=
    fun mem code => by rw [Memory.write, Memory.write, Function.update_self]
  rw [hcode, signed_eq_zero, status_eq_zero]
  exact and_congr_right fun hcc => by rw [(line _).sum (and_four hcc)]

/-! ## One block -/

theorem slice_halves (mem : ℕ → UInt8) (b : ℕ) {front back : List UInt8}
    (hfront : front.length = 256) (hback : back.length = 256) :
    slice (Memory.write (Memory.write mem b front) (b + 256) back) b 512 = front ++ back := by
  have hfirst := slice_write mem b front
  have hsecond := slice_write (Memory.write mem b front) (b + 256) back
  rw [hfront] at hfirst
  rw [hback] at hsecond
  have hframe : slice (Memory.write (Memory.write mem b front) (b + 256) back) b 256 =
      slice (Memory.write mem b front) b 256 :=
    slice_congr fun i hi => Memory.write_of_lt (by omega) _ _
  rw [slice_add _ b 256 256, hframe, hfirst, hsecond]

section Block

variable {w : World} {s : Server} {drive : UInt8} (hw : Attached w s drive)
  (first second : List UInt8 → DWRead 256) (b : ℕ) {blk : UInt32}

/-- The server between the two halves of a block. -/
def between (s : Server) (drive : UInt8) (blk : UInt32) : Server :=
  (fetchSector s drive (lsnOf (blk * 2)).number).1

theorem dwRead_of_large (hblk : 2 ^ 23 ≤ blk.toNat) :
    dwRead first second w b blk = (0xFFFF, w) := by
  rw [dwRead, if_pos ((large_iff blk).mpr hblk)]

include hw

/-- Both halves have to be good. -/
theorem dwRead_eq_zero_iff (hblk : blk.toNat < 2 ^ 23) :
    (dwRead first second w b blk).1 = 0 ↔
      Good first s drive (lsnOf (blk * 2)) ∧
        Good second (between s drive blk) drive (lsnOf (blk * 2 + 1)) := by
  have hsmall : ¬blk &&& 0xff800000 ≠ 0 := fun hlarge =>
    absurd ((large_iff blk).mp hlarge) (Nat.not_le_of_lt hblk)
  obtain ⟨hfirst, hattached, -⟩ := read_spec hw first b (blk * 2)
  obtain ⟨hsecond, -, -⟩ := read_spec hattached second (b + 256) (blk * 2 + 1)
  rw [dwRead, if_neg hsmall]
  by_cases hgood : (read first w b (blk * 2)).1 = 0
  · simp only [hgood, ne_eq, not_true_eq_false, if_false]
    exact hsecond.trans (and_iff_right (hfirst.mp hgood)).symm
  · simp only [ne_eq, hgood, not_false_eq_true, if_true]
    exact iff_of_false (by decide) fun hgoods => hgood (hfirst.mpr hgoods.1)

/-- The halves lie one behind the other. -/
theorem dwRead_mem (hblk : blk.toNat < 2 ^ 23) (hgood : Good first s drive (lsnOf (blk * 2))) :
    (dwRead first second w b blk).2.mem =
      Memory.write
        (Memory.write w.mem b (first (sectorSent s drive (lsnOf (blk * 2)))).stored)
        (b + 256)
        (second (sectorSent (between s drive blk) drive (lsnOf (blk * 2 + 1)))).stored := by
  have hsmall : ¬blk &&& 0xff800000 ≠ 0 := fun hlarge =>
    absurd ((large_iff blk).mp hlarge) (Nat.not_le_of_lt hblk)
  obtain ⟨hfirst, hattached, hmem⟩ := read_spec hw first b (blk * 2)
  obtain ⟨-, -, hmem'⟩ := read_spec hattached second (b + 256) (blk * 2 + 1)
  rw [dwRead, if_neg hsmall]
  simp only [hfirst.mpr hgood, ne_eq, not_true_eq_false, if_false]
  rw [hmem', hmem]
  rfl

omit hw in
/-- On a line that alters nothing a drive that is ready is good. -/
theorem good_of_intact {line : List UInt8 → DWRead 256} (hline : Intact line)
    (hready : s.Ready drive) (lsn : Lsn) :
    Good line s drive lsn ∧
      (line (sectorSent s drive lsn)).stored = sector 256 (s.image drive) lsn.toNat := by
  have hcode : (fetchSector s drive lsn.number).2.1 = 0 :=
    fetchSector_ready s drive lsn hready
  obtain ⟨hstored, hcc⟩ := hline (readexSector s drive lsn)
    (length_readexSector s drive lsn)
  rw [Good, sectorSent_eq, hstored]
  exact ⟨⟨hcc, rfl, hcode⟩, readexSector_of_code hcode⟩

/-- A block that is read: the two sectors of the image, with zeros past its end. -/
theorem dwRead_intact (hblk : blk.toNat < 2 ^ 23) (hready : s.Ready drive)
    (hfirst : Intact first) (hsecond : Intact second) :
    (dwRead first second w b blk).1 = 0 ∧
      slice (dwRead first second w b blk).2.mem b 512 =
        sector 512 (s.image drive) blk.toNat := by
  have hsame : SameDrives s (between s drive blk) :=
    (fetchSector_spec s drive (lsnOf (blk * 2))).1
  have hdouble : (blk * 2).toNat = 2 * blk.toNat := by
    calc (blk * 2).toNat
        = blk.toNat * 2 % 2 ^ 32 := UInt32.toNat_mul blk 2
      _ = 2 * blk.toNat := by omega
  have hnext : (blk * 2 + 1).toNat = 2 * blk.toNat + 1 := by
    calc (blk * 2 + 1).toNat
        = ((blk * 2).toNat + 1) % 2 ^ 32 := UInt32.toNat_add (blk * 2) 1
      _ = 2 * blk.toNat + 1 := by omega
  have heven : (lsnOf (blk * 2)).toNat = 2 * blk.toNat :=
    (lsnOf_toNat (by omega)).trans hdouble
  have hodd : (lsnOf (blk * 2 + 1)).toNat = 2 * blk.toNat + 1 :=
    (lsnOf_toNat (by omega)).trans hnext
  obtain ⟨hgood, hstored⟩ := good_of_intact hfirst hready (lsnOf (blk * 2))
  obtain ⟨hgood', hstored'⟩ := good_of_intact hsecond (hsame.ready s drive hready)
    (lsnOf (blk * 2 + 1))
  refine ⟨(dwRead_eq_zero_iff hw first second b hblk).mpr ⟨hgood, hgood'⟩, ?_⟩
  rw [dwRead_mem hw first second b hblk hgood, hstored, hstored', heven, hodd, hsame.image]
  exact slice_halves w.mem b (length_sector 256 _ _) (length_sector 256 _ _) |>.trans
    (sector_double 256 (s.image drive) blk.toNat).symm

end Block

/-- The client and the server agree.  A block number that does not fit is refused and
nothing is sent; on a line that alters nothing a drive that is ready is read; and
whatever the line does to the sectors, zero is returned only if both halves came with
the sum that was sent and without an error of the server. -/
theorem dw_read_agrees {w : World} {s : Server} {drive : UInt8} (hw : Attached w s drive)
    (first second : List UInt8 → DWRead 256) (b : ℕ) (blk : UInt32) :
    (2 ^ 23 ≤ blk.toNat → dwRead first second w b blk = (0xFFFF, w)) ∧
      (blk.toNat < 2 ^ 23 → s.Ready drive → Intact first → Intact second →
        (dwRead first second w b blk).1 = 0 ∧
          slice (dwRead first second w b blk).2.mem b 512 =
            sector 512 (s.image drive) blk.toNat) ∧
      ((dwRead first second w b blk).1 = 0 →
        Good first s drive (lsnOf (blk * 2)) ∧
          Good second (between s drive blk) drive (lsnOf (blk * 2 + 1))) := by
  refine ⟨dwRead_of_large first second b, dwRead_intact hw first second b, fun hzero => ?_⟩
  rcases Nat.lt_or_ge blk.toNat (2 ^ 23) with hsmall | hlarge
  · exact (dwRead_eq_zero_iff hw first second b hsmall).mp hzero
  · rw [dwRead_of_large first second b hlarge] at hzero
    have hfailed : (0xFFFF : UInt16) ≠ 0 := by decide
    exact absurd hzero hfailed

theorem intact_intact : Intact (intact 256) := by
  intro sent hsent
  have hstored : (intact 256 sent).stored = sent :=
    List.take_of_length_le (Nat.le_of_eq hsent)
  have hcc : (intact 256 sent).cc = 4 := by simp [intact, hsent]
  rw [hcc]
  exact ⟨hstored, rfl⟩

/-- The booter behind `dw_init` of drive 1. -/
def attachedWorld : World where
  server := .done threeBytes
  sent := [0x5a, 0x00]
  b2 := buffer [0xd2, 1, 0, 0, 0]
  dw_cksum := 0
  mem := fun _ => 0

theorem threeBytes_ready : threeBytes.Ready 1 := ⟨"disk", rfl, Or.inr rfl⟩

/-- The first block of the image is read, and a block behind the last is refused. -/
theorem dw_read_agrees_threeBytes :
    slice (dwRead (intact 256) (intact 256) attachedWorld 0 0).2.mem 0 512 =
        sector 512 [1, 2, 3] 0 ∧
      dwRead (intact 256) (intact 256) attachedWorld 0 8388608 = (0xFFFF, attachedWorld) ∧
      Good (intact 256) threeBytes 1 (lsnOf (0 * 2)) :=
  have hattached : Attached attachedWorld threeBytes 1 := ⟨rfl, rfl, rfl⟩
  have hread := (dw_read_agrees hattached (intact 256) (intact 256) 0 0).2.1 (by decide)
    threeBytes_ready intact_intact intact_intact
  ⟨hread.2,
    (dw_read_agrees hattached (intact 256) (intact 256) 0 8388608).1 (by decide),
    ((dw_read_agrees hattached (intact 256) (intact 256) 0 0).2.2 hread.1).1⟩

end Fip.Booter.DriveWire
