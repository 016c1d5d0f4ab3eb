import Fip.Core.Dialogue
import Fip.Core.Memory
import Fip.Core.Sectors
import Mathlib.Data.List.Range
import Mathlib.Data.UInt

/-!
# The lwwire server

`lwwire.c` serves disk images on a line.  Images are opened, and created, when
a drive is first used.  The stdio calls succeed here, apart from opening a
file that does not exist; `fseek` with the `fread` or `fwrite` behind it is one
access to the file.
-/

namespace Fip.Lwwire

open Fip.ByteFile Fip.Sectors

def LWERR_CHECKSUM : ℕ := 0xF3
def LWERR_WRITE : ℕ := 0xF5
def LWERR_NOTREADY : ℕ := 0xF6

/-- An open stream. -/
structure FILE where
  path : String
  error : Bool

/-- `struct lwwire_driveinfo`. -/
structure DriveInfo where
  path : Option String
  fp : Option FILE
  isconst : Bool
  /-- Only the file of a drive is ever opened for it. -/
  fp_path : ∀ file, fp = some file → path = some file.path

/-- The globals of the program, and what it sees of the system. -/
structure Server where
  drivedata : UInt8 → DriveInfo
  files : String → Option (List UInt8)
  /-- What `localtime` gives at each call. -/
  clock : ℕ → List UInt8
  log : List UInt8

namespace Server

def setFp (s : Server) (dn : UInt8) (fp : Option FILE)
    (hfp : ∀ file, fp = some file → (s.drivedata dn).path = some file.path) : Server :=
  { s with
    drivedata := Function.update s.drivedata dn
      { s.drivedata dn with fp := fp, fp_path := hfp } }

def setFile (s : Server) (path : String) (cells : List UInt8) : Server :=
  { s with files := Function.update s.files path (some cells) }

/-- The image in a drive; a file that does not exist is as good as an empty one. -/
def image (s : Server) (dn : UInt8) : List UInt8 :=
  match (s.drivedata dn).path with
  | none => []
  | some path => (s.files path).getD []

/-- The file of a drive is there or can be created. -/
def Ready (s : Server) (dn : UInt8) : Prop :=
  ∃ path, (s.drivedata dn).path = some path ∧
    (s.files path ≠ none ∨ (s.drivedata dn).isconst = false)

/-- No file is in two drives. -/
def Distinct (s : Server) : Prop :=
  ∀ dn other path, (s.drivedata dn).path = some path →
    (s.drivedata other).path = some path → dn = other

end Server

/-- The second half of `lwwire_fetch_drive_fp`: `fopen` with `r+`, then with `w+`. -/
def openDrive (s : Server) (dn : UInt8) (path : String)
    (hpath : (s.drivedata dn).path = some path) : Server × Option FILE :=
  have hopen : ∀ file, some (FILE.mk path false) = some file →
      (s.drivedata dn).path = some file.path := by
    intro file hfile
    cases hfile
    exact hpath
  match s.files path with
  | some _ => (s.setFp dn (some ⟨path, false⟩) hopen, some ⟨path, false⟩)
  | none =>
      if (s.drivedata dn).isconst then (s.setFp dn none (fun _ hnone => nomatch hnone), none)
      else ((s.setFp dn (some ⟨path, false⟩) hopen).setFile path [], some ⟨path, false⟩)

def fetchDriveFp (s : Server) (dn : UInt8) : Server × Option FILE :=
  match hpath : (s.drivedata dn).path with
  | none => (s, none)
  | some path =>
      match (s.drivedata dn).fp with
      | none => openDrive s dn path hpath
      | some fp => if fp.error then openDrive s dn path hpath else (s, some fp)

/-- The code, and what is stored in the caller's buffer. -/
def fetchSector (s : Server) (dn : UInt8) (lsn : UInt32) : Server × ℕ × Option (List UInt8) :=
  match fetchDriveFp s dn with
  | (s, none) => (s, LWERR_NOTREADY, none)
  | (s, some fp) =>
      (s, 0, some (padded 256 (pread ((s.files fp.path).getD []) (lsn * 256).toNat 256)))

def saveSector (s : Server) (dn : UInt8) (lsn : UInt32) (buf : List UInt8) : Server × ℕ :=
  if (s.drivedata dn).isconst then (s, LWERR_WRITE)
  else
    match fetchDriveFp s dn with
    | (s, none) => (s, LWERR_NOTREADY)
    | (s, some fp) =>
        if (s.drivedata dn).isconst then (s, LWERR_WRITE)
        else
          (s.setFile fp.path
            (pwrite ((s.files fp.path).getD []) (lsn * 256).toNat buf), 0)

/-- A buffer on the stack; its first contents are never used. -/
abbrev Buffer := ℕ → UInt8

def buffer (cells : List UInt8) : Buffer := Memory.write (fun _ => 0) 0 cells

/-- The `count` bytes from `start` on. -/
def slice (buf : Buffer) (start count : ℕ) : List UInt8 :=
  (List.range count).map fun i => buf (start + i)

/-- What `lwwire_fetch_sector` does to the buffer it is given. -/
def fill (buf : Buffer) (start : ℕ) : Option (List UInt8) → Buffer
  | none => buf
  | some cells => Memory.write buf start cells

def lsnOf (buf : Buffer) : UInt32 :=
  (buf 1).toUInt32 <<< 16 ||| (buf 2).toUInt32 <<< 8 ||| (buf 3).toUInt32

/-- The sum of bytes in an `int`. -/
def csum (cells : List UInt8) : ℕ := (cells.map UInt8.toNat).sum

/-- The sum of bytes in an `uint16_t`. -/
def sum16 (cells : List UInt8) : UInt16 := (cells.map UInt8.toUInt16).sum

def protoRead (s : Server) : Dialogue UInt8 Server :=
  .read 4 fun request =>
    let buf := buffer request
    let (s, ec, cells) := fetchSector s (buf 0) (lsnOf buf)
    let buf := fill buf 1 cells
    let buf := Function.update buf 0 (UInt8.ofNat ec)
    .write (slice buf 0 1) <|
      if ec ≠ 0 then .done s
      else
        let ec := sum16 (slice buf 1 256)
        let buf := Function.update buf 257 (ec >>> 8 &&& 0xff).toUInt8
        let buf := Function.update buf 258 (ec &&& 0xff).toUInt8
        .write (slice buf 1 258) (.done s)

def protoWrite (s : Server) : Dialogue UInt8 Server :=
  .read 262 fun request =>
    let buf := buffer request
    let lsn := lsnOf buf
    let ec := sum16 (slice buf 4 256)
    if ec.toNat ≠ (buf 260).toNat <<< 8 ||| (buf 261).toNat then
      let buf := Function.update buf 0 (UInt8.ofNat LWERR_CHECKSUM)
      .write (slice buf 0 1) (.done s)
    else
      let (s, ec) := saveSector s (buf 0) lsn (slice buf 4 256)
      let buf := Function.update buf 0 (UInt8.ofNat ec)
      .write (slice buf 0 1) (.done s)

/-- The end of `lwwire_proto_readex`: the client sends the sum of what it received. -/
def readexStatus (s : Server) (ec csum : ℕ) (buf : Buffer) : Dialogue UInt8 Server :=
  .read 2 fun bytes =>
    let buf := Memory.write buf 0 bytes
    let ec := if (buf 0).toNat <<< 8 ||| (buf 1).toNat ≠ csum then LWERR_CHECKSUM else ec
    let buf := Function.update buf 0 (UInt8.ofNat ec)
    .write (slice buf 0 1) (.done s)

def protoReadex (s : Server) : Dialogue UInt8 Server :=
  .read 4 fun request =>
    let buf := buffer request
    let (s, ec, cells) := fetchSector s (buf 0) (lsnOf buf)
    let buf := fill buf 0 cells
    let buf := if ec ≠ 0 then Memory.write buf 0 (List.replicate 256 0) else buf
    .write (slice buf 0 256) (readexStatus s ec (csum (slice buf 0 256)) buf)

/-- No extension is registered, so each request for one is refused. -/
def protoRequestextension (s : Server) : Dialogue UInt8 Server :=
  .read 1 fun _ => .write [0x55] (.done s)

def protoDisableextension (s : Server) : Dialogue UInt8 Server :=
  .read 1 fun _ => .write [0x42] (.done s)

/-- The `switch` of the main loop.  A reset concerns extensions only, and so does
the reset behind the silence that answers an unknown operation. -/
def operation (s : Server) (cells : List UInt8) : Dialogue UInt8 Server :=
  match buffer cells 0 with
  | 0x00 => .done s
  | 0x23 => .write (s.clock 0) (.done { s with clock := fun call => s.clock (call + 1) })
  | 0x46 => .done s
  | 0x47 | 0x53 => .read 2 fun _ => .done s
  | 0x49 | 0x54 | 0xF8 | 0xFE | 0xFF => .done s
  | 0x50 => .read 1 fun cells => .done { s with log := s.log ++ slice (buffer cells) 0 1 }
  | 0x52 | 0x72 => protoRead s
  | 0x57 | 0x77 => protoWrite s
  | 0x5A => .read 1 fun _ => .write [0x80] (.done s)
  | 0xD2 | 0xF2 => protoReadex s
  | 0xF0 => protoRequestextension s
  | 0xF1 => protoDisableextension s
  | 0xF3 => .read 2 fun _ => .done s
  | _ => .done s

/-- One turn of the main loop. -/
def main (s : Server) : Dialogue UInt8 Server :=
  .read 1 (operation s)

/-! ## Drives -/

variable (s : Server) (dn : UInt8)

@[simp]
theorem setFp_path (fp : Option FILE)
    (hfp : ∀ file, fp = some file → (s.drivedata dn).path = some file.path)
    (other : UInt8) :
    ((s.setFp dn fp hfp).drivedata other).path = (s.drivedata other).path := by
  by_cases hother : other = dn
  · subst hother
    simp only [Server.setFp, Function.update_self]
  · simp only [Server.setFp, Function.update_of_ne hother]

@[simp]
theorem setFp_isconst (fp : Option FILE)
    (hfp : ∀ file, fp = some file → (s.drivedata dn).path = some file.path)
    (other : UInt8) :
    ((s.setFp dn fp hfp).drivedata other).isconst = (s.drivedata other).isconst := by
  by_cases hother : other = dn
  · subst hother
    simp only [Server.setFp, Function.update_self]
  · simp only [Server.setFp, Function.update_of_ne hother]

/-- What opening files leaves alone: which drives there are, every file that there
is, and every image. -/
structure SameDrives (s s' : Server) : Prop where
  path : ∀ dn, (s'.drivedata dn).path = (s.drivedata dn).path
  isconst : ∀ dn, (s'.drivedata dn).isconst = (s.drivedata dn).isconst
  files : ∀ path, s.files path ≠ none → s'.files path ≠ none
  image : ∀ dn, s'.image dn = s.image dn

theorem SameDrives.refl : SameDrives s s :=
  ⟨fun _ => rfl, fun _ => rfl, fun _ hfile => hfile, fun _ => rfl⟩

theorem setFp_sameDrives (fp : Option FILE)
    (hfp : ∀ file, fp = some file → (s.drivedata dn).path = some file.path) :
    SameDrives s (s.setFp dn fp hfp) := by
  refine ⟨setFp_path s dn fp hfp, setFp_isconst s dn fp hfp, fun _ hfile => hfile,
    fun other => ?_⟩
  rw [Server.image, Server.image, setFp_path]
  rfl

variable {s dn} {path : String}

theorem image_of_path (hpath : (s.drivedata dn).path = some path) :
    s.image dn = (s.files path).getD [] := by
  rw [Server.image, hpath]

theorem setFile_image (cells : List UInt8) (hpath : (s.drivedata dn).path = some path) :
    (s.setFile path cells).image dn = cells := by
  have hpath' : ((s.setFile path cells).drivedata dn).path = some path := hpath
  rw [image_of_path hpath']
  simp only [Server.setFile, Function.update_self, Option.getD_some]

theorem setFile_image_other (cells : List UInt8)
    (hpath : (s.drivedata dn).path ≠ some path) :
    (s.setFile path cells).image dn = s.image dn := by
  rcases hname : (s.drivedata dn).path with _ | name
  · have hname' : ((s.setFile path cells).drivedata dn).path = none := hname
    rw [Server.image, Server.image, hname, hname']
  · have hname' : ((s.setFile path cells).drivedata dn).path = some name := hname
    have hne : name ≠ path := fun heq => hpath (by rw [hname, heq])
    rw [image_of_path hname, image_of_path hname']
    simp only [Server.setFile, Function.update_of_ne hne]

/-- A new file is as empty as the one that was not there. -/
theorem SameDrives.create {s' : Server} (hsame : SameDrives s s')
    (hnone : s'.files path = none) : SameDrives s (s'.setFile path []) := by
  refine ⟨hsame.path, hsame.isconst, fun name hfile => ?_, fun other => ?_⟩
  · by_cases hname : name = path
    · subst hname
      simp only [Server.setFile, Function.update_self, ne_eq, Option.some_ne_none,
        not_false_eq_true]
    · simp only [Server.setFile, Function.update_of_ne hname]
      exact hsame.files name hfile
  rw [← hsame.image other]
  by_cases hpath : (s'.drivedata other).path = some path
  · rw [setFile_image [] hpath, image_of_path hpath, hnone, Option.getD_none]
  · exact setFile_image_other [] hpath

variable (s dn)

/-- A stream that is opened is that of the file. -/
theorem openDrive_spec (hpath : (s.drivedata dn).path = some path) :
    SameDrives s (openDrive s dn path hpath).1 ∧
      ∀ fp, (openDrive s dn path hpath).2 = some fp → fp.path = path := by
  rw [openDrive]
  rcases hfile : s.files path with _ | cells
  · by_cases hconst : (s.drivedata dn).isconst
    · rw [if_pos hconst]
      exact ⟨setFp_sameDrives s dn _ _, fun fp hfp => nomatch hfp⟩
    · rw [if_neg hconst]
      refine ⟨(setFp_sameDrives s dn _ _).create hfile, fun fp hfp => ?_⟩
      cases hfp
      rfl
  · refine ⟨setFp_sameDrives s dn _ _, fun fp hfp => ?_⟩
    cases hfp
    rfl

/-- A stream that is fetched is that of the drive's file. -/
theorem fetchDriveFp_spec :
    SameDrives s (fetchDriveFp s dn).1 ∧
      ∀ fp, (fetchDriveFp s dn).2 = some fp → (s.drivedata dn).path = some fp.path := by
  rw [fetchDriveFp]
  split
  · exact ⟨SameDrives.refl s, fun fp hfp => nomatch hfp⟩
  · next path hpath =>
    have hopen := openDrive_spec s dn hpath
    have hopened : ∀ fp, (openDrive s dn path hpath).2 = some fp →
        (s.drivedata dn).path = some fp.path := fun fp hfp => by
      rw [hpath, hopen.2 fp hfp]
    split
    · exact ⟨hopen.1, hopened⟩
    · next file hfp =>
      split
      · exact ⟨hopen.1, hopened⟩
      · refine ⟨SameDrives.refl s, fun fp heq => ?_⟩
        cases heq
        exact (s.drivedata dn).fp_path file hfp

/-- For a drive that is ready there is a stream. -/
theorem fetchDriveFp_ready (hready : s.Ready dn) : (fetchDriveFp s dn).2 ≠ none := by
  obtain ⟨path, hpath, hfile⟩ := hready
  have hopen : (openDrive s dn path hpath).2 ≠ none := by
    rw [openDrive]
    rcases hnone : s.files path with _ | cells
    · have hconst : (s.drivedata dn).isconst = false :=
        hfile.resolve_left fun hsome => hsome hnone
      rw [hconst]
      exact Option.some_ne_none _
    · exact Option.some_ne_none _
  rw [fetchDriveFp]
  split
  · next hnone => rw [hpath] at hnone; cases hnone
  · next name hname =>
    obtain rfl : path = name := Option.some.inj (hpath.symm.trans hname)
    split
    · exact hopen
    · split
      · exact hopen
      · exact Option.some_ne_none _

/-- It stays ready. -/
theorem SameDrives.ready {s' : Server} (hsame : SameDrives s s') (hready : s.Ready dn) :
    s'.Ready dn := by
  obtain ⟨path, hpath, hfile⟩ := hready
  refine ⟨path, (hsame.path dn).trans hpath, hfile.imp (hsame.files path) fun hconst => ?_⟩
  exact (hsame.isconst dn).trans hconst

end Fip.Lwwire
