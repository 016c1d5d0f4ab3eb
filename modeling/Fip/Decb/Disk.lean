import Fip.Core.ByteFile
import Mathlib.Data.UInt
import Mathlib.Tactic.FinCases
import Mathlib.Data.Fintype.Pi
import Mathlib.Data.Fintype.Basic

/-!
# The RSDOS disk as `decb` reads and writes it

Layout constants, the directory entry, the granule table, and the routines
that move them between memory and the image file.  An image file may hold the
disk at any byte `offset` (options `-o` and `-v`).
-/

namespace Fip.Decb

open Fip.ByteFile

/-- RSDOS sector size. -/
def secz : ℕ := 256
/-- Granule size: nine sectors. -/
def granz : ℕ := 2304
/-- Number of granules, which is the size of the FAT. -/
def fatz : ℕ := 68
/-- Start of the FAT: sector 307. -/
def fatst : ℕ := 307 * 256
/-- Start of the directory: sector 308. -/
def dirst : ℕ := 308 * 256
/-- Disk label sector: sector 322. -/
def labelst : ℕ := 322 * 256
/-- Directory slots scanned by `getentry`. -/
def slots : ℕ := 72
/-- A whole 35 track disk. -/
def diskz : ℕ := 161280

/-- The global variables that the command line options set. -/
structure Opts where
  deftype : UInt8
  defaflag : UInt8
  trans : Bool
  mbr : Bool
  boot : Bool
  offset : ℕ
  deriving DecidableEq

/-- The initial values of the globals: a command line without options. -/
def Opts.initial : Opts := ⟨0, 0, false, false, false, 0⟩

/-- Why a command did not return 0.  `undefined` marks an access outside
`fat`, `overrun` a store behind `buf`, `overread` a `write` of more than `buf`
holds, `diverges` a loop that never leaves a cyclic chain. -/
inductive Halt where
  | exit (message : String)
  | undefined
  | overrun
  | overread
  | diverges
  deriving DecidableEq

/-- A command that stopped, and the image file it left behind. -/
structure Stop where
  halt : Halt
  image : List UInt8
  deriving DecidableEq

/-! ## Directory entries -/

structure Dirent where
  name : Fin 8 → UInt8
  ext : Fin 3 → UInt8
  type : UInt8
  aflag : UInt8
  first : UInt8
  remainder : Fin 2 → UInt8
  unused : Fin 16 → UInt8
  deriving DecidableEq

namespace Dirent

/-- The 32 bytes of a directory entry, in the order of the struct. -/
def toBytes (entry : Dirent) : List UInt8 :=
  List.ofFn entry.name ++ List.ofFn entry.ext ++
    [entry.type, entry.aflag, entry.first] ++ List.ofFn entry.remainder ++
    List.ofFn entry.unused

def ofBytes (bytes : List UInt8) : Dirent where
  name i := bytes.getD i 0
  ext i := bytes.getD (8 + i) 0
  type := bytes.getD 11 0
  aflag := bytes.getD 12 0
  first := bytes.getD 13 0
  remainder i := bytes.getD (14 + i) 0
  unused i := bytes.getD (16 + i) 0

/-- The 11 bytes compared by `find`: the name and the extension. -/
def key (entry : Dirent) : List UInt8 :=
  List.ofFn entry.name ++ List.ofFn entry.ext

/-- `memcpy(&entry, buf, 11)`. -/
def setKey (entry : Dirent) (form : List UInt8) : Dirent :=
  { entry with
    name := fun i => form.getD i 0
    ext := fun i => form.getD (8 + i) 0 }

@[simp]
theorem length_toBytes (entry : Dirent) : entry.toBytes.length = 32 := by
  simp [toBytes]

@[simp]
theorem length_key (entry : Dirent) : entry.key.length = 11 := by
  simp [key]

@[simp]
theorem ofBytes_toBytes (entry : Dirent) : ofBytes entry.toBytes = entry := by
  cases entry with
  | mk name ext type aflag first remainder unused =>
      simp only [ofBytes, toBytes, mk.injEq]
      refine ⟨?_, ?_, rfl, rfl, rfl, ?_, ?_⟩ <;> funext i <;>
        fin_cases i <;> rfl

@[simp]
theorem key_setKey (entry : Dirent) {form : List UInt8}
    (hform : form.length = 11) : (entry.setKey form).key = form := by
  obtain ⟨b0, b1, b2, b3, b4, b5, b6, b7, b8, b9, b10, rfl⟩ :
      ∃ b0 b1 b2 b3 b4 b5 b6 b7 b8 b9 b10,
        form = [b0, b1, b2, b3, b4, b5, b6, b7, b8, b9, b10] := by
    match form, hform with
    | [b0, b1, b2, b3, b4, b5, b6, b7, b8, b9, b10], _ =>
        exact ⟨b0, b1, b2, b3, b4, b5, b6, b7, b8, b9, b10, rfl⟩
  rfl

theorem key_getD_zero (entry : Dirent) : entry.key.getD 0 0 = entry.name 0 := by
  rfl

end Dirent

/-- A slot that `put` may take: deleted (0) or never used (0xFF). -/
def Dirent.isFree (entry : Dirent) : Prop :=
  entry.name 0 = 0 ∨ entry.name 0 = 0xff

instance (entry : Dirent) : Decidable entry.isFree :=
  inferInstanceAs (Decidable (_ ∨ _))

/-- `entry.name[0] = 0`. -/
def Dirent.delete (entry : Dirent) : Dirent :=
  { entry with name := Function.update entry.name 0 0 }

/-- Translate a C string to entry format, from `*d` on.  Nothing stops the copy
at the end of `buf`, and a run that stores there has no result. -/
def stringconvLoop : List UInt8 → ℕ → List UInt8 → Option (List UInt8)
  | [], _, buf => some buf
  | c :: rest, d, buf =>
      if c = 0 then some buf
      else if c = 0x2e then stringconvLoop rest 8 buf
      else if d < buf.length then stringconvLoop rest (d + 1) (buf.set d c)
      else none

/-- Fill `buf` with the RSDOS formatted name.  Only its first eleven bytes are
read again; what an earlier `read` left behind them is taken to be 0. -/
def stringconv (name : List UInt8) : Option (List UInt8) :=
  stringconvLoop name 0
    (List.replicate 11 0x20 ++ List.replicate (granz - 11) 0)

/-- `getentry` for the given number of earlier calls in this scan.  The entry
is read before it is counted, so the call that ends a scan reads a 73rd one. -/
def getentry (image : List UInt8) (offset slot : ℕ) :
    Except Stop (Option Dirent) :=
  let bytes := pread image (dirst + offset + 32 * slot) 32
  if bytes.length ≠ 32 then .error ⟨.exit "dir read", image⟩
  else if slot + 1 > slots then .ok none
  else .ok (some (Dirent.ofBytes bytes))

/-- The loops `while (getentry()) ...` of `find` and `put`: `visit` is the
loop body, `some` where it leaves the loop.  The answer carries the slot, from
which `entry_off` is known. -/
def scanFrom {β : Type} (image : List UInt8) (offset : ℕ)
    (visit : Dirent → Option β) :
    ℕ → ℕ → Except Stop (Option (β × ℕ × Dirent))
  | _, 0 => .ok none
  | slot, calls + 1 =>
      match getentry image offset slot with
      | .error stop => .error stop
      | .ok none => .ok none
      | .ok (some entry) =>
          match visit entry with
          | some verdict => .ok (some (verdict, slot, entry))
          | none => scanFrom image offset visit (slot + 1) calls

/-- A scan of the directory from its first slot. -/
def scan {β : Type} (image : List UInt8) (offset : ℕ)
    (visit : Dirent → Option β) : Except Stop (Option (β × ℕ × Dirent)) :=
  scanFrom image offset visit 0 (slots + 1)

/-- Body of the loop in `find`. -/
def findVisit (form : List UInt8) (entry : Dirent) : Option Bool :=
  if entry.name 0 = 0xff then some false
  else if entry.key = form then some true
  else none

/-- Scan directory entries to find a name. -/
def find (image : List UInt8) (offset : ℕ) (name : List UInt8) :
    Except Stop (Option (ℕ × Dirent)) :=
  match stringconv name with
  | none => .error ⟨.overrun, image⟩
  | some buf =>
      match scan image offset (findVisit (buf.take 11)) with
      | .error stop => .error stop
      | .ok (some (true, slot, entry)) => .ok (some (slot, entry))
      | .ok (some (false, _, _)) => .ok none
      | .ok none => .ok none

/-- Body of the loop in `put` that looks for an empty directory entry. -/
def slotVisit (entry : Dirent) : Option Unit :=
  if entry.isFree then some () else none

/-- Store the entry back where `getentry` read it. -/
def saveentry (image : List UInt8) (offset slot : ℕ) (entry : Dirent) :
    List UInt8 :=
  pwrite image (dirst + offset + 32 * slot) entry.toBytes

/-! ## The granule table -/

abbrev Fat := Fin 68 → UInt8

def loadfat (image : List UInt8) (offset : ℕ) : Except Stop Fat :=
  let bytes := pread image (fatst + offset) fatz
  if bytes.length = 0 then .error ⟨.exit "image not big enough", image⟩
  else if bytes.length ≠ fatz then .error ⟨.exit "fat read", image⟩
  else .ok fun granule => bytes.getD granule 0

def savefat (image : List UInt8) (offset : ℕ) (fat : Fat) : List UInt8 :=
  pwrite image (fatst + offset) (List.ofFn fat)

/-- Find a first free granule and mark it as the last of a file. -/
def findgran (fat : Fat) : ℤ × Fat :=
  match (List.finRange 68).find? fun granule => fat granule = 0xff with
  | some granule => (granule.val, Function.update fat granule 0xc0)
  | none => (-1, fat)

/-- The test `(value & 0xc0) == 0xc0` that ends a chain. -/
def isLast (value : UInt8) : Prop := value &&& 0xc0 = 0xc0

instance (value : UInt8) : Decidable (isLast value) :=
  inferInstanceAs (Decidable (_ = _))

/-- The granules that the table counts as free. -/
def freeGrans (fat : Fat) : Finset (Fin 68) :=
  Finset.univ.filter fun granule => fat granule = 0xff

def usedGrans (fat : Fat) : Finset (Fin 68) :=
  Finset.univ.filter fun granule => fat granule ≠ 0xff

@[simp]
theorem mem_freeGrans {fat : Fat} {granule : Fin 68} :
    granule ∈ freeGrans fat ↔ fat granule = 0xff := by
  simp [freeGrans]

@[simp]
theorem mem_usedGrans {fat : Fat} {granule : Fin 68} :
    granule ∈ usedGrans fat ↔ fat granule ≠ 0xff := by
  simp [usedGrans]

theorem usedGrans_update_free (fat : Fat) (granule : Fin 68) :
    usedGrans (Function.update fat granule 0xff) =
      (usedGrans fat).erase granule := by
  ext other
  by_cases hother : other = granule
  · simp [hother]
  · simp [hother]

/-- Delete a granule chain; `none` is an access outside `fat`.  The loop ends
on every table: a round either turns another byte to 0xFF or has met a byte
that is 0xFF already, and then the next round stops. -/
def delchain (fat : Fat) (first : UInt8) : Option Fat :=
  if isLast first then some fat
  else if h : first.toNat < 68 then
    delchain (Function.update fat ⟨first.toNat, h⟩ 0xff)
      (fat ⟨first.toNat, h⟩)
  else none
termination_by
  2 * (usedGrans fat).card + if isLast first then 0 else 1
decreasing_by
  rename_i hlast
  rw [usedGrans_update_free, if_neg hlast]
  by_cases hfreed : fat ⟨first.toNat, h⟩ = 0xff
  · rw [hfreed, if_pos (by decide), Finset.erase_eq_of_notMem (by simp [hfreed])]
    omega
  · have hfewer := Finset.card_erase_lt_of_mem
      (mem_usedGrans.mpr hfreed)
    split <;> omega

/-! ## Granules -/

/-- File offset of a granule: the directory track is skipped. -/
def seekgran (offset granule : ℕ) : ℕ :=
  granz * (if granule > 33 then granule + 2 else granule) + offset

def loadgran (image : List UInt8) (offset granule : ℕ) :
    Except Halt (List UInt8) :=
  let bytes := pread image (seekgran offset granule) granz
  if bytes.length = 0 then .error (.exit "image not big enough")
  else if bytes.length ≠ granz then .error (.exit "gran read")
  else .ok bytes

/-- Translate newlines. -/
def nl2cr (bytes : List UInt8) : List UInt8 :=
  bytes.map fun c => if c = 0x0a then 0x0d else c

/-- Translate newlines. -/
def cr2nl (bytes : List UInt8) : List UInt8 :=
  bytes.map fun c => if c = 0x0d then 0x0a else c

/-- `if (trans) nl2cr()`, on the bytes that are then written. -/
def Opts.toDisk (opts : Opts) (bytes : List UInt8) : List UInt8 :=
  if opts.trans then nl2cr bytes else bytes

/-- `if (trans) cr2nl()`. -/
def Opts.toHost (opts : Opts) (bytes : List UInt8) : List UInt8 :=
  if opts.trans then cr2nl bytes else bytes

end Fip.Decb
