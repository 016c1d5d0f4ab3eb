import Fip.Decb.Disk

/-!
# The commands of `decb`

`mkfs`, `get`, `put`, `rm` and `label`, each as a function from the image file
to the image file it leaves.  A command line is the option record `Opts`
together with the arguments of the command.  Opening, seeking and writing
succeed; a read is short at the end of the file only.
-/

namespace Fip.Decb

open Fip.ByteFile

/-- The granules that the options `-m` and `-p` set aside. -/
def reserve (opts : Opts) (fat : Fat) : Fat :=
  let fat := if opts.mbr then Function.update fat 0 0xc0 else fat
  if opts.boot then Function.update (Function.update fat 67 0xc0) 66 0xc0
  else fat

/-- The granules that `mkfs` sets aside. -/
def reservedGrans (opts : Opts) : Finset (Fin 68) :=
  Finset.univ.filter fun granule =>
    (opts.mbr ∧ granule = 0) ∨ (opts.boot ∧ (granule = 66 ∨ granule = 67))

/-- Make an empty disk.  The file is not truncated: what lies outside the disk
stays. -/
def mkfs (opts : Opts) (image : List UInt8) : Except Stop (List UInt8) :=
  let image := (List.range 70).foldl
    (fun image x =>
      pwrite image (opts.offset + granz * x) (List.replicate granz 0xff))
    image
  match loadfat image opts.offset with
  | .error stop => .error stop
  | .ok fat => .ok (savefat image opts.offset (reserve opts fat))

/-- What `get` wrote to the destination, and why it stopped if it did not
return 0. -/
structure Copied where
  halt : Option Halt
  written : List UInt8
  deriving DecidableEq

/-- The byte count that `get` takes from the last granule. -/
def lastSize (value : UInt8) (entry : Dirent) : ℤ :=
  ((value &&& ~~~0xc0).toNat - 1 : ℤ) * secz +
    (((entry.remainder 0).toNat <<< 8 + (entry.remainder 1).toNat : ℕ) : ℤ)

/-- The granule loop of `get`.  A chain that has not ended after as many
rounds as there are granules has come back to a granule it already left, and
never ends. -/
def getLoop (opts : Opts) (image : List UInt8) (fat : Fat) (entry : Dirent) :
    ℕ → UInt8 → List UInt8 → Copied
  | 0, _, written => ⟨some .diverges, written⟩
  | rounds + 1, gran, written =>
      if h : gran.toNat < 68 then
        let value := fat ⟨gran.toNat, h⟩
        let size : ℤ := if isLast value then lastSize value entry else granz
        match loadgran image opts.offset (gran &&& ~~~0x80).toNat with
        | .error halt => ⟨some halt, written⟩
        | .ok buf =>
            let buf := opts.toHost buf
            -- a negative count is refused with -1, which is the count in one case
            if size < 0 then
              ⟨if size = -1 then none else some (.exit "write"), written⟩
            else if granz < size then ⟨some .overread, written⟩
            else
              let written := written ++ buf.take size.toNat
              if size = granz then
                getLoop opts image fat entry rounds value written
              else ⟨none, written⟩
      else ⟨some .undefined, written⟩

/-- Copy a disk file to the host filesystem. -/
def get (opts : Opts) (image name : List UInt8) : Copied :=
  match loadfat image opts.offset with
  | .error stop => ⟨some stop.halt, []⟩
  | .ok fat =>
      match find image opts.offset name with
      | .error stop => ⟨some stop.halt, []⟩
      | .ok none => ⟨some (.exit "file not found"), []⟩
      | .ok (some (_, entry)) =>
          getLoop opts image fat entry (fatz + 1) entry.first []

/-- The allocation loop of `put`, from the `read` of the next granule on.  On
leaving the loop: the table, the image, the last granule, and the size of the
last read. -/
def putLoop (opts : Opts) (first : UInt8) (fat : Fat) (image : List UInt8)
    (x : UInt8) (src : List UInt8) :
    Except Stop (Fat × List UInt8 × UInt8 × ℕ) :=
  let size := (src.take granz).length
  let image :=
    pwrite image (seekgran opts.offset x.toNat) (opts.toDisk (src.take granz))
  if _hsize : size < granz then .ok (fat, image, x, size)
  else if h : x.toNat < 68 then
    -- x = fat[x] = findgran(): the result passes through an unsigned byte
    let next := UInt8.ofInt (findgran fat).1
    let fat := Function.update (findgran fat).2 ⟨x.toNat, h⟩ next
    if (next.toNat : ℤ) < 0 then
      match delchain fat first with
      | none => .error ⟨.undefined, image⟩
      | some _ => .error ⟨.exit "out of granules", image⟩
    else putLoop opts first fat image next (src.drop granz)
  else .error ⟨.undefined, image⟩
termination_by src.length
decreasing_by
  have hlength : granz ≤ src.length := by
    simp only [size, List.length_take] at _hsize
    omega
  have hpositive : 0 < granz := by decide
  simp only [List.length_drop]
  omega

/-- The entry that `put` saves: found slot, first granule, size of the last
read, converted name. -/
def putEntry (opts : Opts) (entry : Dirent) (first : UInt8) (size : ℕ)
    (form : List UInt8) : Dirent :=
  { (Dirent.setKey entry form) with
    type := opts.deftype
    aflag := opts.defaflag
    first := first
    remainder := fun i =>
      if i = 0 then UInt8.ofNat ((size % secz) >>> 8)
      else UInt8.ofNat ((size % secz) &&& 0xff) }

/-- The byte `put` leaves in the table for the last granule. -/
def lastByte (size : ℕ) : UInt8 :=
  0xc0 ||| UInt8.ofNat ((size + secz - 1) / secz)

/-- Put a file. -/
def put (opts : Opts) (image src name : List UInt8) :
    Except Stop (List UInt8) :=
  match loadfat image opts.offset with
  | .error stop => .error stop
  | .ok fat =>
  match find image opts.offset name with
  | .error stop => .error stop
  | .ok (some _) => .error ⟨.exit "file exists", image⟩
  | .ok none =>
  match scan image opts.offset slotVisit with
  | .error stop => .error stop
  | .ok none => .error ⟨.exit "out of free directory entries", image⟩
  | .ok (some (_, slot, entry)) =>
      -- x = entry.first = findgran(): again through an unsigned byte
      let first := UInt8.ofInt (findgran fat).1
      if (first.toNat : ℤ) < 0 then .error ⟨.exit "out of granules", image⟩
      else
        match putLoop opts first (findgran fat).2 image first src with
        | .error stop => .error stop
        | .ok (fat, image, x, size) =>
            if h : x.toNat < 68 then
              let fat := Function.update fat ⟨x.toNat, h⟩ (lastByte size)
              match stringconv name with
              | none => .error ⟨.overrun, image⟩
              | some buf =>
                  let entry := putEntry opts entry first size (buf.take 11)
                  .ok (savefat (saveentry image opts.offset slot entry)
                    opts.offset fat)
            else .error ⟨.undefined, image⟩

/-- Remove a file. -/
def rm (opts : Opts) (image name : List UInt8) : Except Stop (List UInt8) :=
  match loadfat image opts.offset with
  | .error stop => .error stop
  | .ok fat =>
  match find image opts.offset name with
  | .error stop => .error stop
  | .ok none => .error ⟨.exit "file not found", image⟩
  | .ok (some (slot, entry)) =>
      match delchain fat entry.first with
      | none => .error ⟨.undefined, image⟩
      | some fat =>
          .ok (saveentry (savefat image opts.offset fat) opts.offset slot
            entry.delete)

/-- `strncpy(buf, text, SECZ-1)` into a cleared sector. -/
def labelSector (text : List UInt8) : List UInt8 :=
  let text := (text.takeWhile (· ≠ 0)).take (secz - 1)
  text ++ List.replicate (secz - text.length) 0

/-- Set the volume label. -/
def label (opts : Opts) (image text : List UInt8) : Except Stop (List UInt8) :=
  match loadfat image opts.offset with
  | .error stop => .error stop
  | .ok _ => .ok (pwrite image (labelst + opts.offset) (labelSector text))

end Fip.Decb
