import Fip.Core.Memory
import Fip.Xxd.Huntype
import Mathlib.Logic.Function.Basic

/-!
# Dumping

`main` of xxd, behind its options and `fseek`: the bytes of the input are put into a line of
text one after the other, and `xxdline` prints it.  The line is an array in the memory of
the program; a write behind its end is one into the memory that follows.  An `int` has
sixteen bits, as on the 6809 that the program is built for.
-/

namespace Fip.Xxd

/-- What an `int` holds of a number. -/
def int16 (value : ℤ) : ℤ := value.bmod (2 ^ 16)

def COLS : ℕ := 256

def LLEN : ℕ := 12 + (9 * COLS - 1) + COLS + 2

/-- `hexxa`, or its second half with upper case letters. -/
def hexx (upper : Bool) (digit : ℕ) : Char :=
  (if upper then "0123456789ABCDEF" else "0123456789abcdef").toList.getD digit '\x00'

/-- What `%08lx` makes of a number that has 32 bits. -/
def offsetText (value : ℕ) : List Char :=
  (List.range 8).map fun i => hexx false (value >>> (4 * (7 - i)) &&& 0xf)

/-- This is an EBCDIC to ASCII conversion table. -/
def etoa64 : List ℕ :=
  [0x20, 0xa0, 0xa1, 0xa2, 0xa3, 0xa4, 0xa5, 0xa6,
    0xa7, 0xa8, 0xd5, 0x2e, 0x3c, 0x28, 0x2b, 0x7c,
    0x26, 0xa9, 0xaa, 0xab, 0xac, 0xad, 0xae, 0xaf,
    0xb0, 0xb1, 0x21, 0x24, 0x2a, 0x29, 0x3b, 0x7e,
    0x2d, 0x2f, 0xb2, 0xb3, 0xb4, 0xb5, 0xb6, 0xb7,
    0xb8, 0xb9, 0xcb, 0x2c, 0x25, 0x5f, 0x3e, 0x3f,
    0xba, 0xbb, 0xbc, 0xbd, 0xbe, 0xbf, 0xc0, 0xc1,
    0xc2, 0x60, 0x3a, 0x23, 0x40, 0x27, 0x3d, 0x22,
    0xc3, 0x61, 0x62, 0x63, 0x64, 0x65, 0x66, 0x67,
    0x68, 0x69, 0xc4, 0xc5, 0xc6, 0xc7, 0xc8, 0xc9,
    0xca, 0x6a, 0x6b, 0x6c, 0x6d, 0x6e, 0x6f, 0x70,
    0x71, 0x72, 0x5e, 0xcc, 0xcd, 0xce, 0xcf, 0xd0,
    0xd1, 0xe5, 0x73, 0x74, 0x75, 0x76, 0x77, 0x78,
    0x79, 0x7a, 0xd2, 0xd3, 0xd4, 0x5b, 0xd6, 0xd7,
    0xd8, 0xd9, 0xda, 0xdb, 0xdc, 0xdd, 0xde, 0xdf,
    0xe0, 0xe1, 0xe2, 0xe3, 0xe4, 0x5d, 0xe6, 0xe7,
    0x7b, 0x41, 0x42, 0x43, 0x44, 0x45, 0x46, 0x47,
    0x48, 0x49, 0xe8, 0xe9, 0xea, 0xeb, 0xec, 0xed,
    0x7d, 0x4a, 0x4b, 0x4c, 0x4d, 0x4e, 0x4f, 0x50,
    0x51, 0x52, 0xee, 0xef, 0xf0, 0xf1, 0xf2, 0xf3,
    0x5c, 0x9f, 0x53, 0x54, 0x55, 0x56, 0x57, 0x58,
    0x59, 0x5a, 0xf4, 0xf5, 0xf6, 0xf7, 0xf8, 0xf9,
    0x30, 0x31, 0x32, 0x33, 0x34, 0x35, 0x36, 0x37,
    0x38, 0x39, 0xfa, 0xfb, 0xfc, 0xfd, 0xfe, 0xff]

/-- The columns and the octets in a group that `main` goes on with. -/
structure Layout (hextype : HexType) where
  cols : ℕ
  octspergrp : ℕ
  one_le_cols : 1 ≤ cols
  cols_le : hextype ≠ .postscript → hextype ≠ .cinclude → cols ≤ COLS
  one_le_octspergrp : 1 ≤ octspergrp
  octspergrp_le : octspergrp ≤ cols

def defaultCols : HexType → ℤ
  | .postscript => 30
  | .cinclude => 12
  | .bits => 6
  | .normal => 16
  | .littleEndian => 16

def defaultGroup : HexType → ℤ
  | .bits => 1
  | .normal => 2
  | .littleEndian => 4
  | .postscript => 0
  | .cinclude => 0

/-- The options `-c` and `-g`; there is none where they are invalid. -/
def layout (hextype : HexType) (cols octspergrp : ℤ) : Option (Layout hextype) :=
  let cols := if cols = 0 then defaultCols hextype else cols
  let octspergrp := if octspergrp < 0 then defaultGroup hextype else octspergrp
  if hcols : cols < 1 ∨
      (hextype = .normal ∨ hextype = .bits ∨ hextype = .littleEndian) ∧ cols > COLS then none
  else
    have hpos : 1 ≤ cols.toNat := by omega
    have hle : hextype ≠ .postscript → hextype ≠ .cinclude → cols.toNat ≤ COLS := by
      intro hps hc
      have hline : hextype = .normal ∨ hextype = .bits ∨ hextype = .littleEndian := by
        cases hextype <;> simp_all
      have hcols := not_and.mp (not_or.mp hcols).2 hline
      omega
    if hgroup : octspergrp < 1 ∨ octspergrp > cols then
      some ⟨cols.toNat, cols.toNat, hpos, hle, hpos, le_rfl⟩
    else if hextype = .littleEndian ∧ octspergrp.toNat &&& (octspergrp.toNat - 1) ≠ 0 then none
    else some ⟨cols.toNat, octspergrp.toNat, hpos, hle, by omega, by omega⟩

/-- The options that stay as they are given. -/
structure Options where
  upper : Bool
  ebcdic : Bool
  autoskip : Bool
  /-- The offset of the first byte, `seekoff + displayoff`. -/
  base : ℤ
  deriving DecidableEq

/-- The static variables of `xxdline`, and what it has printed. -/
structure Output where
  z : List Char
  zeroSeen : ℤ
  fpo : List Char

/-- `xxdline(fp, l, nz)`. -/
def xxdline (out : Output) (l : List Char) (nz : ℤ) : Output :=
  let z := if nz = 0 ∧ out.zeroSeen = 1 then l else out.z
  if nz ≠ 0 ∨ out.zeroSeen = 0 then
    let zeroSeen := if nz = 0 then int16 (out.zeroSeen + 1) else out.zeroSeen
    let zeroSeen := if nz < 0 then int16 (zeroSeen - 1) else zeroSeen
    let fpo := if nz ≠ 0 ∧ zeroSeen = 2 then out.fpo ++ z else out.fpo
    let fpo := if nz ≠ 0 ∧ zeroSeen > 2 then fpo ++ "*\n".toList else fpo
    let fpo := if nz ≥ 0 ∨ zeroSeen > 0 then fpo ++ l else fpo
    ⟨z, if nz ≠ 0 then 0 else zeroSeen, fpo⟩
  else ⟨z, int16 (out.zeroSeen + 1), out.fpo⟩

/-- The variables of `main`; the text of a line and what lies behind it. -/
structure Dump where
  l : ℕ → Char
  p : ℕ
  n : ℕ
  nonzero : ℕ
  out : Output

/-- A string in an array of characters. -/
def cstring (l : ℕ → Char) : List Char :=
  ((List.range (LLEN + 1)).map l).takeWhile (· ≠ '\x00')

def Dump.init (mem : ℕ → Char) : Dump where
  l := fun i => if i ≤ LLEN then '\x00' else mem i
  p := 0
  n := 0
  nonzero := 0
  out := ⟨[], 0, []⟩

section Loop

variable {hextype : HexType} (format : Layout hextype) (options : Options)

/-- The characters of a group, with a blank. -/
def grplen : ℕ :=
  if hextype ≠ .bits then format.octspergrp + format.octspergrp + 1
  else 8 * format.octspergrp + 1

/-- Where the text of a line begins. -/
def column : ℤ :=
  12 + (int16 (int16 (grplen format * format.cols) - 1)).tdiv format.octspergrp

/-- Where the digits of a byte begin. -/
def place (p : ℕ) : ℤ := 10 + (int16 (grplen format * p)).tdiv format.octspergrp

/-- Characters from `l[c]` on.  The memory has 64 KiB; what stands in front of the line is its
end. -/
def store (l : ℕ → Char) (c : ℤ) (text : List Char) : ℕ → Char :=
  Memory.wrapWrite (2 ^ 16) l (c % 2 ^ 16).toNat text

/-- `sprintf` of the offset, and the blanks up to the end of the line. -/
def beginLine (d : Dump) : Dump :=
  let value := ((d.n + options.base) % 2 ^ 32).toNat
  let l := Memory.write d.l 0 (offsetText value ++ [':', '\x00'])
  { d with l := fun c => if 9 ≤ c ∧ c < LLEN then ' ' else l c }

/-- The digits of a byte. -/
def putDigits (l : ℕ → Char) (p e : ℕ) : ℕ → Char :=
  match hextype with
  | .normal =>
      store l (place format p)
        [hexx options.upper (e >>> 4 &&& 0xf), hexx options.upper (e &&& 0xf)]
  | .littleEndian =>
      store l (place format (p ^^^ (format.octspergrp - 1)))
        [hexx options.upper (e >>> 4 &&& 0xf), hexx options.upper (e &&& 0xf)]
  | _ =>
      store l (place format p)
        ((List.range 8).map fun i => if e &&& 1 <<< (7 - i) ≠ 0 then '1' else '0')

/-- A byte in the text of a line. -/
def textChar (e : ℕ) : Char :=
  let e := if options.ebcdic then (if e < 64 then '.'.toNat else etoa64.getD (e - 64) 0) else e
  if e > 31 ∧ e < 127 then Char.ofNat e else '.'

/-- The digits of a byte and its text. -/
def addByte (d : Dump) (byte : UInt8) : Dump :=
  let e := byte.toNat
  let l := putDigits format options d.l d.p e
  { d with
    l := store l (column format + d.p) [textChar options e]
    nonzero := if e ≠ 0 then d.nonzero + 1 else d.nonzero
    n := d.n + 1
    p := d.p + 1 }

/-- A line is ended by a newline and a NUL, and printed. -/
def printLine (d : Dump) (nz : ℤ) : Dump :=
  let l := store d.l (column format + d.p) ['\n', '\x00']
  { d with l := l, out := xxdline d.out (cstring l) nz }

/-- The body of the loop for a byte. -/
def dumpByte (d : Dump) (byte : UInt8) : Dump :=
  let d := if d.p = 0 then beginLine options d else d
  let d := addByte format options d byte
  if d.p = format.cols then
    let d := printLine format d (if options.autoskip then d.nonzero else 1)
    { d with nonzero := 0, p := 0 }
  else d

/-- What is done behind the last byte. -/
def finish (d : Dump) : Dump :=
  if d.p ≠ 0 then printLine format d 1
  else if options.autoskip then { d with out := xxdline d.out (cstring d.l) (-1) }
  else d

/-- The variables behind the bytes of the input. -/
def dump (mem : ℕ → Char) (bytes : List UInt8) : Dump :=
  finish format options (bytes.foldl (dumpByte format options) (.init mem))

/-! ## Without overflow -/

/-- The products that the places are computed from fit into an `int`. -/
structure Layout.Fits : Prop where
  cols : grplen format * format.cols < 2 ^ 15
  swapped : hextype = .littleEndian → ∀ p < format.cols,
    grplen format * (p ^^^ (format.octspergrp - 1)) < 2 ^ 15

def textPlace : ℕ := 12 + (grplen format * format.cols - 1) / format.octspergrp

def digitPlace (p : ℕ) : ℕ := 10 + grplen format * p / format.octspergrp

theorem int16_of_lt {value : ℤ} (hneg : -2 ^ 15 ≤ value) (hlt : value < 2 ^ 15) :
    int16 value = value :=
  Int.bmod_eq_of_le_mul_two (by omega) (by omega)

theorem int16_natCast {value : ℕ} (hlt : value < 2 ^ 15) : int16 value = value :=
  int16_of_lt (by omega) (by omega)

variable {format}

theorem place_eq_digitPlace {p : ℕ} (hp : grplen format * p < 2 ^ 15) :
    place format p = digitPlace format p := by
  rw [place, ← Nat.cast_mul, int16_natCast hp, Int.tdiv_eq_ediv_of_nonneg (Int.natCast_nonneg _),
    digitPlace]
  push_cast
  rfl

theorem column_eq_textPlace (hfits : format.Fits) : column format = textPlace format := by
  have hlt := hfits.cols
  have hpos : 1 ≤ grplen format * format.cols := by
    have hgrplen : 1 ≤ grplen format := by
      rw [grplen]
      split_ifs <;> omega
    exact Nat.mul_pos hgrplen format.one_le_cols
  rw [column, ← Nat.cast_mul, int16_natCast hlt, ← Nat.cast_pred hpos,
    int16_natCast (Nat.lt_of_le_of_lt (Nat.sub_le _ 1) hlt),
    Int.tdiv_eq_ediv_of_nonneg (Int.natCast_nonneg _), textPlace]
  push_cast
  rfl

theorem store_natCast (l : ℕ → Char) {c : ℕ} {text : List Char} (hc : c + text.length ≤ 2 ^ 16) :
    store l c text = Memory.write l c text := by
  have hplace : ((c : ℤ) % 2 ^ 16).toNat = c % 2 ^ 16 := by omega
  rw [store, hplace, Memory.wrapWrite_mod, Memory.write_eq_wrapWrite hc]

end Loop

/-- The loop of `HEX_POSTSCRIPT`: `p` columns are left of the line. -/
def plainByte (upper : Bool) (cols : ℕ) : ℕ × List Char → UInt8 → ℕ × List Char
  | (p, fpo), byte =>
      let e := byte.toNat
      let fpo := fpo ++ [hexx upper (e >>> 4 &&& 0xf), hexx upper (e &&& 0xf)]
      if p - 1 = 0 then (cols, fpo ++ ['\n']) else (p - 1, fpo)

def plain (upper : Bool) (cols : ℕ) (bytes : List UInt8) : List Char :=
  let (p, fpo) := bytes.foldl (plainByte upper cols) (cols, [])
  if p < cols then fpo ++ ['\n'] else fpo

end Fip.Xxd
