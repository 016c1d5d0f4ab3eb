import Fip.Core.ByteFile
import Mathlib.Algebra.Order.Ring.Int
import Mathlib.Data.UInt

/-!
# Reverting a hexdump

`huntype` reads a dump character by character and writes the bytes that it finds, each at
the place that the offset of its line says.  Its input is a list of characters; its output
is a file, or a pipe, which only differs in that it cannot seek.  Errors of stdio are left
out.
-/

namespace Fip.Xxd

open Fip.ByteFile

/-- The hextypes of xxd. -/
inductive HexType
  | normal | postscript | cinclude | bits | littleEndian
  deriving DecidableEq, Repr

/-- The value of a digit; `none` is the -1 of the source. -/
def nibble (c : Char) : Option ℕ :=
  if '0' ≤ c ∧ c ≤ '9' then some (c.toNat - '0'.toNat)
  else if 'a' ≤ c ∧ c ≤ 'f' then some (c.toNat - 'a'.toNat + 10)
  else if 'A' ≤ c ∧ c ≤ 'F' then some (c.toNat - 'A'.toNat + 10)
  else none

/-- A `long` has 32 bits. -/
def long (value : ℤ) : ℤ := value.bmod (2 ^ 32)

/-- The variables of `huntype`, and the output.  `haveOff` is also the position in the
output.  While `skipping`, one of the loops reads up to the end of the line. -/
structure Hunt where
  ignGarb : Bool
  n1 : Option ℕ
  n2 : Option ℕ
  p : ℕ
  haveOff : ℕ
  wantOff : ℤ
  skipping : Bool
  fpo : List UInt8
  deriving DecidableEq

def Hunt.init (cols : ℕ) (fpo : List UInt8) : Hunt where
  ignGarb := true
  n1 := none
  n2 := some 0
  p := cols
  haveOff := 0
  wantOff := 0
  skipping := false
  fpo := fpo

section Loop

variable (seekable : Bool) (cols : ℕ) (hextype : HexType) (baseOff : ℤ)

/-- The output in front of the next byte: behind a seek, or with zeros up to there; it may
be too late. -/
def advance (haveOff : ℕ) (fpo : List UInt8) (place : ℤ) : Option (List UInt8) :=
  if place = haveOff then some fpo
  else if seekable ∧ 0 ≤ place then some fpo
  else if place < haveOff then none
  else some (pwrite fpo haveOff (List.replicate (place.toNat - haveOff) 0))

/-- `putc((n2 << 4) | n1, fpo)` and what follows. -/
def putByte (h : Hunt) (hi lo : ℕ) : Hunt :=
  let h := { h with
    fpo := pwrite h.fpo h.haveOff [UInt8.ofNat (hi <<< 4 ||| lo)]
    haveOff := h.haveOff + 1
    wantOff := long (h.wantOff + 1)
    n1 := none
    p := h.p + 1 }
  if h.p ≥ cols ∧ hextype = .normal then
    -- skip rest of line as garbage
    { h with wantOff := 0, skipping := true, ignGarb := true }
  else h

/-- The body of the loop for a character.  It returns in the middle where it cannot seek
backwards. -/
def huntStep (h : Hunt) (c : Char) : Except Hunt Hunt :=
  if h.skipping then .ok { h with skipping := c ≠ '\n' }
  else if c = '\r' then .ok h
  else if hextype = .postscript ∧ (c = ' ' ∨ c = '\n' ∨ c = '\t') then .ok h
  else
    let n3 := h.n2
    let n2 := h.n1
    let n1 := nibble c
    let h := { h with n1 := n1, n2 := n2 }
    if n1 = none ∧ h.ignGarb then .ok h
    else
      let h := { h with ignGarb := false }
      if h.p ≥ cols ∧ hextype = .normal then
        match n1 with
        | none => .ok { h with p := 0 }
        | some digit => .ok { h with wantOff := long (h.wantOff * 16 + digit) }
      else
        let h := { h with p := if h.p ≥ cols then 0 else h.p }
        let place := long (baseOff + h.wantOff)
        match advance seekable h.haveOff h.fpo place with
        | none => .error h
        | some fpo =>
            let h := { h with haveOff := place.toNat, fpo := fpo }
            match n1, n2, n3 with
            | some lo, some hi, _ => .ok (putByte cols hextype h hi lo)
            | none, none, none =>
                -- already stumbled into garbage, skip line, wait and see
                .ok { h with
                  wantOff := if hextype = .normal then 0 else h.wantOff
                  skipping := true
                  ignGarb := true }
            | _, _, _ => .ok h

/-- What is returned, and the output. -/
def huntype (text : List Char) (fpo : List UInt8) : ℕ × List UInt8 :=
  match text.foldlM (huntStep seekable cols hextype baseOff) (.init cols fpo) with
  | .error h => (5, h.fpo)
  | .ok h => (0, h.fpo)

end Loop

end Fip.Xxd
