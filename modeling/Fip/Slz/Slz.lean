import Fip.Core.Machine
import Mathlib.Data.Int.Notation
import Mathlib.Logic.Function.Basic

/-!
# The SLZ packer and unpacker

`PackSLZ` and `UnPackSLZ` of `slz.c`, compiled without hashing.  A tag byte
announces for the eight items behind it which are literal bytes and which are
pairs of bytes that stand for a match.  The match loop compares bytes behind
the end of the buffer, too: what it finds there is the parameter `past`, and may
be different for each position that is packed.
-/

namespace Fip.Slz

def HISTORY_SIZE : ℕ := 4096
def MASK_history : ℕ := HISTORY_SIZE - 1
def MASK_upper : ℕ := 0xF0
def MASK_lower : ℕ := 0x0F
def SHIFT_UPPER : ℕ := 16
def LSR_upper : ℕ := 4
def MAX_COMP_LEN : ℕ := 17

/-! ## Packing -/

section Pack

variable (inbuffer : List UInt8) (past : ℕ → ℕ → UInt8)

/-- The byte at an index, seen while the one at `loop1` is packed. -/
def byteAt (loop1 index : ℕ) : UInt8 :=
  inbuffer.getD index (past loop1 index)

/-- The number of equal bytes from `a` and `b` on, up to `rounds`, on top of `temp`. -/
def matchLength (buffer : ℕ → UInt8) : ℕ → ℕ → ℕ → ℕ → ℕ
  | _, _, temp, 0 => temp
  | a, b, temp, rounds + 1 =>
      if buffer a = buffer b then matchLength buffer (a + 1) (b + 1) (temp + 1) rounds
      else temp

/-- `found` and `wherefound`; the positions from `startvalue` on are tried, the last of
the `count` first. -/
def scan (loop1 startvalue : ℕ) : ℕ → ℕ × ℕ → ℕ × ℕ
  | 0, best => best
  | count + 1, (found, wherefound) =>
      let endvalue := startvalue + count
      let temp := matchLength (byteAt inbuffer past loop1) loop1 endvalue 0 MAX_COMP_LEN
      if found < temp then
        let best :=
          if temp + loop1 > inbuffer.length then
            let temp := inbuffer.length - loop1
            if found < temp then (temp, endvalue) else (found, wherefound)
          else (temp, endvalue)
        if best.1 = MAX_COMP_LEN then best else scan loop1 startvalue count best
      else scan loop1 startvalue count (found, wherefound)

/-- The variables of the packer.  `outchars` holds the items of the group; the place of
the tag in front of them is not in the list. -/
structure Packer where
  loop1 : ℕ
  loop2 : ℤ
  iter : ℕ
  myTAG : ℕ
  outchars : List UInt8
  done : Bool
  outfile : List UInt8

/-- The two bytes of a match. -/
def matchBytes (distance found : ℕ) : List UInt8 :=
  [UInt8.ofNat (((distance >>> LSR_upper) &&& MASK_upper) + (found - 2)), UInt8.ofNat distance]

/-- One item: a match that is worth it, or a literal byte. -/
def packItem (p : Packer) : Packer :=
  let startvalue := p.loop1 - MASK_history
  let (found, wherefound) :=
    scan inbuffer past p.loop1 startvalue (p.loop1 - startvalue) (0, 0)
  let p :=
    if found > 2 then
      { p with
        myTAG := p.myTAG ||| 128 >>> p.iter
        outchars := p.outchars ++ matchBytes (p.loop1 - wherefound) found
        loop1 := p.loop1 + found
        loop2 := p.loop2 - found }
    else
      { p with
        outchars := p.outchars ++ [inbuffer.getD p.loop1 0]
        loop1 := p.loop1 + 1
        loop2 := p.loop2 - 1 }
  { p with done := decide (p.loop2 ≤ 0), iter := p.iter + 1 }

/-- The end of a group, when the input has not come to its end. -/
def packGroup (p : Packer) : Packer :=
  { p with
    outfile := p.outfile ++ UInt8.ofNat p.myTAG :: p.outchars
    outchars := []
    iter := 0
    myTAG := 0 }

/-- The two loops of the packer. -/
def packStep (p : Packer) : Packer ⊕ Packer :=
  if p.done then .inr p
  else if p.iter < 8 then .inl (packItem inbuffer past p)
  else .inl (packGroup p)

/-- The last group and the mark of the end. -/
def packEnd (p : Packer) : List UInt8 :=
  if p.iter = 8 then p.outfile ++ UInt8.ofNat p.myTAG :: (p.outchars ++ [255, 0, 0])
  else p.outfile ++ UInt8.ofNat (p.myTAG ||| 128 >>> p.iter) :: (p.outchars ++ [0, 0])

/-- The first byte is always a literal. -/
def packStart : Packer where
  loop1 := 1
  loop2 := inbuffer.length - 1
  iter := 1
  myTAG := 0
  outchars := [inbuffer.getD 0 0]
  done := false
  outfile := []

/-- The bytes that are written; `none` when the fuel is short. -/
def packSLZ (fuel : ℕ) : Option (List UInt8) :=
  (Machine.run (packStep inbuffer past) fuel (packStart inbuffer)).map packEnd

end Pack

/-! ## Unpacking -/

/-- The variables of the unpacker; `loop1` is eight behind a group. -/
structure Unpacker where
  inbuffer : List UInt8
  myTAG : UInt16
  loop1 : ℕ
  history : ℕ → UInt8
  lzhistOffset : ℕ
  outfile : List UInt8

def writechar (u : Unpacker) (outchar : UInt8) : Unpacker :=
  { u with
    outfile := u.outfile ++ [outchar]
    history := Function.update u.history u.lzhistOffset outchar
    lzhistOffset := (u.lzhistOffset + 1) &&& MASK_history }

/-- The loop on `mycount`. -/
def copyOut (myoffset : ℕ) : ℕ → Unpacker → Unpacker
  | 0, u => u
  | mycount + 1, u =>
      copyOut myoffset mycount
        (writechar u (u.history ((u.lzhistOffset + myoffset) &&& MASK_history)))

/-- The end of an item. -/
def nextItem (u : Unpacker) : Unpacker :=
  { u with myTAG := u.myTAG + u.myTAG, loop1 := u.loop1 + 1 }

/-- A tag or an item; `none` where the input is read past its end. -/
def unpackStep (u : Unpacker) : Unpacker ⊕ Option (List UInt8) :=
  if u.loop1 = 8 then
    match u.inbuffer with
    | [] => .inr none
    | tag :: inbuffer => .inl { u with inbuffer := inbuffer, myTAG := tag.toUInt16, loop1 := 0 }
  else if u.myTAG &&& 0x80 ≠ 0 then
    match u.inbuffer with
    | [] => .inr none
    | 0 :: _ => .inr (some u.outfile)
    | [_] => .inr none
    | mycount :: low :: inbuffer =>
        let myoffset := HISTORY_SIZE - ((MASK_upper &&& mycount.toNat) * SHIFT_UPPER + low.toNat)
        let mycount := (mycount.toNat &&& MASK_lower) + 2
        .inl (nextItem (copyOut myoffset mycount { u with inbuffer := inbuffer }))
  else
    match u.inbuffer with
    | [] => .inr none
    | literal :: inbuffer => .inl (nextItem (writechar { u with inbuffer := inbuffer } literal))

/-- The bytes that are written, with what is left of an earlier run in the history. -/
def unPackSLZ (fuel : ℕ) (history : ℕ → UInt8) (lzhistOffset : ℕ) (inbuffer : List UInt8) :
    Option (List UInt8) :=
  (Machine.run unpackStep fuel
    { inbuffer := inbuffer
      myTAG := 0
      loop1 := 8
      history := history
      lzhistOffset := lzhistOffset
      outfile := [] }).join

end Fip.Slz
