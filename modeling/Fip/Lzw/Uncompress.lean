import Fip.Core.Machine
import Fip.Lzw.BitIo

/-!
# uncompress

The decoder of `uncompress.c`: the pointer tables `ref` and `app`, the counters
`nexti` and `bits`, and the main loop.  A log records which cells of the tables
are read and written between two resets of the dictionary; nothing in the
program depends on it.
-/

namespace Fip.Lzw

/-- `CLEAR` -/
def clear : ℕ := 256

/-- Bytes that the header starts with. -/
def magic : List UInt8 := [0x1f, 0x9d]

/-- The next free entry and the width of a code. -/
structure Counters where
  nexti : ℕ
  bits : ℕ
  deriving DecidableEq

/-- What `cleardict` sets. -/
def Counters.cleared : Counters where
  nexti := 257
  bits := 9

namespace Uncompress

/-- What `adddict` does to the counters. -/
def advance (mymaxbits : ℕ) (counters : Counters) : Counters :=
  if counters.nexti = 1 <<< counters.bits then counters
  else
    let nexti := counters.nexti + 1
    if nexti ≥ 1 <<< counters.bits ∧ counters.bits < mymaxbits then
      ⟨nexti, counters.bits + 1⟩
    else
      ⟨nexti, counters.bits⟩

inductive Cell where
  | ref (sym : ℕ)
  | app (sym : ℕ)
  deriving DecidableEq

inductive Access where
  | reset
  | write (cell : Cell)
  | read (cell : Cell)
  deriving DecidableEq

/-- The cells written since the last reset; `none` when a cell was read that is
not one of them. -/
def track : List Cell → List Access → Option (List Cell)
  | cells, [] => some cells
  | _, .reset :: log => track [] log
  | cells, .write cell :: log => track (cell :: cells) log
  | cells, .read cell :: log => if cell ∈ cells then track cells log else none

/-- `prev` is `none` at the label `again`, where no code has been read since
the dictionary was cleared. -/
structure Decoder where
  ref : ℕ → ℕ
  app : ℕ → UInt8
  counters : Counters
  prev : Option ℕ
  output : Sink
  log : List Access

/-- How the program ends.  `endless` is a recursion of `printsym` or `first`
that does not end. -/
inductive Status where
  | returned
  | aborted (message : String)
  | endless
  deriving DecidableEq

structure Result where
  status : Status
  written : List UInt8
  log : List Access

/-- The recursions take a code at each call, and a code is 16 bits wide: if one
is this deep, it has met a code twice. -/
def codeSpace : ℕ := 2 ^ 16

namespace Decoder

def read (d : Decoder) (cell : Cell) : Decoder :=
  { d with log := d.log ++ [.read cell] }

def outbyte (d : Decoder) (c : UInt8) : Decoder :=
  { d with output := d.output.outbyte c }

/-- `outflush(); return 0` or, after it, `exit(1)` -/
def stop (d : Decoder) (status : Status) : Result where
  status := status
  written := d.output.outflush.written
  log := d.log

def cleardict (d : Decoder) : Decoder :=
  { d with counters := .cleared, log := d.log ++ [.reset] }

def printsym : ℕ → Decoder → ℕ → Option Decoder
  | fuel, d, sym =>
      if sym < 256 then some (d.outbyte (UInt8.ofNat sym))
      else
        match fuel with
        | 0 => none
        | fuel + 1 =>
            match printsym fuel (d.read (.ref sym)) (d.ref sym) with
            | none => none
            | some d => some ((d.read (.app sym)).outbyte (d.app sym))

/-- The first character of the string of a code. -/
def first : ℕ → Decoder → ℕ → Option (UInt8 × Decoder)
  | fuel, d, sym =>
      if sym < 256 then some (UInt8.ofNat sym, d)
      else
        match fuel with
        | 0 => none
        | fuel + 1 => first fuel (d.read (.ref sym)) (d.ref sym)

/-- Add the next dictionary entry; nothing when the dictionary is full. -/
def adddict (mymaxbits : ℕ) (d : Decoder) (pref : ℕ) (suffix : UInt8) : Decoder :=
  if d.counters.nexti = 1 <<< d.counters.bits then d
  else
    { d with
      ref := Function.update d.ref d.counters.nexti pref
      app := Function.update d.app d.counters.nexti suffix
      counters := advance mymaxbits d.counters
      log := d.log ++ [.write (.ref d.counters.nexti), .write (.app d.counters.nexti)] }

/-- What the main loop does with a code, at the label `again` or in the loop
behind it. -/
def code (mymaxbits : ℕ) (d : Decoder) (cur : ℕ) : Decoder ⊕ Result :=
  match d.prev with
  | none =>
      match d.printsym codeSpace cur with
      | none => .inr (d.stop .endless)
      | some d => .inl { d with prev := some cur }
  | some prev =>
      if cur > d.counters.nexti then .inr (d.stop (.aborted "Bad input stream"))
      else if cur = clear then .inl { d.cleardict with prev := none }
      else
        let sym := if cur = d.counters.nexti then prev else cur
        match d.first codeSpace sym with
        | none => .inr (d.stop .endless)
        | some (suffix, d) =>
            match (d.adddict mymaxbits prev suffix).printsym codeSpace cur with
            | none => .inr (d.stop .endless)
            | some d => .inl { d with prev := some cur }

end Decoder

/-- Once round the main loop. -/
def step (mymaxbits : ℕ) (s : BitSource × Decoder) : (BitSource × Decoder) ⊕ Result :=
  let (input, d) := s
  match d.prev with
  | none =>
      let (prev, input) := input.getsym d.counters.bits
      (d.code mymaxbits prev).map (input, ·) id
  | some _ =>
      if input.eof then .inr (d.stop .returned)
      else
        let (cur, input) := input.getsym d.counters.bits
        if input.eof then .inr (d.stop .returned)
        else (d.code mymaxbits cur).map (input, ·) id

/-- The main loop takes a bit at least each time round, so this fuel lasts. -/
def mainLoop (mymaxbits : ℕ) (input : BitSource) (d : Decoder) : Option Result :=
  Machine.run (step mymaxbits) (input.bits.length + 3) (input, d)

/-- What the variables hold before the first read. -/
structure Memory where
  ref : ℕ → ℕ
  app : ℕ → UInt8
  ibuf : List UInt8
  c : UInt8

def Memory.decoder (memory : Memory) : Decoder where
  ref := memory.ref
  app := memory.app
  counters := .cleared
  prev := none
  output := .start []
  log := [.reset]

def Memory.input (memory : Memory) (reads : List Chunk) : BitSource where
  num := 0
  c := memory.c
  eof := false
  source := .start memory.ibuf reads

def abort (message : String) : Result where
  status := .aborted message
  written := []
  log := []

/-- `decompress`; the first read, of three bytes, delivers `header`. -/
def decompress (mymaxbits : ℕ) (memory : Memory) (header : List UInt8)
    (reads : List Chunk) : Option Result :=
  if header.length < 3 ∨ header.take 2 ≠ magic then
    some (abort "Bad id in header")
  else
    let maxbits := (header.getD 2 0 &&& 0x1f).toNat
    if maxbits > mymaxbits then some (abort "Out of Memory")
    else mainLoop mymaxbits (memory.input reads) memory.decoder

end Uncompress

end Fip.Lzw
