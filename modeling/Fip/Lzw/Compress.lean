import Fip.Core.Machine
import Fip.Lzw.Uncompress

/-!
# compress

The encoder of `compress.c`.  It keeps the same pointer tables as the decoder
and looks a string up by building the string of every entry.
-/

namespace Fip.Lzw.Compress

/-- The room in front of the last byte of `st`, and in `st1`. -/
def strz : ℕ := 256

/-- The string of an entry, built backwards in front of `s`; `none` when it
runs out of the `room` bytes of the buffer. -/
def buildstr (ref : ℕ → ℕ) (app : ℕ → UInt8) : ℕ → ℕ → List UInt8 → Option (List UInt8)
  | 0, _, _ => none
  | room + 1, entry, s =>
      if entry < 256 then some (UInt8.ofNat entry :: s)
      else buildstr ref app room (ref entry) (app entry :: s)

structure Encoder where
  ref : ℕ → ℕ
  app : ℕ → UInt8
  counters : Counters
  w : ℕ
  source : Source
  sink : BitSink

namespace Encoder

def cleardict (e : Encoder) : Encoder :=
  { e with counters := .cleared }

/-- Add the next dictionary entry; `none` when the dictionary is full. -/
def adddict (mymaxbits : ℕ) (e : Encoder) (pref : ℕ) (suffix : UInt8) :
    Option Encoder :=
  if e.counters.nexti = 1 <<< e.counters.bits then
    if e.counters.bits < mymaxbits then
      some (write { e with counters.bits := e.counters.bits + 1 })
    else none
  else some (write e)
where
  write (e : Encoder) : Encoder :=
    { e with
      ref := Function.update e.ref e.counters.nexti pref
      app := Function.update e.app e.counters.nexti suffix
      counters.nexti := e.counters.nexti + 1 }

def outsym (e : Encoder) (s : ℕ) : Encoder :=
  { e with sink := BitSink.outsym e.counters.bits e.sink s }

/-- `for (h = 257; h < nexti; h++)`, with `left` entries to go. -/
def existLoop (e : Encoder) (s : List UInt8) : ℕ → ℕ → Option (Option ℕ)
  | 0, _ => some none
  | left + 1, h =>
      match buildstr e.ref e.app strz h [] with
      | none => none
      | some s1 => if s = s1 then some (some h) else e.existLoop s left (h + 1)

/-- The entry of the string of `pref` and `suffix`, if there is one. -/
def exist (e : Encoder) (pref : ℕ) (suffix : UInt8) : Option (Option ℕ) :=
  match buildstr e.ref e.app strz pref [] with
  | none => none
  | some s => e.existLoop (s ++ [suffix]) (e.counters.nexti - 257) 257

/-- The body of the main loop.  The result is `none` when `buildstr` has run
out of its buffer. -/
def byte (mymaxbits : ℕ) (e : Encoder) (ch : UInt8) :
    Encoder ⊕ Option (List UInt8) :=
  match e.exist e.w ch with
  | none => .inr none
  | some (some n) => .inl { e with w := n }
  | some none =>
      match e.adddict mymaxbits e.w ch with
      | none => .inl (e.outsym clear).cleardict
      | some added => .inl { added.outsym e.w with w := ch.toNat }

/-- `outsym(w)` and `flushbits` -/
def finish (e : Encoder) : List UInt8 :=
  (e.outsym e.w).sink.flushbits

end Encoder

/-- Once round the main loop; the result is what the program has written. -/
def step (mymaxbits : ℕ) (e : Encoder) : Encoder ⊕ Option (List UInt8) :=
  match e.source.inbyte with
  | (none, source) => .inr (some { e with source := source }.finish)
  | (some ch, source) => Encoder.byte mymaxbits { e with source := source } ch

/-- What the tables and the buffer hold before the first read. -/
structure Memory where
  ref : ℕ → ℕ
  app : ℕ → UInt8
  ibuf : List UInt8

/-- `\x1f\x9d` and `mymaxbits | 0x80` -/
def header (mymaxbits : ℕ) : List UInt8 :=
  magic ++ [UInt8.ofNat mymaxbits ||| 0x80]

/-- The encoder after `w = inbyte()`; -1 is 65535 in an unsigned variable. -/
def Memory.encoder (mymaxbits : ℕ) (memory : Memory) (reads : List Chunk) : Encoder :=
  let (ch, source) := (Source.start memory.ibuf reads).inbyte
  { ref := memory.ref
    app := memory.app
    counters := .cleared
    w := (ch.map UInt8.toNat).getD 65535
    source
    sink := .start (header mymaxbits) }

/-- `compress` and `flushbits`.  The loop takes a byte each time round, so this
fuel lasts. -/
def compress (mymaxbits : ℕ) (memory : Memory) (reads : List Chunk) :
    Option (List UInt8) :=
  (Machine.run (step mymaxbits) ((joined reads).length + 1)
    (memory.encoder mymaxbits reads)).join

end Fip.Lzw.Compress
