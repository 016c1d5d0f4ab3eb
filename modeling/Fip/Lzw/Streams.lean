import Fip.Lzw.BitIo

/-!
# The bit streams of compress and uncompress match

A sequence of symbols, each with its own width, goes through `outsym` and
`flushbits` into bytes, and through `inbyte` and `getsym` back.  What is left
of the last byte is shorter than any symbol.
-/

namespace Fip.Lzw

/-- A symbol, and what `bits` is set to before the call. -/
structure Sym where
  bits : ℕ
  s : ℕ
  wide : 9 ≤ bits
  narrow : bits ≤ 14
  fits : s < 2 ^ bits

/-- The bits of the symbols, the least significant one of each first. -/
def Sym.stream (symbols : List Sym) : List Bool :=
  symbols.flatMap fun symbol => Bits.ofNat symbol.bits symbol.s

namespace BitSink

/-- One call of `outsym` for each symbol. -/
def outsyms : BitSink → List Sym → BitSink
  | sink, [] => sink
  | sink, symbol :: symbols => outsyms (outsym symbol.bits sink symbol.s) symbols

theorem bits_outsyms (sink : BitSink) (symbols : List Sym) :
    (sink.outsyms symbols).bits = sink.bits ++ Sym.stream symbols := by
  induction symbols generalizing sink with
  | nil => exact (List.append_nil _).symm
  | cons symbol symbols ih =>
      rw [outsyms, ih, bits_outsym, List.append_assoc]
      rfl

/-- What a file of the symbols holds, up to the padding of its last byte. -/
theorem unpack_outsyms (symbols : List Sym) :
    ∃ pad < 8, Bits.unpack ((start []).outsyms symbols).flushbits =
      Sym.stream symbols ++ List.replicate pad false := by
  obtain ⟨pad, hpad, hbits⟩ := unpack_flushbits ((start []).outsyms symbols)
  refine ⟨pad, hpad, ?_⟩
  rw [hbits, bits_outsyms, bits_start, Bits.unpack_nil, List.nil_append]

end BitSink

namespace BitSource

/-- The globals of uncompress before the first `getsym`. -/
def start (ibuf : List UInt8) (reads : List Chunk) : BitSource where
  num := 0
  c := 0
  eof := false
  source := .start ibuf reads

@[simp]
theorem bits_start (ibuf : List UInt8) (reads : List Chunk) :
    (start ibuf reads).bits = Bits.unpack (joined reads) := rfl

/-- One call of `getsym` for each width. -/
def getsyms : BitSource → List ℕ → List ℕ × BitSource
  | s, [] => ([], s)
  | s, width :: widths =>
      let (symbol, s) := s.getsym width
      let (symbols, s) := getsyms s widths
      (symbol :: symbols, s)

/-- The calls of `getsym` cut the symbols off the bits one after the other, and
none of them meets the end of the file. -/
theorem getsyms_stream {input : BitSource} (symbols : List Sym) {rest : List Bool}
    (hbits : input.bits = Sym.stream symbols ++ rest) :
    (input.getsyms (symbols.map Sym.bits)).1 = symbols.map Sym.s ∧
      (input.getsyms (symbols.map Sym.bits)).2.bits = rest ∧
      (input.getsyms (symbols.map Sym.bits)).2.eof = input.eof := by
  induction symbols generalizing input with
  | nil => exact ⟨rfl, hbits, rfl⟩
  | cons symbol symbols ih =>
      have hfirst : input.bits =
          Bits.ofNat symbol.bits symbol.s ++ (Sym.stream symbols ++ rest) := by
        rw [hbits, Sym.stream, List.flatMap_cons, List.append_assoc]
        rfl
      obtain ⟨hsymbol, hnext, heof⟩ := getsym_packed hfirst symbol.fits
      obtain ⟨hsymbols, hrest, hend⟩ := ih hnext
      refine ⟨?_, hrest, hend.trans heof⟩
      rw [List.map_cons, List.map_cons, getsyms]
      exact congrArg₂ List.cons hsymbol hsymbols

/-- Fewer bits than a symbol has are left, and `getsym` notices. -/
theorem eof_getsym_short {input : BitSource} {width : ℕ}
    (hshort : input.bits.length < width) : (input.getsym width).2.eof = true := by
  obtain ⟨_, _, heof⟩ := input.getsym_spec width
  rw [heof, decide_eq_true hshort, Bool.or_true]

/-- The symbols that `outsym` and `flushbits` write are the symbols that
`getsym` reads, however the reads are cut, and the padding of the last byte is
too short to be taken for one more. -/
theorem getsyms_outsyms (symbols : List Sym) (ibuf : List UInt8) (reads : List Chunk)
    (hreads : joined reads = ((BitSink.start []).outsyms symbols).flushbits) :
    let result := (start ibuf reads).getsyms (symbols.map Sym.bits)
    result.1 = symbols.map Sym.s ∧ result.2.eof = false ∧
      ∀ width, 9 ≤ width → (result.2.getsym width).2.eof = true := by
  intro result
  obtain ⟨pad, hpad, hfile⟩ := BitSink.unpack_outsyms symbols
  have hbits : (start ibuf reads).bits =
      Sym.stream symbols ++ List.replicate pad false := by
    rw [bits_start, hreads, hfile]
  obtain ⟨hsymbols, hrest, heof⟩ := getsyms_stream symbols hbits
  refine ⟨hsymbols, heof, fun width hwidth => eof_getsym_short ?_⟩
  calc result.2.bits.length
      = (List.replicate pad false).length := congrArg List.length hrest
    _ = pad := List.length_replicate
    _ < 9 := Nat.lt_succ_of_lt hpad
    _ ≤ width := hwidth

/-- Two symbols that straddle the bytes of the file, and reads of one byte. -/
theorem getsyms_outsyms_two :
    let symbols : List Sym :=
      [⟨9, 257, by decide, by decide, by decide⟩, ⟨14, 9000, by decide, by decide, by decide⟩]
    let reads := bytewise ((BitSink.start []).outsyms symbols).flushbits
    let result := (start [] reads).getsyms [9, 14]
    result.1 = [257, 9000] ∧ result.2.eof = false ∧
      ∀ width, 9 ≤ width → (result.2.getsym width).2.eof = true := by
  intro symbols reads
  exact getsyms_outsyms symbols [] reads (joined_bytewise _)

end BitSource

end Fip.Lzw
