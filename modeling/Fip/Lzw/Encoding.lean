import Fip.Lzw.Refinement

/-!
# compress refines the string-dictionary encoder

As long as the dictionary of 255 entries does not run full, `compress` sends
the code words of the greedy encoder, nine bits each.
-/

namespace Fip.Lzw.Compress

open Dictionary

/-- Codes of nine bits each. -/
def nineBits (codes : List ℕ) : List Bool :=
  codes.flatMap (Bits.ofNat 9)

theorem nineBits_append (codes more : List ℕ) :
    nineBits (codes ++ more) = nineBits codes ++ nineBits more :=
  List.flatMap_append

theorem nineBits_concat (codes : List ℕ) (code : ℕ) :
    nineBits (codes ++ [code]) = nineBits codes ++ Bits.ofNat 9 code := by
  rw [nineBits_append, nineBits, nineBits, List.flatMap_singleton]

/-! ## Steps -/

theorem step_byte (mymaxbits : ℕ) {e : Encoder} {ch : UInt8} {rest : List UInt8}
    (hpending : e.source.pending = ch :: rest) :
    ∃ source : Source, source.pending = rest ∧
      step mymaxbits e = Encoder.byte mymaxbits { e with source := source } ch := by
  obtain ⟨hbyte, hrest⟩ := e.source.inbyte_spec
  rw [hpending] at hbyte hrest
  refine ⟨e.source.inbyte.2, hrest, ?_⟩
  rw [step]
  rcases hinbyte : e.source.inbyte with ⟨_ | c, source⟩
  · rw [hinbyte] at hbyte
    cases hbyte
  · rw [hinbyte] at hbyte
    cases hbyte
    rfl

theorem step_end (mymaxbits : ℕ) {e : Encoder} (hpending : e.source.pending = []) :
    step mymaxbits e = .inr (some e.finish) := by
  obtain ⟨hbyte, _⟩ := e.source.inbyte_spec
  rw [hpending] at hbyte
  rw [step]
  rcases hinbyte : e.source.inbyte with ⟨_ | c, source⟩
  · rfl
  · rw [hinbyte] at hbyte
    cases hbyte

theorem adddict_of_room {mymaxbits : ℕ} {e : Encoder}
    (hroom : e.counters.nexti ≠ 1 <<< e.counters.bits) (pref : ℕ) (suffix : UInt8) :
    e.adddict mymaxbits pref suffix = some (Encoder.adddict.write pref suffix e) := by
  rw [Encoder.adddict, if_neg hroom]

theorem adddict_of_full {mymaxbits : ℕ} {e : Encoder}
    (hfull : e.counters.nexti = 1 <<< e.counters.bits)
    (hbits : ¬ e.counters.bits < mymaxbits) (pref : ℕ) (suffix : UInt8) :
    e.adddict mymaxbits pref suffix = none := by
  rw [Encoder.adddict, if_pos hfull, if_neg hbits]

/-- `finish` fills the last byte up. -/
theorem unpack_finish (e : Encoder) :
    ∃ pad < 8, Bits.unpack e.finish =
      e.sink.bits ++ Bits.ofNat e.counters.bits e.w ++ List.replicate pad false := by
  obtain ⟨pad, hpad, hunpack⟩ := (e.outsym e.w).sink.unpack_flushbits
  refine ⟨pad, hpad, hunpack.trans ?_⟩
  rw [Encoder.outsym, BitSink.bits_outsym]

/-! ## The encoder and the dictionary -/

/-- The tables stand for the dictionary, and `w` for the pending word. -/
structure Follows (e : Encoder) (dict : List (List UInt8)) (word : List UInt8) :
    Prop where
  represents : Represents e.ref e.app dict
  nexti : e.counters.nexti = 257 + dict.length
  bits : e.counters.bits = 9
  usable : Usable dict.length e.w
  string_eq : string dict (symbol e.w) = word
  symbol_eq : symbol e.w = symbolOf dict word

section Follows

variable {e : Encoder} {dict : List (List UInt8)} {word : List UInt8}

theorem Follows.word_ne_nil (hfollows : Follows e dict word) : word ≠ [] := by
  rw [← hfollows.string_eq]
  exact hfollows.represents.string_ne_nil hfollows.usable

theorem Follows.exist (hfollows : Follows e dict word) (hsize : dict.length < strz)
    (ch : UInt8) :
    e.exist e.w ch = some (if word ++ [ch] ∈ dict then
      some (257 + dict.idxOf (word ++ [ch])) else none) := by
  rw [exist_spec hfollows.represents hfollows.nexti hsize hfollows.usable,
    hfollows.string_eq]

/-- The longer word is in the dictionary. -/
theorem Follows.byte_found (hfollows : Follows e dict word)
    (hsize : dict.length < strz) {ch : UInt8} (hfound : word ++ [ch] ∈ dict)
    (mymaxbits : ℕ) :
    e.byte mymaxbits ch = .inl { e with w := 257 + dict.idxOf (word ++ [ch]) } ∧
      Follows { e with w := 257 + dict.idxOf (word ++ [ch]) } dict (word ++ [ch]) := by
  have hlt := List.idxOf_lt_length_of_mem hfound
  have hlong : (word ++ [ch]).length ≠ 1 := by
    have := List.length_pos_iff.mpr hfollows.word_ne_nil
    rw [List.length_append, List.length_singleton]
    omega
  have hsymbol : symbol (257 + dict.idxOf (word ++ [ch])) =
      symbolOf dict (word ++ [ch]) := by
    rw [symbol_entry, symbolOf_of_length_ne_one dict hlong]
  constructor
  · rw [Encoder.byte, hfollows.exist hsize, if_pos hfound]
  · refine ⟨hfollows.represents, hfollows.nexti, hfollows.bits,
      .inr ⟨Nat.le_add_right _ _, Nat.add_lt_add_left hlt _⟩, ?_, hsymbol⟩
    exact (congrArg (string dict) hsymbol).trans (string_symbolOf (.inr hfound))

/-- The longer word is new, and there is room for it. -/
theorem Follows.byte_new (hfollows : Follows e dict word) (hsize : dict.length < 255)
    {ch : UInt8} (hnew : word ++ [ch] ∉ dict) (mymaxbits : ℕ) :
    ∃ e', e.byte mymaxbits ch = .inl e' ∧ e'.source = e.source ∧
      e'.sink.bits = e.sink.bits ++ Bits.ofNat 9 e.w ∧
      Follows e' (dict ++ [word ++ [ch]]) [ch] := by
  have hroom : e.counters.nexti ≠ 1 <<< e.counters.bits := by
    rw [hfollows.nexti, hfollows.bits]
    change _ ≠ 512
    omega
  have hbyte : ch.toNat < 256 := ch.toNat_lt
  have hletter : symbol ch.toNat = .literal ch := by
    rw [symbol_of_lt hbyte, UInt8.ofNat_toNat]
  refine ⟨{ (Encoder.adddict.write e.w ch e).outsym e.w with w := ch.toNat },
    ?_, rfl, ?_, ?_, ?_, hfollows.bits, .inl hbyte, ?_, hletter⟩
  · have hsize' : dict.length < strz := Nat.lt_succ_of_lt hsize
    rw [Encoder.byte, hfollows.exist hsize', if_neg hnew]
    dsimp only
    rw [adddict_of_room hroom]
  · change (BitSink.outsym e.counters.bits e.sink e.w).bits = _
    rw [BitSink.bits_outsym, hfollows.bits]
  · have hextend := hfollows.represents.extend hfollows.usable ch
    rw [hfollows.string_eq, ← hfollows.nexti] at hextend
    exact hextend
  · change e.counters.nexti + 1 = _
    rw [hfollows.nexti, List.length_append, List.length_singleton]
    rfl
  · exact congrArg (string _) hletter

theorem Follows.of_source (hfollows : Follows e dict word) (source : Source) :
    Follows { e with source := source } dict word :=
  ⟨hfollows.represents, hfollows.nexti, hfollows.bits, hfollows.usable,
    hfollows.string_eq, hfollows.symbol_eq⟩

/-- Once round the loop with a longer word that is in the dictionary. -/
theorem Follows.step_found (hfollows : Follows e dict word) (hsize : dict.length < strz)
    {ch : UInt8} {rest : List UInt8} (hpending : e.source.pending = ch :: rest)
    (hfound : word ++ [ch] ∈ dict) (mymaxbits : ℕ) :
    ∃ e', step mymaxbits e = .inl e' ∧ e'.source.pending = rest ∧ e'.sink = e.sink ∧
      Follows e' dict (word ++ [ch]) := by
  obtain ⟨source, hrest, hstep⟩ := step_byte mymaxbits hpending
  obtain ⟨hbyte, hafter⟩ := (hfollows.of_source source).byte_found hsize hfound mymaxbits
  exact ⟨_, hstep.trans hbyte, hrest, rfl, hafter⟩

/-- Once round the loop with one that is new. -/
theorem Follows.step_new (hfollows : Follows e dict word) (hsize : dict.length < 255)
    {ch : UInt8} {rest : List UInt8} (hpending : e.source.pending = ch :: rest)
    (hnew : word ++ [ch] ∉ dict) (mymaxbits : ℕ) :
    ∃ e', step mymaxbits e = .inl e' ∧ e'.source.pending = rest ∧
      e'.sink.bits = e.sink.bits ++ Bits.ofNat 9 e.w ∧
      Follows e' (dict ++ [word ++ [ch]]) [ch] := by
  obtain ⟨source, hrest, hstep⟩ := step_byte mymaxbits hpending
  obtain ⟨e', hbyte, hsource, hsink, hafter⟩ :=
    (hfollows.of_source source).byte_new hsize hnew mymaxbits
  exact ⟨e', hstep.trans hbyte, (congrArg Source.pending hsource).trans hrest, hsink, hafter⟩

end Follows

/-! ## Runs without a `CLEAR` -/

/-- The codes sent and the code words to come are those of the greedy
encoder. -/
def Encodes (before : List Bool) (symbols : List (Symbol UInt8)) (e : Encoder) : Prop :=
  ∃ dict word codes, Follows e dict word ∧
    e.sink.bits = before ++ nineBits codes ∧
    codes.map symbol ++ encode dict word e.source.pending = symbols ∧
    dict.length + (encode dict word e.source.pending).length ≤ 256

/-- What the output is then. -/
def Encoded (before : List Bool) (symbols : List (Symbol UInt8))
    (result : Option (List UInt8)) : Prop :=
  ∃ bytes codes pad, result = some bytes ∧ pad < 8 ∧
    Bits.unpack bytes = before ++ nineBits codes ++ List.replicate pad false ∧
    codes.map symbol = symbols

theorem Encodes.step {before : List Bool} {symbols : List (Symbol UInt8)}
    {e : Encoder} (hencodes : Encodes before symbols e) (mymaxbits : ℕ) :
    Machine.Advances (Encodes before symbols) (Encoded before symbols)
      (·.source.pending.length) e.source.pending.length (step mymaxbits e) := by
  obtain ⟨dict, word, codes, hfollows, hbits, hsymbols, hsize⟩ := hencodes
  rcases hpending : e.source.pending with _ | ⟨ch, rest⟩
  · rw [step_end mymaxbits hpending]
    obtain ⟨pad, hpad, hunpack⟩ := unpack_finish e
    refine ⟨e.finish, codes ++ [e.w], pad, rfl, hpad, ?_, ?_⟩
    · rw [hunpack, hbits, hfollows.bits, nineBits_concat, List.append_assoc before]
    · rw [hpending, encode] at hsymbols
      rw [← hsymbols, List.map_append, List.map_singleton, hfollows.symbol_eq]
  · rw [hpending, encode] at hsymbols hsize
    by_cases hfound : word ++ [ch] ∈ dict
    · rw [if_pos hfound] at hsymbols hsize
      have hpos : 0 < (encode dict (word ++ [ch]) rest).length := by
        rw [length_encode]
        exact length_phrases_pos _ _ _
      have hroom : dict.length < strz := Nat.lt_of_lt_of_le (by omega) hsize
      obtain ⟨e', hstep, hrest, hsink, hafter⟩ :=
        hfollows.step_found hroom hpending hfound mymaxbits
      rw [hstep]
      refine ⟨⟨dict, _, codes, hafter, hsink ▸ hbits, ?_, ?_⟩, ?_⟩
      · rw [hrest, hsymbols]
      · rw [hrest]
        exact hsize
      · exact (congrArg List.length hrest).trans_lt (Nat.lt_succ_self _)
    · rw [if_neg hfound] at hsymbols hsize
      have hpos : 0 < (encode (dict ++ [word ++ [ch]]) [ch] rest).length := by
        rw [length_encode]
        exact length_phrases_pos _ _ _
      rw [List.length_cons] at hsize
      obtain ⟨e', hstep, hrest, hsink, hafter⟩ :=
        hfollows.step_new (by omega) hpending hfound mymaxbits
      rw [hstep]
      refine ⟨⟨_, _, codes ++ [e.w], hafter, ?_, ?_, ?_⟩, ?_⟩
      · rw [hsink, nineBits_concat, ← List.append_assoc, hbits]
      · rw [← hsymbols, hrest, List.map_append, List.map_singleton, hfollows.symbol_eq,
          List.append_assoc]
        rfl
      · rw [hrest, List.length_append, List.length_singleton]
        omega
      · exact (congrArg List.length hrest).trans_lt (Nat.lt_succ_self _)

end Fip.Lzw.Compress
