import Fip.Lzw.Encoding

/-!
# compress and uncompress

Inputs whose greedy parse has at most 256 phrases come back.  Longer ones go
through the branch that clears the dictionary, which drops the byte it has
read: whatever is decoded is too short.
-/

namespace Fip.Lzw

open Dictionary Compress Uncompress

/-- Every output of `compress` on `x` is decoded to `x`, whatever the memory of
both programs holds and however their reads are cut. -/
def RoundTrips (x : List UInt8) : Prop :=
  ∀ (writer : Compress.Memory) (reads : List Chunk), joined reads = x →
    ∃ bytes, compress 9 writer reads = some bytes ∧
      ∀ mymaxbits, 9 ≤ mymaxbits → mymaxbits ≤ 14 →
      ∀ (reader : Uncompress.Memory) (reads' : List Chunk),
        joined reads' = bytes.drop 3 →
        ∃ log, decompress mymaxbits reader (bytes.take 3) reads' =
          some ⟨.returned, x, log⟩

/-! ## Inputs without a `CLEAR` -/

/-- The first byte is read before the loop. -/
theorem encoder_start (memory : Compress.Memory) {reads : List Chunk} {a : UInt8}
    {rest : List UInt8} (hreads : joined reads = a :: rest) :
    (memory.encoder 9 reads).source.pending = rest ∧
      (memory.encoder 9 reads).w = a.toNat ∧
      (memory.encoder 9 reads).sink.bits = Bits.unpack (header 9) := by
  obtain ⟨hbyte, hrest⟩ := (Source.start memory.ibuf reads).inbyte_spec
  rw [Source.pending_start, hreads] at hbyte hrest
  refine ⟨hrest, ?_, BitSink.bits_start _⟩
  change (((Source.start memory.ibuf reads).inbyte.1).map UInt8.toNat).getD 65535 = _
  rw [hbyte]
  rfl

theorem follows_start (memory : Compress.Memory) {reads : List Chunk} {a : UInt8}
    {rest : List UInt8} (hreads : joined reads = a :: rest) :
    Follows (memory.encoder 9 reads) [] [a] := by
  obtain ⟨_, hw, _⟩ := encoder_start memory hreads
  have hsymbol : symbol (memory.encoder 9 reads).w = .literal a := by
    rw [hw, symbol_of_lt a.toNat_lt, UInt8.ofNat_toNat]
  refine ⟨represents_nil, rfl, rfl, ?_, ?_, hsymbol⟩
  · rw [hw]
    exact .inl a.toNat_lt
  · rw [hsymbol]
    rfl

theorem compress_encoded (memory : Compress.Memory) {reads : List Chunk} {a : UInt8}
    {rest : List UInt8} (hreads : joined reads = a :: rest)
    (hshort : (parse (a :: rest)).length ≤ 256) :
    Encoded (Bits.unpack (header 9)) (encode [] [a] rest)
      (compress 9 memory reads) := by
  obtain ⟨hpending, _, hbits⟩ := encoder_start memory hreads
  have hstart : Encodes (Bits.unpack (header 9)) (encode [] [a] rest)
      (memory.encoder 9 reads) := by
    refine ⟨[], [a], [], follows_start memory hreads, ?_, ?_, ?_⟩
    · rw [hbits]
      exact (List.append_nil _).symm
    · rw [hpending]
      rfl
    · rw [hpending, length_encode, List.length_nil, Nat.zero_add]
      exact hshort
  obtain ⟨result, hrun, hencoded⟩ := Machine.run_total
    (fun e hencodes => hencodes.step 9) hstart
    (show (memory.encoder 9 reads).source.pending.length <
      (joined reads).length + 1 by rw [hpending, hreads, List.length_cons]; omega)
  rw [compress, hrun]
  exact hencoded

theorem lt_of_symbol_literal {code : ℕ} {a : UInt8} (hsymbol : symbol code = .literal a) :
    code < 256 := by
  by_contra hlarge
  rw [symbol, if_neg hlarge] at hsymbol
  split at hsymbol <;> cases hsymbol

theorem eq_of_symbol_entry {code index : ℕ} (hsymbol : symbol code = .entry index) :
    code = 257 + index := by
  rw [symbol] at hsymbol
  split at hsymbol
  · cases hsymbol
  · split at hsymbol
    · cases hsymbol
    · next hlarge hne =>
        have hindex := Symbol.entry.inj hsymbol
        rw [clear] at hne
        omega

theorem code_lt_of_known {code : ℕ} {dict : List (List UInt8)} {word : List UInt8}
    (hknown : Known dict word) (hsymbol : symbol code = symbolOf dict word) :
    code < 256 ∨ code < 257 + dict.length := by
  by_cases hlength : word.length = 1
  · obtain ⟨letter, rfl⟩ := List.length_eq_one_iff.mp hlength
    exact .inl (lt_of_symbol_literal hsymbol)
  · rw [symbolOf_of_length_ne_one dict hlength] at hsymbol
    have hlt := List.idxOf_lt_length_of_mem (hknown.resolve_left hlength)
    rw [eq_of_symbol_entry hsymbol]
    exact .inr (Nat.add_lt_add_left hlt _)

theorem ne_clear_of_symbol {code : ℕ} {dict : List (List UInt8)} {word : List UInt8}
    (hsymbol : symbol code = symbolOf dict word) : code ≠ clear := by
  rintro rfl
  exact symbolOf_ne_clear dict word hsymbol.symm

theorem advance_nine {mymaxbits nexti : ℕ} (hlt : nexti + 1 < 512) :
    advance mymaxbits ⟨nexti, 9⟩ = ⟨nexti + 1, 9⟩ := by
  have hroom : ¬ nexti = 1 <<< 9 := by
    change ¬ nexti = 512
    omega
  have hwide : ¬ (nexti + 1 ≥ 1 <<< 9 ∧ 9 < mymaxbits) := by
    change ¬ (nexti + 1 ≥ 512 ∧ 9 < mymaxbits)
    omega
  rw [advance, if_neg hroom]
  exact if_neg hwide

theorem allows_of_known {code : ℕ} {dict : List (List UInt8)} {word : List UInt8}
    (hknown : Known dict word) (hsymbol : symbol code = symbolOf dict word)
    (hsize : dict.length < 256) :
    Phase.Allows ⟨false, ⟨256 + dict.length, 9⟩⟩ code := by
  have hcode := code_lt_of_known hknown hsymbol
  refine .inr ⟨?_, ?_⟩
  · change code ≤ 256 + dict.length
    omega
  · change code < 512
    omega

/-- The encoder is one entry ahead of the decoder: its codes are allowed, and
nine bits wide as long as they are not more than 256. -/
theorem valid_encode (mymaxbits : ℕ) {dict : List (List UInt8)} {word : List UInt8}
    (rest : List UInt8) {codes : List ℕ} (hknown : Known dict word)
    (hcodes : codes.map symbol = encode dict word rest)
    (hsize : dict.length + codes.length ≤ 256) :
    ValidCodes mymaxbits ⟨false, ⟨256 + dict.length, 9⟩⟩ codes ∧
      packCodes mymaxbits ⟨false, ⟨256 + dict.length, 9⟩⟩ codes = nineBits codes := by
  induction rest generalizing dict word codes with
  | nil =>
      rw [encode, List.map_eq_singleton_iff] at hcodes
      obtain ⟨code, rfl, hsymbol⟩ := hcodes
      rw [List.length_singleton] at hsize
      refine ⟨⟨allows_of_known hknown hsymbol (by omega), ?_⟩, rfl⟩
      rw [Phase.next, if_neg Bool.false_ne_true, if_neg (ne_clear_of_symbol hsymbol)]
      rfl
  | cons ch rest ih =>
      rw [encode] at hcodes
      split at hcodes
      · next hfound => exact ih (.inr hfound) hcodes hsize
      · next hnew =>
          obtain ⟨code, codes', rfl, hsymbol, hcodes'⟩ := List.map_eq_cons_iff.mp hcodes
          have hpos : 0 < codes'.length := by
            rw [← List.length_map symbol, hcodes', length_encode]
            exact length_phrases_pos _ _ _
          have hgrown : (dict ++ [word ++ [ch]]).length = dict.length + 1 :=
            List.length_append
          rw [List.length_cons] at hsize
          have hnext : Phase.next mymaxbits ⟨false, ⟨256 + dict.length, 9⟩⟩ code =
              ⟨false, ⟨256 + (dict ++ [word ++ [ch]]).length, 9⟩⟩ := by
            rw [Phase.next, if_neg Bool.false_ne_true,
              if_neg (ne_clear_of_symbol hsymbol), advance_nine (by omega), hgrown]
            rfl
          obtain ⟨hvalid, hpack⟩ := ih (.inl rfl) hcodes' (by omega)
          refine ⟨⟨allows_of_known hknown hsymbol (by omega), ?_⟩, ?_⟩
          · rw [hnext]
            exact hvalid
          · rw [packCodes, hnext, hpack]
            rfl

theorem valid_encode_start (mymaxbits : ℕ) {a : UInt8} {rest : List UInt8}
    {codes : List ℕ} (hcodes : codes.map symbol = encode [] [a] rest)
    (hsize : codes.length ≤ 256) :
    ValidCodes mymaxbits .start codes ∧
      packCodes mymaxbits .start codes = nineBits codes := by
  cases rest with
  | nil =>
      rw [encode, List.map_eq_singleton_iff] at hcodes
      obtain ⟨code, rfl, hsymbol⟩ := hcodes
      exact ⟨⟨lt_of_symbol_literal hsymbol, rfl⟩, rfl⟩
  | cons ch rest =>
      have hnew : [a] ++ [ch] ∉ ([] : List (List UInt8)) := List.not_mem_nil
      rw [encode, if_neg hnew] at hcodes
      obtain ⟨code, codes', rfl, hsymbol, hcodes'⟩ := List.map_eq_cons_iff.mp hcodes
      rw [List.length_cons] at hsize
      have hone : ([] ++ [[a] ++ [ch]] : List (List UInt8)).length = 1 := rfl
      obtain ⟨hvalid, hpack⟩ := valid_encode mymaxbits rest (.inl rfl)
        hcodes' (by omega)
      refine ⟨⟨lt_of_symbol_literal hsymbol, hvalid⟩, ?_⟩
      exact congrArg (Bits.ofNat 9 code ++ ·) hpack

/-- Inputs of at most 256 phrases come back. -/
theorem roundTrips_of_short {x : List UInt8} (hne : x ≠ [])
    (hshort : (parse x).length ≤ 256) : RoundTrips x := by
  obtain ⟨a, rest, rfl⟩ := List.exists_cons_of_ne_nil hne
  intro writer reads hreads
  obtain ⟨bytes, codes, pad, hcompress, hpad, hbits, hcodes⟩ :=
    compress_encoded writer hreads hshort
  rw [List.append_assoc] at hbits
  obtain ⟨payload, rfl, hpayload⟩ := Bits.unpack_eq_append hbits
  refine ⟨_, hcompress, ?_⟩
  intro mymaxbits hlow hhigh reader reads' hreads'
  have hsize : codes.length ≤ 256 := by
    rw [← List.length_map symbol, hcodes, length_encode]
    exact hshort
  obtain ⟨hvalid, hpack⟩ := valid_encode_start mymaxbits hcodes hsize
  have hflags : ((0x89 : UInt8) &&& 0x1f).toNat ≤ mymaxbits := hlow
  have hpacked : Bits.unpack (joined reads') =
      packCodes mymaxbits .start codes ++ List.replicate pad false := by
    rw [hreads', hpack]
    exact hpayload
  obtain ⟨log, hlog⟩ := mainLoop_packed hlow hhigh reader hvalid
    (Nat.lt_succ_of_lt hpad) hpacked
  have hdecode : decode (2 ^ mymaxbits - 257) [] none (codes.map symbol) = a :: rest := by
    have hpow : 2 ^ 9 ≤ 2 ^ mymaxbits := Nat.pow_le_pow_right Nat.two_pos hlow
    rw [hcodes]
    apply decode_encode_start
    rw [← hcodes, List.length_map]
    omega
  refine ⟨log, ?_⟩
  rw [hdecode] at hlog
  exact (decompress_headerOf hflags reader reads').trans hlog

end Fip.Lzw
