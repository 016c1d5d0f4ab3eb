import Fip.Lzw.Decoding

/-!
# The output of uncompress

A file with a valid header and packed valid codes gives the output of the
reference decoder, however the reads are cut.
-/

namespace Fip.Lzw.Uncompress

open Dictionary

/-- The third byte of the header, with the widest code of the file. -/
def headerOf (flags : UInt8) : List UInt8 :=
  magic ++ [flags]

theorem not_bad_headerOf (flags : UInt8) :
    ¬ ((headerOf flags).length < 3 ∨ (headerOf flags).take 2 ≠ magic) := by
  rintro (hshort | hbad)
  · exact absurd hshort (Nat.lt_irrefl 3)
  · exact hbad rfl

theorem decompress_headerOf {mymaxbits : ℕ} {flags : UInt8}
    (hflags : (flags &&& 0x1f).toNat ≤ mymaxbits) (memory : Memory)
    (reads : List Chunk) :
    decompress mymaxbits memory (headerOf flags) reads =
      mainLoop mymaxbits (memory.input reads) memory.decoder := by
  have hwide : ¬ ((headerOf flags).getD 2 0 &&& 0x1f).toNat > mymaxbits :=
    Nat.not_lt.mpr hflags
  rw [decompress, if_neg (not_bad_headerOf flags)]
  dsimp only
  rw [if_neg hwide]

theorem Memory.bits_input (memory : Memory) (reads : List Chunk) :
    (memory.input reads).bits = Bits.unpack (joined reads) := rfl

theorem Memory.tracks {mymaxbits : ℕ} (hlow : 9 ≤ mymaxbits) (memory : Memory) :
    Tracks mymaxbits memory.decoder [] where
  represents := represents_nil
  nexti := rfl
  sound := Counters.sound_cleared hlow
  logged := by
    refine ⟨[], rfl, ?_⟩
    intro cell
    rw [List.mem_nil_iff, false_iff]
    exact fun h => absurd h.2 (Nat.not_lt.mpr h.1)
  prev := nofun
  fresh := fun _ => rfl

/-- Packed codes that the decoder accepts at their widths. -/
theorem mainLoop_packed {mymaxbits : ℕ} (hlow : 9 ≤ mymaxbits)
    (hhigh : mymaxbits ≤ 14) (memory : Memory) {codes : List ℕ}
    (hvalid : ValidCodes mymaxbits .start codes) {reads : List Chunk} {pad : ℕ}
    (hpad : pad < 9)
    (hreads : Bits.unpack (joined reads) =
      packCodes mymaxbits .start codes ++ List.replicate pad false) :
    ∃ log, mainLoop mymaxbits (memory.input reads) memory.decoder =
      some ⟨.returned,
        decode (2 ^ mymaxbits - 257) [] none (codes.map symbol), log⟩ := by
  have htracks := memory.tracks hlow
  obtain ⟨d', hfeed, hprev, hsent⟩ := feed_refines hlow hhigh htracks hvalid
  have hrun : mainLoop mymaxbits (memory.input reads) memory.decoder = some _ :=
    run_packed hlow htracks.sound (hvalid.fits hlow htracks.sound) rfl
      ((memory.bits_input reads).trans hreads) hpad (Nat.lt_add_of_pos_right (by decide))
      (fun d hd => Sum.inl.inj (hfeed.symm.trans hd) ▸ hprev)
  have hwritten : d'.output.outflush.written =
      decode (2 ^ mymaxbits - 257) [] none (codes.map symbol) := by
    rw [Sink.written_outflush, hsent]
    rfl
  rw [hrun, hfeed, ← hwritten]
  exact ⟨d'.log, rfl⟩

/-- `decompress` writes what the string-dictionary decoder writes, and nothing
for the zeros behind the last code. -/
theorem decompress_refines {mymaxbits : ℕ} (hlow : 9 ≤ mymaxbits)
    (hhigh : mymaxbits ≤ 14) (memory : Memory) {flags : UInt8}
    (hflags : (flags &&& 0x1f).toNat ≤ mymaxbits) {codes : List ℕ}
    (hvalid : ValidCodes mymaxbits .start codes) {reads : List Chunk}
    (hreads : joined reads = Bits.pack (packCodes mymaxbits .start codes)) :
    ∃ log, decompress mymaxbits memory (headerOf flags) reads =
      some ⟨.returned,
        decode (2 ^ mymaxbits - 257) [] none (codes.map symbol), log⟩ := by
  obtain ⟨pad, hpad, hunpack⟩ := Bits.unpack_pack (packCodes mymaxbits .start codes)
  rw [decompress_headerOf hflags]
  apply mainLoop_packed hlow hhigh memory hvalid (Nat.lt_succ_of_lt hpad)
  rw [hreads, hunpack]

/-- Two letters, an entry, the entry that is being added, and a second
dictionary: `abababa` and `b`. -/
theorem decompress_refines_abababab :
    ∃ log, decompress 12 ⟨fun _ => 300, fun _ => 7, [], 0⟩ (headerOf 0x8c)
        [⟨Bits.pack (packCodes 12 .start [97, 98, 257, 259, 256, 98]),
          by decide, by decide⟩] =
      some ⟨.returned, [97, 98, 97, 98, 97, 98, 97, 98], log⟩ := by
  have hvalid : ValidCodes 12 .start [97, 98, 257, 259, 256, 98] := by
    simp [ValidCodes, Phase.Allows, Phase.next, Phase.start, Counters.cleared,
      advance, clear]
  have hreads : joined [⟨Bits.pack (packCodes 12 .start [97, 98, 257, 259, 256, 98]),
      by decide, by decide⟩] =
        Bits.pack (packCodes 12 .start [97, 98, 257, 259, 256, 98]) :=
    joined_singleton _
  obtain ⟨log, hlog⟩ := decompress_refines (by decide) (by decide)
    ⟨fun _ => 300, fun _ => 7, [], 0⟩ (by decide : ((0x8c : UInt8) &&& 0x1f).toNat ≤ 12)
    hvalid hreads
  exact ⟨log, hlog⟩

end Fip.Lzw.Uncompress
