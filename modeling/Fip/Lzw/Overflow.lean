import Fip.Lzw.RoundTrip
import Mathlib.Data.List.Nodup

/-!
# Inputs that clear the dictionary

When the dictionary is full, `compress` sends a `CLEAR`, keeps its pending code
and drops the byte it has read.  The tables of both programs keep their old
entries, and the decoder follows the encoder's prefixes through them, or
through the one cell that it never writes and that is shorter still.  So it
never writes as many bytes as the input has.
-/

namespace Fip.Lzw

open Dictionary Compress Uncompress

/-! ## Lengths of strings -/

theorem length_buildstr {ref : ℕ → ℕ} {app : ℕ → UInt8} {room entry : ℕ}
    {s word : List UInt8} (hbuild : buildstr ref app room entry s = some word) :
    s.length + 1 ≤ word.length := by
  induction room generalizing entry s with
  | zero => cases hbuild
  | succ room ih =>
      rw [buildstr] at hbuild
      split at hbuild
      · cases hbuild
        exact Nat.le_refl _
      · exact (Nat.le_succ _).trans (ih hbuild)

/-- The decoder's cells are the encoder's, or of one byte and their own. -/
def Shadows (ref ref' : ℕ → ℕ) : Prop :=
  ∀ sym, ref' sym = ref sym ∨ ref' sym < 256

/-- The decoder writes at most what the encoder's tables say. -/
theorem length_printsym {ref : ℕ → ℕ} {app : ℕ → UInt8} {room fuel sym : ℕ}
    {s word : List UInt8} {d d' : Decoder} (hshadows : Shadows ref d.ref)
    (hbuild : buildstr ref app room sym s = some word)
    (hprint : d.printsym fuel sym = some d') :
    d'.output.sent.length + s.length ≤ d.output.sent.length + word.length := by
  induction room generalizing sym s fuel d d' with
  | zero => cases hbuild
  | succ room ih =>
      rw [buildstr] at hbuild
      split at hbuild
      · next hlt =>
          cases hbuild
          rw [printsym_of_lt hlt] at hprint
          cases hprint
          change ((d.output.outbyte _).sent).length + _ ≤ _
          rw [Sink.sent_outbyte, List.length_append, List.length_cons]
          exact (Nat.add_right_comm _ _ _).le
      · next hlarge =>
          cases fuel with
          | zero =>
              rw [Decoder.printsym, if_neg hlarge] at hprint
              cases hprint
          | succ fuel =>
              rw [Decoder.printsym, if_neg hlarge] at hprint
              split at hprint
              · cases hprint
              · next d₁ hrec =>
                  cases hprint
                  change ((d₁.output.outbyte _).sent).length + _ ≤ _
                  rw [Sink.sent_outbyte, List.length_append, List.length_singleton]
                  rcases hshadows sym with hsame | hshort
                  · rw [hsame] at hrec
                    have hread : Shadows ref (d.read (.ref sym)).ref := hshadows
                    have hlength := ih hread hbuild hrec
                    rw [List.length_cons] at hlength
                    change _ ≤ d.output.sent.length + word.length at hlength
                    omega
                  · rw [printsym_of_lt hshort] at hrec
                    cases hrec
                    have hlength := length_buildstr hbuild
                    change ((d.output.outbyte _).sent).length + _ + _ ≤ _
                    rw [Sink.sent_outbyte, List.length_append]
                    simp only [List.length_cons, List.length_nil] at hlength ⊢
                    omega

/-- A string that is found is longer by the byte that was read. -/
theorem existLoop_found {e : Encoder} {s : List UInt8} {left h n : ℕ}
    (hexist : e.existLoop s left h = some (some n)) :
    h ≤ n ∧ n < h + left ∧ buildstr e.ref e.app strz n [] = some s := by
  induction left generalizing h with
  | zero => cases hexist
  | succ left ih =>
      rw [Encoder.existLoop] at hexist
      split at hexist
      · cases hexist
      · next s1 hbuild =>
          split at hexist
          · next hsame =>
              cases hexist
              exact ⟨Nat.le_refl _, by omega, hsame ▸ hbuild⟩
          · obtain ⟨hge, hlt, hfound⟩ := ih hexist
            exact ⟨by omega, by omega, hfound⟩

theorem exist_found {e : Encoder} {pref n : ℕ} {ch : UInt8}
    (hexist : e.exist pref ch = some (some n)) :
    257 ≤ n ∧ n < e.counters.nexti ∧
      ∃ s, buildstr e.ref e.app strz pref [] = some s ∧
        buildstr e.ref e.app strz n [] = some (s ++ [ch]) := by
  rw [Encoder.exist] at hexist
  split at hexist
  · cases hexist
  · next s hbuild =>
      obtain ⟨hge, hlt, hfound⟩ := existLoop_found hexist
      exact ⟨hge, by omega, s, hbuild, hfound⟩

/-! ## Both programs at once -/

/-- The decoder, fed with all codes that the encoder has sent, has the
encoder's prefixes, but for the entry it is about to add and for entry 511. -/
structure Linked (e : Encoder) (d : Decoder) : Prop where
  bits : e.counters.bits = 9
  nexti : e.counters.nexti ≤ 512
  decoderBits : d.counters.bits = 9
  last : d.ref 511 = 0
  phase : d.prev = none ∧ e.counters.nexti = 257 ∧ d.counters = .cleared ∧
      (∀ sym, sym ≠ 511 → d.ref sym = e.ref sym) ∨
    ∃ prev, d.prev = some prev ∧ d.counters.nexti + 1 = e.counters.nexti ∧
      257 ≤ d.counters.nexti ∧ e.ref d.counters.nexti = prev ∧
      ∀ sym, sym ≠ 511 → sym ≠ d.counters.nexti → d.ref sym = e.ref sym

/-- A code of the encoder's tables, which is not `CLEAR`. -/
def Pending (e : Encoder) : Prop :=
  e.w < 256 ∨ 257 ≤ e.w ∧ e.w < 512

/-- The decoder has taken the pending code. -/
structure Caught (e : Encoder) (d : Decoder) : Prop where
  prev : d.prev = some e.w
  counters : d.counters = ⟨e.counters.nexti, 9⟩
  ref : ∀ sym, sym ≠ 511 → d.ref sym = e.ref sym
  last : e.counters.nexti < 512 → d.ref 511 = 0

section Code

variable {e : Encoder} {d d' : Decoder} {word : List UInt8}

/-- The decoder takes the pending code as the first one. -/
theorem Linked.code_start (hlinked : Linked e d) (hprev : d.prev = none)
    (hbuild : buildstr e.ref e.app strz e.w [] = some word)
    (hcode : d.code 9 e.w = .inl d') :
    Caught e d' ∧
      d'.output.sent.length ≤ d.output.sent.length + word.length := by
  obtain ⟨_, hstart, hcounters, href⟩ | ⟨_, hsome, _⟩ := hlinked.phase
  swap
  · cases hprev.symm.trans hsome
  rcases code_cases hcode with ⟨_, d₁, hprint, rfl⟩ | ⟨_, hsome, _⟩ |
    ⟨_, _, _, _, hsome, _⟩
  · have hshadows : Shadows e.ref d.ref := by
      intro sym
      by_cases h : sym = 511
      · exact .inr (by rw [h, hlinked.last]; decide)
      · exact .inl (href sym h)
    have hframe := (printsym_frame hprint).1
    have hcounters₁ : d₁.counters = d.counters := by rw [hframe]
    have href₁ : d₁.ref = d.ref := by rw [hframe]
    have hlength := length_printsym hshadows hbuild hprint
    refine ⟨⟨rfl, ?_, ?_, ?_⟩, hlength⟩
    · rw [hcounters₁, hcounters, hstart]
      rfl
    · intro sym hsym
      exact (congrFun href₁ sym).trans (href sym hsym)
    · intro _
      exact (congrFun href₁ 511).trans hlinked.last
  · cases hprev.symm.trans hsome
  · cases hprev.symm.trans hsome

/-- The entry that `adddict` adds is the encoder's. -/
theorem Linked.adddict (hlinked : Linked e d) {prev : ℕ} (hprev : d.prev = some prev)
    {d₁ : Decoder} (hframe : d₁ = { d with log := d₁.log }) (suffix : UInt8) :
    Shadows e.ref (d₁.adddict 9 prev suffix).ref ∧
      (∀ sym, sym ≠ 511 → (d₁.adddict 9 prev suffix).ref sym = e.ref sym) ∧
      (e.counters.nexti < 512 → (d₁.adddict 9 prev suffix).ref 511 = 0) ∧
      (d₁.adddict 9 prev suffix).counters = ⟨e.counters.nexti, 9⟩ := by
  obtain ⟨hnone, _⟩ | ⟨prev', hsome, hbehind, hge, hnew, href⟩ := hlinked.phase
  · cases hprev.symm.trans hnone
  have hprev' : prev' = prev := Option.some.inj (hsome.symm.trans hprev)
  subst hprev'
  have hcounters : d₁.counters = d.counters := by rw [hframe]
  have href₁ : d₁.ref = d.ref := by rw [hframe]
  have hroom : ¬ d₁.counters.nexti = 1 <<< d₁.counters.bits := by
    have := hlinked.nexti
    rw [hcounters, hlinked.decoderBits]
    change ¬ d.counters.nexti = 512
    omega
  have hadded : (d₁.adddict 9 prev' suffix).ref =
      Function.update d.ref d.counters.nexti prev' := by
    rw [Decoder.adddict, if_neg hroom, hcounters, href₁]
  have hsame : ∀ sym, sym ≠ 511 ∨ sym = d.counters.nexti →
      (d₁.adddict 9 prev' suffix).ref sym = e.ref sym := by
    intro sym hsym
    rw [hadded]
    by_cases h : sym = d.counters.nexti
    · rw [h, Function.update_self, hnew]
    · rw [Function.update_of_ne h]
      exact href sym (hsym.resolve_right h) h
  have hzero : 511 ≠ d.counters.nexti → (d₁.adddict 9 prev' suffix).ref 511 = 0 := by
    intro h
    rw [hadded, Function.update_of_ne h, hlinked.last]
  refine ⟨?_, fun sym hsym => hsame sym (.inl hsym), fun hlt => hzero (by omega), ?_⟩
  · intro sym
    by_cases h : sym ≠ 511 ∨ sym = d.counters.nexti
    · exact .inl (hsame sym h)
    · obtain ⟨h511, hother⟩ := not_or.mp h
      rw [not_not.mp h511] at hother ⊢
      exact .inr (by rw [hzero hother]; decide)
  · calc (d₁.adddict 9 prev' suffix).counters
        = advance 9 d₁.counters := (advance_adddict d₁ prev' suffix).1
      _ = ⟨d.counters.nexti + 1, 9⟩ := by
        rw [advance, if_neg hroom, hcounters, hlinked.decoderBits]
        exact if_neg fun h => absurd h.2 (Nat.lt_irrefl 9)
      _ = ⟨e.counters.nexti, 9⟩ := by rw [hbehind]

/-- The decoder takes the pending code as a later one. -/
theorem Linked.code_next (hlinked : Linked e d) (hpending : Pending e)
    (hprev : d.prev ≠ none) (hbuild : buildstr e.ref e.app strz e.w [] = some word)
    (hcode : d.code 9 e.w = .inl d') :
    Caught e d' ∧
      d'.output.sent.length ≤ d.output.sent.length + word.length := by
  have hne : e.w ≠ clear := by
    rw [Pending] at hpending
    rw [clear]
    omega
  rcases code_cases hcode with ⟨hnone, _⟩ | ⟨_, _, hclear, _⟩ |
    ⟨prev, suffix, d₁, d₂, hsome, _, hfirst, hprint, rfl⟩
  · exact absurd hnone hprev
  · exact absurd hclear hne
  · have hframe₁ := (first_frame hfirst).1
    have hframe₂ := (printsym_frame hprint).1
    obtain ⟨hshadows, href, hlast, hcounters⟩ := hlinked.adddict hsome hframe₁ suffix
    have href₂ : d₂.ref = (d₁.adddict 9 prev suffix).ref := by rw [hframe₂]
    have hcounters₂ : d₂.counters = (d₁.adddict 9 prev suffix).counters := by
      rw [hframe₂]
    have houtput : (d₁.adddict 9 prev suffix).output = d.output := by
      rw [(advance_adddict d₁ prev suffix).2, hframe₁]
    have hlength := length_printsym hshadows hbuild hprint
    rw [houtput] at hlength
    exact ⟨⟨rfl, hcounters₂.trans hcounters,
      fun sym hsym => (congrFun href₂ sym).trans (href sym hsym),
      fun hlt => (congrFun href₂ 511).trans (hlast hlt)⟩, hlength⟩

/-- The decoder takes the pending code, unless it ends there and then. -/
theorem Linked.code (hlinked : Linked e d) (hpending : Pending e)
    (hbuild : buildstr e.ref e.app strz e.w [] = some word) :
    (∃ result, d.code 9 e.w = .inr result ∧ result.status ≠ .returned) ∨
    ∃ d', d.code 9 e.w = .inl d' ∧ Caught e d' ∧
      d'.output.sent.length ≤ d.output.sent.length + word.length := by
  rcases hcode : d.code 9 e.w with d' | result
  · by_cases hprev : d.prev = none
    · exact .inr ⟨d', rfl, hlinked.code_start hprev hbuild hcode⟩
    · exact .inr ⟨d', rfl, hlinked.code_next hpending hprev hbuild hcode⟩
  · exact .inl ⟨result, rfl, (code_stop hcode).1⟩

/-- A `CLEAR` goes through, and the tables stay as they are. -/
theorem Linked.clear (hlinked : Linked e d) (hfull : e.counters.nexti = 512) :
    ∃ d', d.code 9 clear = .inl d' ∧ Linked e.cleardict d' ∧ d'.output = d.output := by
  obtain ⟨_, hstart, _⟩ | ⟨prev, hprev, hbehind, hge, _, href⟩ := hlinked.phase
  · omega
  have hle : ¬ Lzw.clear > d.counters.nexti := by
    rw [Lzw.clear]
    omega
  refine ⟨{ d.cleardict with prev := none }, ?_, ⟨rfl, (by decide : 257 ≤ 512), rfl,
    hlinked.last, .inl ⟨rfl, rfl, rfl, ?_⟩⟩, rfl⟩
  · rw [Decoder.code, hprev]
    dsimp only
    rw [if_neg hle, if_pos rfl]
  · intro sym hsym
    exact href sym hsym (by omega)

/-- The encoder adds its entry, and is one ahead again. -/
theorem Caught.linked (hcaught : Caught e d) (hbits : e.counters.bits = 9)
    (hge : 257 ≤ e.counters.nexti) (hlt : e.counters.nexti < 512) (ch : UInt8)
    {e' : Encoder} (href : e'.ref = (Encoder.adddict.write e.w ch e).ref)
    (hcounters : e'.counters = (Encoder.adddict.write e.w ch e).counters) :
    Linked e' d := by
  have hnexti : e'.counters.nexti = e.counters.nexti + 1 := by
    rw [hcounters]
    rfl
  have hnexti' : d.counters.nexti = e.counters.nexti := by rw [hcaught.counters]
  have href' : e'.ref = Function.update e.ref e.counters.nexti e.w := href
  refine ⟨?_, by omega, ?_, hcaught.last hlt, .inr ⟨e.w, hcaught.prev, ?_, ?_, ?_, ?_⟩⟩
  · rw [hcounters]
    exact hbits
  · rw [hcaught.counters]
  · omega
  · omega
  · rw [href', hnexti', Function.update_self]
  · intro sym hsym hne
    rw [href', Function.update_of_ne (hnexti' ▸ hne)]
    exact hcaught.ref sym hsym

end Code

/-! ## Runs of the encoder -/

theorem feed_append {mymaxbits : ℕ} (d : Decoder) (codes more : List ℕ) :
    feed mymaxbits d (codes ++ more) =
      (feed mymaxbits d codes).elim (feed mymaxbits · more) .inr := by
  fun_induction feed mymaxbits d codes with
  | case1 => rfl
  | case2 d code codes d' hcode ih =>
      rw [List.cons_append, feed, hcode]
      exact ih
  | case3 d code codes result hcode =>
      rw [List.cons_append, feed, hcode]
      rfl

theorem feed_singleton {mymaxbits : ℕ} (d : Decoder) (code : ℕ) :
    feed mymaxbits d [code] = d.code mymaxbits code := by
  rw [feed]
  split <;> simp [feed, *]

/-- The decoder has not ended well, or is in a state of that kind. -/
def Fed (d₀ : Decoder) (codes : List ℕ) (state : Decoder → Prop) : Prop :=
  (∃ result, feed 9 d₀ codes = .inr result ∧ result.status ≠ .returned) ∨
    ∃ d, feed 9 d₀ codes = .inl d ∧ state d

theorem Fed.snoc {d₀ : Decoder} {codes : List ℕ} {code : ℕ}
    {state after : Decoder → Prop} (hfed : Fed d₀ codes state)
    (hcode : ∀ d, state d →
      (∃ result, d.code 9 code = .inr result ∧ result.status ≠ .returned) ∨
        ∃ d', d.code 9 code = .inl d' ∧ after d') :
    Fed d₀ (codes ++ [code]) after := by
  rcases hfed with ⟨result, hfeed, hstatus⟩ | ⟨d, hfeed, hstate⟩
  · exact .inl ⟨result, by rw [feed_append, hfeed]; rfl, hstatus⟩
  · have hnext : feed 9 d₀ (codes ++ [code]) = d.code 9 code := by
      rw [feed_append, hfeed, Sum.elim_inl, feed_singleton]
    rw [Fed, hnext]
    exact hcode d hstate

/-- The decoder has room for `spare` bytes more than the pending word before it
has written `total`. -/
structure Within (d₀ : Decoder) (total spare : ℕ) (e : Encoder) : Prop where
  pending : Pending e
  bits : e.counters.bits = 9
  nexti_ge : 257 ≤ e.counters.nexti
  nexti_le : e.counters.nexti ≤ 512
  fed : ∃ codes word,
    e.sink.bits = Bits.unpack (header 9) ++ nineBits codes ∧
    (∀ code ∈ codes, code < 512) ∧
    buildstr e.ref e.app strz e.w [] = some word ∧
    Fed d₀ codes fun d =>
      Linked e d ∧ d.output.sent.length + word.length + spare ≤ total

section Within

variable {d₀ : Decoder} {total spare : ℕ} {e : Encoder}

theorem Pending.lt (hpending : Pending e) : e.w < 512 := by
  rw [Pending] at hpending
  omega

theorem Within.source (hwithin : Within d₀ total spare e) (source : Source) :
    Within d₀ total spare { e with source := source } := by
  obtain ⟨codes, word, hsink, hcodes, hbuild, hfed⟩ := hwithin.fed
  refine ⟨hwithin.pending, hwithin.bits, hwithin.nexti_ge, hwithin.nexti_le, codes,
    word, hsink, hcodes, hbuild, ?_⟩
  exact hfed.imp_right fun ⟨d, hfeed, hlinked, hroom⟩ =>
    ⟨d, hfeed, ⟨hlinked.bits, hlinked.nexti, hlinked.decoderBits, hlinked.last,
      hlinked.phase⟩, hroom⟩

theorem Within.mono (hwithin : Within d₀ total spare e) {less : ℕ} (hle : less ≤ spare) :
    Within d₀ total less e := by
  obtain ⟨codes, word, hsink, hcodes, hbuild, hfed⟩ := hwithin.fed
  refine ⟨hwithin.pending, hwithin.bits, hwithin.nexti_ge, hwithin.nexti_le, codes,
    word, hsink, hcodes, hbuild, ?_⟩
  exact hfed.imp_right fun ⟨d, hfeed, hlinked, hroom⟩ =>
    ⟨d, hfeed, hlinked, by omega⟩

/-- The longer word is found: the byte goes into the pending word. -/
theorem Within.found (hwithin : Within d₀ total (spare + 1) e) {ch : UInt8} {n : ℕ}
    (hexist : e.exist e.w ch = some (some n)) :
    Within d₀ total spare { e with w := n } := by
  obtain ⟨codes, word, hsink, hcodes, hbuild, hfed⟩ := hwithin.fed
  obtain ⟨hge, hlt, s, hs, hlonger⟩ := exist_found hexist
  have hsame : s = word := Option.some.inj (hs.symm.trans hbuild)
  subst hsame
  have hlt' : n < 512 := Nat.lt_of_lt_of_le hlt hwithin.nexti_le
  refine ⟨.inr ⟨hge, hlt'⟩, hwithin.bits, hwithin.nexti_ge, hwithin.nexti_le, codes,
    s ++ [ch], hsink, hcodes, hlonger, ?_⟩
  refine hfed.imp_right fun ⟨d, hfeed, hlinked, hroom⟩ => ⟨d, hfeed,
    ⟨hlinked.bits, hlinked.nexti, hlinked.decoderBits, hlinked.last,
      hlinked.phase⟩, ?_⟩
  rw [List.length_append, List.length_singleton]
  omega

/-- The longer word is added: the byte starts the next word. -/
theorem Within.added (hwithin : Within d₀ total (spare + 1) e) (ch : UInt8)
    (hlt : e.counters.nexti < 512) :
    Within d₀ total spare
      { (Encoder.adddict.write e.w ch e).outsym e.w with w := ch.toNat } := by
  obtain ⟨codes, word, hsink, hcodes, hbuild, hfed⟩ := hwithin.fed
  have hbyte : ch.toNat < 256 := ch.toNat_lt
  have hletter : ∀ ref app, buildstr ref app strz ch.toNat [] = some [ch] := by
    intro ref app
    rw [strz, buildstr, if_pos hbyte, UInt8.ofNat_toNat]
  refine ⟨.inl hbyte, hwithin.bits, Nat.le_succ_of_le hwithin.nexti_ge, hlt,
    codes ++ [e.w], [ch], ?_, ?_, hletter _ _, ?_⟩
  · change (BitSink.outsym e.counters.bits e.sink e.w).bits = _
    rw [BitSink.bits_outsym, hsink, hwithin.bits, nineBits_concat, List.append_assoc]
  · exact List.forall_mem_append.mpr
      ⟨hcodes, List.forall_mem_singleton.mpr hwithin.pending.lt⟩
  · apply hfed.snoc
    rintro d ⟨hlinked, hroom⟩
    refine (hlinked.code hwithin.pending hbuild).imp_right ?_
    rintro ⟨d', hcode, hcaught, hlength⟩
    refine ⟨d', hcode, hcaught.linked hwithin.bits hwithin.nexti_ge hlt ch rfl rfl, ?_⟩
    rw [List.length_singleton]
    omega

/-- The dictionary is cleared: the byte is lost. -/
theorem Within.cleared (hwithin : Within d₀ total spare e)
    (hfull : e.counters.nexti = 512) :
    Within d₀ total spare (e.outsym clear).cleardict := by
  obtain ⟨codes, word, hsink, hcodes, hbuild, hfed⟩ := hwithin.fed
  refine ⟨hwithin.pending, rfl, Nat.le_refl 257, (by decide : 257 ≤ 512),
    codes ++ [clear], word, ?_, ?_, hbuild, ?_⟩
  · change (BitSink.outsym e.counters.bits e.sink clear).bits = _
    rw [BitSink.bits_outsym, hsink, hwithin.bits, nineBits_concat, List.append_assoc]
  · exact List.forall_mem_append.mpr
      ⟨hcodes, List.forall_mem_singleton.mpr (by decide : clear < 512)⟩
  · apply hfed.snoc
    rintro d ⟨hlinked, hroom⟩
    obtain ⟨d', hcode, hlinked', houtput⟩ := hlinked.clear hfull
    refine .inr ⟨d', hcode, ⟨hlinked'.bits, hlinked'.nexti, hlinked'.decoderBits,
      hlinked'.last, hlinked'.phase⟩, ?_⟩
    rw [houtput]
    exact hroom

/-- What is decoded of a whole output of `compress` is not too long. -/
def Shorter (d₀ : Decoder) (total spare : ℕ) (bytes : List UInt8) : Prop :=
  ∃ codes pad, pad < 8 ∧
    Bits.unpack bytes =
      Bits.unpack (header 9) ++ nineBits codes ++ List.replicate pad false ∧
    (∀ code ∈ codes, code < 512) ∧
    Fed d₀ codes fun d => d.prev ≠ none ∧ d.output.sent.length + spare ≤ total

theorem Within.finish (hwithin : Within d₀ total spare e) :
    Shorter d₀ total spare e.finish := by
  obtain ⟨codes, word, hsink, hcodes, hbuild, hfed⟩ := hwithin.fed
  obtain ⟨pad, hpad, hunpack⟩ := unpack_finish e
  refine ⟨codes ++ [e.w], pad, hpad, ?_, ?_, ?_⟩
  · rw [hunpack, hsink, hwithin.bits, nineBits_concat,
      List.append_assoc (Bits.unpack (header 9))]
  · exact List.forall_mem_append.mpr
      ⟨hcodes, List.forall_mem_singleton.mpr hwithin.pending.lt⟩
  · apply hfed.snoc
    rintro d ⟨hlinked, hroom⟩
    refine (hlinked.code hwithin.pending hbuild).imp_right ?_
    rintro ⟨d', hcode, hcaught, hlength⟩
    refine ⟨d', hcode, ?_, by omega⟩
    rw [hcaught.prev]
    exact Option.some_ne_none _

theorem byte_full {ch : UInt8} (hbits : e.counters.bits = 9)
    (hfull : e.counters.nexti = 512) (hexist : e.exist e.w ch = some none) :
    e.byte 9 ch = .inl (e.outsym clear).cleardict := by
  have hadd : e.adddict 9 e.w ch = none := by
    apply adddict_of_full
    · rw [hbits, hfull]
      rfl
    · rw [hbits]
      exact Nat.lt_irrefl 9
  rw [Encoder.byte, hexist]
  dsimp only
  rw [hadd]

/-- Once round the loop, unless `buildstr` runs out of its buffer. -/
theorem Within.byte (hwithin : Within d₀ total (spare + 1) e) (ch : UInt8) :
    e.byte 9 ch = .inr none ∨
      ∃ e', e.byte 9 ch = .inl e' ∧ e'.source = e.source ∧
        Within d₀ total spare e' := by
  rcases hexist : e.exist e.w ch with _ | _ | n
  · left
    rw [Encoder.byte, hexist]
  · right
    rcases Nat.eq_or_lt_of_le hwithin.nexti_le with hfull | hlt
    · exact ⟨_, byte_full hwithin.bits hfull hexist, rfl,
        (hwithin.cleared hfull).mono (Nat.le_succ _)⟩
    · have hroom : e.counters.nexti ≠ 1 <<< e.counters.bits := by
        rw [hwithin.bits]
        exact Nat.ne_of_lt hlt
      refine ⟨{ (Encoder.adddict.write e.w ch e).outsym e.w with w := ch.toNat }, ?_,
        rfl, hwithin.added ch hlt⟩
      rw [Encoder.byte, hexist]
      dsimp only
      rw [adddict_of_room hroom]
  · refine .inr ⟨{ e with w := n }, ?_, rfl, hwithin.found hexist⟩
    rw [Encoder.byte, hexist]

end Within

/-- A byte has been lost, or the phrases to come do not fit the dictionary. -/
def Overflows (d₀ : Decoder) (total : ℕ) (e : Encoder) : Prop :=
  Within d₀ total (e.source.pending.length + 1) e ∨
    Within d₀ total e.source.pending.length e ∧
      ∃ dict word, Follows e dict word ∧ dict.length ≤ 255 ∧
        256 < dict.length + (phrases dict word e.source.pending).length

def Loses (d₀ : Decoder) (total : ℕ) (result : Option (List UInt8)) : Prop :=
  ∀ bytes, result = some bytes → Shorter d₀ total 1 bytes

theorem Overflows.step {d₀ : Decoder} {total : ℕ} {e : Encoder}
    (hoverflows : Overflows d₀ total e) :
    Machine.Advances (Overflows d₀ total) (Loses d₀ total)
      (·.source.pending.length) e.source.pending.length (step 9 e) := by
  rcases hpending : e.source.pending with _ | ⟨ch, rest⟩
  · rw [step_end 9 hpending]
    rintro bytes ⟨⟩
    rw [Overflows, hpending] at hoverflows
    rcases hoverflows with hlost | ⟨_, dict, word, _, hsize, hmany⟩
    · exact hlost.finish
    · rw [phrases, List.length_singleton] at hmany
      omega
  · obtain ⟨source, hrest, hstep⟩ := step_byte 9 hpending
    rw [Overflows, hpending, List.length_cons] at hoverflows
    rw [hstep]
    have hshorter : ∀ e' : Encoder, e'.source = source →
        e'.source.pending = rest ∧ e'.source.pending.length < rest.length + 1 := by
      rintro e' rfl
      exact ⟨hrest, hrest ▸ Nat.lt_succ_self _⟩
    rcases hoverflows with hlost | ⟨hwithin, dict, word, hfollows, hsize, hmany⟩
    · rcases (hlost.source source).byte ch with hbyte | ⟨e', hbyte, hsource, hafter⟩
      · rw [hbyte]
        intro bytes hbytes
        cases hbytes
      · obtain ⟨hrest', hless⟩ := hshorter _ hsource
        rw [hbyte]
        exact ⟨.inl (hrest' ▸ hafter), hless⟩
    · have hfollows' := hfollows.of_source source
      have hroom : dict.length < strz := Nat.lt_succ_of_le hsize
      have hnext := (hwithin.source source).byte ch
      rw [phrases] at hmany
      split at hmany
      · next hfound =>
          obtain ⟨hbyte, hafter⟩ := hfollows'.byte_found hroom hfound 9
          rcases hnext with hnone | ⟨e', hbyte', hsource, hwithin'⟩
          · cases hbyte.symm.trans hnone
          · have hsame := Sum.inl.inj (hbyte.symm.trans hbyte')
            subst hsame
            obtain ⟨hrest', hless⟩ := hshorter _ hsource
            rw [hbyte]
            exact ⟨.inr ⟨hrest' ▸ hwithin', dict, _, hafter, hsize,
              hrest' ▸ hmany⟩, hless⟩
      · next hnew =>
          rw [List.length_cons] at hmany
          rcases Nat.eq_or_lt_of_le hsize with hfull | hlt
          · have hnexti : e.counters.nexti = 512 := by
              rw [hfollows.nexti, hfull]
            have hexist := hfollows'.exist hroom ch
            rw [if_neg hnew] at hexist
            obtain ⟨hrest', hless⟩ :=
              hshorter (Encoder.outsym { e with source := source } clear).cleardict rfl
            rw [byte_full hfollows'.bits hnexti hexist]
            exact ⟨.inl (hrest' ▸ (hwithin.source source).cleared hnexti), hless⟩
          · obtain ⟨e', hbyte, hsource, _, hafter⟩ := hfollows'.byte_new hlt hnew 9
            rcases hnext with hnone | ⟨e'', hbyte', _, hwithin'⟩
            · cases hbyte.symm.trans hnone
            · have hsame := Sum.inl.inj (hbyte.symm.trans hbyte')
              subst hsame
              obtain ⟨hrest', hless⟩ := hshorter _ hsource
              rw [hbyte]
              refine ⟨.inr ⟨hrest' ▸ hwithin', _, _, hafter, ?_, ?_⟩, hless⟩
              · rw [List.length_append, List.length_singleton]
                omega
              · rw [hrest', List.length_append, List.length_singleton]
                omega

/-! ## Whole runs -/

/-- With nine bits at most, all codes are nine bits wide. -/
theorem pack_nine {phase : Phase} {codes : List ℕ}
    (hsound : Counters.Sound 9 phase.counters) (hcodes : ∀ code ∈ codes, code < 512) :
    packCodes 9 phase codes = nineBits codes ∧ Fits 9 phase codes := by
  induction codes generalizing phase with
  | nil => exact ⟨rfl, trivial⟩
  | cons code codes ih =>
      have hbits : phase.counters.bits = 9 := Nat.le_antisymm hsound.bits_le hsound.bits_ge
      obtain ⟨hcode, hrest⟩ := List.forall_mem_cons.mp hcodes
      obtain ⟨hpack, hfits⟩ := ih (Phase.sound_next (Nat.le_refl 9) hsound code) hrest
      refine ⟨?_, ?_, hfits⟩
      · rw [packCodes, hpack, hbits]
        rfl
      · rw [hbits]
        exact hcode

/-- Too few bytes are decoded. -/
theorem Shorter.decompress {reader : Uncompress.Memory} {total : ℕ}
    {bytes : List UInt8} (hshorter : Shorter reader.decoder total 1 bytes)
    {reads : List Chunk} (hreads : joined reads = bytes.drop 3) :
    ∃ result, decompress 9 reader (bytes.take 3) reads = some result ∧
      (result.status ≠ .returned ∨ result.written.length < total) := by
  obtain ⟨codes, pad, hpad, hbits, hcodes, hfed⟩ := hshorter
  rw [List.append_assoc] at hbits
  obtain ⟨payload, rfl, hpayload⟩ := Bits.unpack_eq_append hbits
  have hsound : Counters.Sound 9 .cleared := Counters.sound_cleared (Nat.le_refl 9)
  obtain ⟨hpack, hfits⟩ :
      packCodes 9 .start codes = nineBits codes ∧ Fits 9 .start codes :=
    pack_nine hsound hcodes
  have hinput : (reader.input reads).bits =
      packCodes 9 reader.decoder.phase codes ++ List.replicate pad false := by
    rw [reader.bits_input, hreads]
    exact hpayload.trans (congrArg (· ++ _) hpack.symm)
  have hlast : ∀ d, feed 9 reader.decoder codes = .inl d → d.prev ≠ none := by
    intro d hd
    rcases hfed with ⟨result, hfeed, _⟩ | ⟨d', hfeed, hprev, _⟩
    · cases hfeed.symm.trans hd
    · exact Sum.inl.inj (hfeed.symm.trans hd) ▸ hprev
  have hrun : mainLoop 9 (reader.input reads) reader.decoder = some _ :=
    run_packed (Nat.le_refl 9) hsound hfits rfl hinput (Nat.lt_succ_of_lt hpad)
      (Nat.lt_add_of_pos_right (by decide)) hlast
  have hflags : ((0x89 : UInt8) &&& 0x1f).toNat ≤ 9 := Nat.le_refl 9
  refine ⟨_, (decompress_headerOf hflags reader reads).trans hrun, ?_⟩
  rcases hfed with ⟨result, hfeed, hstatus⟩ | ⟨d, hfeed, _, hlength⟩
  · rw [hfeed]
    exact .inl hstatus
  · rw [hfeed]
    exact .inr hlength

theorem overflows_start (writer : Compress.Memory) (reader : Uncompress.Memory)
    (hwriter : writer.ref = fun _ => 0) (hreader : reader.ref = fun _ => 0)
    {reads : List Chunk} {a : UInt8} {rest : List UInt8}
    (hreads : joined reads = a :: rest) (hmany : 256 < (parse (a :: rest)).length) :
    Overflows reader.decoder (a :: rest).length (writer.encoder 9 reads) := by
  obtain ⟨hpending, hw, hsink⟩ := encoder_start writer hreads
  have ha : a.toNat < 256 := a.toNat_lt
  have hlinked : Linked (writer.encoder 9 reads) reader.decoder := by
    refine ⟨rfl, (by decide : 257 ≤ 512), rfl, congrFun hreader 511,
      .inl ⟨rfl, rfl, rfl, ?_⟩⟩
    intro sym _
    exact (congrFun hreader sym).trans (congrFun hwriter sym).symm
  have hwithin : Within reader.decoder (a :: rest).length rest.length
      (writer.encoder 9 reads) := by
    refine ⟨.inl (hw ▸ ha), rfl, Nat.le_refl 257, (by decide : 257 ≤ 512), [], [a],
      ?_, nofun, ?_, .inr ⟨_, rfl, hlinked, ?_⟩⟩
    · rw [hsink]
      exact (List.append_nil _).symm
    · rw [hw, strz, buildstr, if_pos ha, UInt8.ofNat_toNat]
    · change 0 + 1 + rest.length ≤ rest.length + 1
      omega
  refine .inr ⟨hpending ▸ hwithin, [], [a], follows_start writer hreads, ?_, ?_⟩
  · exact Nat.zero_le _
  · rw [hpending, List.length_nil, Nat.zero_add]
    exact hmany

/-- Inputs of more than 256 phrases do not come back. -/
theorem not_roundTrips_of_long {x : List UInt8} (hmany : 256 < (parse x).length) :
    ¬ RoundTrips x := by
  intro hround
  have hne : x ≠ [] := by
    rintro rfl
    exact absurd hmany (by decide)
  obtain ⟨a, rest, rfl⟩ := List.exists_cons_of_ne_nil hne
  have hreads := joined_bytewise (a :: rest)
  obtain ⟨bytes, hcompress, hreturn⟩ :=
    hround ⟨fun _ => 0, fun _ => 0, []⟩ (bytewise (a :: rest)) hreads
  obtain ⟨result, hrun, hloses⟩ := Machine.run_total
    (fun e hoverflows => Overflows.step hoverflows)
    (overflows_start ⟨fun _ => 0, fun _ => 0, []⟩ ⟨fun _ => 0, fun _ => 0, [], 0⟩ rfl rfl
      hreads hmany)
    (show _ < (joined (bytewise (a :: rest))).length + 1 by
      rw [(encoder_start _ hreads).1, hreads, List.length_cons]
      omega)
  rw [compress, hrun] at hcompress
  obtain ⟨result', hdecompress, hbad⟩ :=
    (hloses bytes hcompress).decompress (joined_bytewise (bytes.drop 3))
  obtain ⟨log, hback⟩ := hreturn 9 (Nat.le_refl 9) (by decide)
    ⟨fun _ => 0, fun _ => 0, [], 0⟩ _ (joined_bytewise (bytes.drop 3))
  rw [hback] at hdecompress
  cases hdecompress
  rcases hbad with hstatus | hlength
  · exact hstatus rfl
  · exact Nat.lt_irrefl _ hlength

/-- What `compress` makes of an input is decoded to it exactly when the greedy
parse of the input has at most 256 phrases, so that the dictionary is never
cleared. -/
theorem roundTrips_iff {x : List UInt8} (hne : x ≠ []) :
    RoundTrips x ↔ (parse x).length ≤ 256 := by
  constructor
  · intro hround
    by_contra hmany
    exact not_roundTrips_of_long (Nat.lt_of_not_le hmany) hround
  · exact roundTrips_of_short hne

/-- The word `banana` and a word of one letter only. -/
theorem roundTrips_iff_banana :
    RoundTrips [98, 97, 110, 97, 110, 97] ∧ RoundTrips [97, 97, 97, 97, 97] :=
  ⟨(roundTrips_iff (by decide)).mpr (by decide),
    (roundTrips_iff (by decide)).mpr (by decide)⟩

/-- All 256 bytes and the first one again: the last byte is dropped. -/
theorem not_roundTrips_allBytes :
    ¬ ∀ x : List UInt8, x ≠ [] → RoundTrips x := by
  intro hround
  have hnodup : ((List.range 256).map UInt8.ofNat).Nodup := by
    refine (List.nodup_map_iff_inj_on List.nodup_range).mpr ?_
    intro left hleft right hright heq
    have htoNat := congrArg UInt8.toNat heq
    rw [UInt8.toNat_ofNat', UInt8.toNat_ofNat',
      Nat.mod_eq_of_lt (List.mem_range.mp hleft),
      Nat.mod_eq_of_lt (List.mem_range.mp hright)] at htoNat
    exact htoNat
  have hlength : (parse ((List.range 256).map UInt8.ofNat ++ [0])).length = 257 := by
    rw [length_parse_of_nodup (by rwa [List.dropLast_concat])]
    simp
  have hne : (List.range 256).map UInt8.ofNat ++ [0] ≠ [] := by simp
  exact not_roundTrips_of_long (by omega) (hround _ hne)

end Fip.Lzw
