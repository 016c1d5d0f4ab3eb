import Mathlib.Data.List.Nodup
import Fip.Lzw.RoundTrip

/-!
# The dictionary of compress until it is first cleared

The entries stand for distinct strings, none longer than its number allows, so
`buildstr` stays inside its buffer up to the last entry, and the search of
`exist` over strings is a search for a pair of a prefix and a byte.
-/

namespace Fip.Lzw.Compress

open Dictionary

/-! ## States before the first `CLEAR` -/

/-- `adddict` returns 1 in this round of the main loop. -/
def Encoder.Resets (e : Encoder) : Prop :=
  ∃ ch, e.source.inbyte.1 = some ch ∧ e.exist e.w ch = some none ∧
    e.adddict 9 e.w ch = none

/-- The states of the main loop up to the round that clears the dictionary. -/
inductive BeforeReset (memory : Memory) (reads : List Chunk) : Encoder → Prop
  | start : BeforeReset memory reads (memory.encoder 9 reads)
  | step {e e' : Encoder} : BeforeReset memory reads e → ¬ e.Resets →
      Compress.step 9 e = .inl e' → BeforeReset memory reads e'

/-- The entries of the dictionary. -/
def Encoder.Entry (e : Encoder) (h : ℕ) : Prop :=
  257 ≤ h ∧ h < e.counters.nexti

/-- The symbols that stand for a string. -/
def Encoder.Coded (e : Encoder) (s : ℕ) : Prop :=
  s < 256 ∨ e.Entry s

/-- What `buildstr` builds for a symbol. -/
def Encoder.string (e : Encoder) (s : ℕ) : List UInt8 :=
  (buildstr e.ref e.app strz s []).getD []

/-- The dictionary is sound, and what was read so far is what the symbols sent
stand for and the pending string. -/
structure Encoder.Sound (input : List UInt8) (e : Encoder) : Prop where
  builds : ∀ s, e.Coded s → buildstr e.ref e.app strz s [] = some (e.string s)
  length : ∀ h, e.Entry h → 2 ≤ (e.string h).length ∧ (e.string h).length ≤ 256
  distinct : ∀ h h', e.Entry h → e.Entry h' → e.string h = e.string h' → h = h'
  finishes : ∀ w ch, e.Coded w → e.exist w ch ≠ none
  finds : ∀ w ch h, e.Coded w → (e.exist w ch = some (some h) ↔
    e.Entry h ∧ e.string h = e.string w ++ [ch])
  pointers : ∀ w ch h, e.Coded w → e.Entry h →
    (e.string h = e.string w ++ [ch] ↔ e.ref h = w ∧ e.app h = ch)
  coded : e.Coded e.w
  emitted : ∃ symbols, (∀ s ∈ symbols, e.Coded s) ∧
    e.sink.bits = Bits.unpack (header 9) ++ nineBits symbols ∧
    symbols.flatMap e.string ++ e.string e.w ++ e.source.pending = input

/-! ## The invariant of the loop -/

/-- The encoder follows a dictionary of distinct strings that is not over full,
and the symbols sent, the pending word and the rest make up the input. -/
structure Parses (input : List UInt8) (e : Encoder) (dict : List (List UInt8))
    (word : List UInt8) (symbols : List ℕ) : Prop where
  follows : Follows e dict word
  nodup : dict.Nodup
  long : ∀ entry ∈ dict, 2 ≤ entry.length
  room : dict.length ≤ 255
  sent : e.sink.bits = Bits.unpack (header 9) ++ nineBits symbols
  usable : ∀ s ∈ symbols, Usable dict.length s
  read : (symbols.flatMap fun s => string dict (symbol s)) ++ word ++ e.source.pending =
    input

section Parses

variable {input : List UInt8} {e : Encoder} {dict : List (List UInt8)}
variable {word : List UInt8} {symbols : List ℕ}

theorem parses_start (memory : Memory) {reads : List Chunk} {a : UInt8}
    {rest : List UInt8} (hreads : joined reads = a :: rest) :
    Parses (joined reads) (memory.encoder 9 reads) [] [a] [] := by
  obtain ⟨hpending, _, hbits⟩ := encoder_start memory hreads
  refine ⟨follows_start memory hreads, List.nodup_nil, ?_, Nat.zero_le _, ?_, ?_, ?_⟩
  · intro entry hentry
    cases hentry
  · rw [hbits]
    exact (List.append_nil _).symm
  · intro s hs
    cases hs
  · rw [hpending, hreads]
    rfl

/-- What is left of the input when a byte has been read. -/
theorem Parses.read_byte (hparses : Parses input e dict word symbols) {ch : UInt8}
    {rest : List UInt8} (hpending : e.source.pending = ch :: rest) :
    (symbols.flatMap fun s => string dict (symbol s)) ++ (word ++ [ch]) ++ rest = input := by
  rw [← hparses.read, hpending]
  simp only [List.append_assoc, List.singleton_append]

/-- A dictionary of 255 entries is full at nine bits. -/
theorem Parses.resets_of_full (hparses : Parses input e dict word symbols) {ch : UInt8}
    (hbyte : e.source.inbyte.1 = some ch) (hnew : word ++ [ch] ∉ dict)
    (hfull : dict.length = 255) : e.Resets := by
  have hsize : dict.length < strz := Nat.lt_succ_of_le hparses.room
  have hnexti : e.counters.nexti = 1 <<< e.counters.bits := by
    rw [hparses.follows.nexti, hparses.follows.bits, hfull]
    rfl
  have hbits : ¬ e.counters.bits < 9 := by
    rw [hparses.follows.bits]
    exact Nat.lt_irrefl 9
  refine ⟨ch, hbyte, ?_, adddict_of_full hnexti hbits _ _⟩
  rw [hparses.follows.exist hsize, if_neg hnew]

/-- The pending word is sent, and the longer word becomes an entry. -/
theorem Parses.extend (hparses : Parses input e dict word symbols) {e' : Encoder}
    {ch : UInt8} (hnew : word ++ [ch] ∉ dict) (hroom : dict.length < 255)
    (hfollows : Follows e' (dict ++ [word ++ [ch]]) [ch])
    (hsink : e'.sink.bits = e.sink.bits ++ Bits.ofNat 9 e.w)
    (hread : (symbols.flatMap fun s => string dict (symbol s)) ++ (word ++ [ch]) ++
      e'.source.pending = input) :
    Parses input e' (dict ++ [word ++ [ch]]) [ch] (symbols ++ [e.w]) := by
  have hgrown : (dict ++ [word ++ [ch]]).length = dict.length + 1 := List.length_append
  have hsymbols : ∀ s ∈ symbols ++ [e.w], Usable dict.length s := by
    intro s hs
    rcases List.mem_append.mp hs with hs | hs
    · exact hparses.usable s hs
    · rw [List.mem_singleton.mp hs]
      exact hparses.follows.usable
  have hstrings : ((symbols ++ [e.w]).flatMap fun s =>
      string (dict ++ [word ++ [ch]]) (symbol s)) =
        (symbols.flatMap fun s => string dict (symbol s)) ++ word := by
    calc ((symbols ++ [e.w]).flatMap fun s => string (dict ++ [word ++ [ch]]) (symbol s))
        = (symbols ++ [e.w]).flatMap fun s => string dict (symbol s) :=
          List.flatMap_congr fun s hs =>
            (hsymbols s hs).string_append (Nat.le_refl _) _
      _ = _ := by
          rw [List.flatMap_append, List.flatMap_singleton, hparses.follows.string_eq]
  refine ⟨hfollows, ?_, ?_, ?_, ?_, ?_, ?_⟩
  · rw [← List.concat_eq_append]
    exact List.Nodup.concat hnew hparses.nodup
  · intro entry hentry
    rcases List.mem_append.mp hentry with hentry | hentry
    · exact hparses.long entry hentry
    · have hword := List.length_pos_iff.mpr hparses.follows.word_ne_nil
      rw [List.mem_singleton.mp hentry, List.length_append, List.length_singleton]
      exact Nat.succ_le_succ hword
  · rw [hgrown]
    exact hroom
  · rw [hsink, hparses.sent, nineBits_concat, List.append_assoc]
  · intro s hs
    rw [hgrown]
    exact (hsymbols s hs).mono (Nat.le_succ _)
  · rw [hstrings, ← hread]
    simp only [List.append_assoc]

/-- Once round the loop, unless the dictionary is cleared. -/
theorem Parses.step (hparses : Parses input e dict word symbols) {e' : Encoder}
    (hkeeps : ¬ e.Resets) (hstep : Compress.step 9 e = .inl e') :
    ∃ dict' word' symbols', Parses input e' dict' word' symbols' := by
  rcases hpending : e.source.pending with _ | ⟨ch, rest⟩
  · rw [step_end 9 hpending] at hstep
    cases hstep
  have hread := hparses.read_byte hpending
  have hsize : dict.length < strz := Nat.lt_succ_of_le hparses.room
  by_cases hfound : word ++ [ch] ∈ dict
  · obtain ⟨after, hafter, hrest, hsink, hfollows⟩ :=
      hparses.follows.step_found hsize hpending hfound 9
    cases hafter.symm.trans hstep
    rw [← hrest] at hread
    exact ⟨dict, _, symbols, hfollows, hparses.nodup, hparses.long, hparses.room,
      hsink ▸ hparses.sent, hparses.usable, hread⟩
  · have hroom : dict.length < 255 := by
      refine Nat.lt_of_le_of_ne hparses.room fun hfull => hkeeps ?_
      refine hparses.resets_of_full ?_ hfound hfull
      rw [e.source.inbyte_spec.1, hpending]
      rfl
    obtain ⟨after, hafter, hrest, hsink, hfollows⟩ :=
      hparses.follows.step_new hroom hpending hfound 9
    cases hafter.symm.trans hstep
    rw [← hrest] at hread
    exact ⟨_, _, _, hparses.extend hfound hroom hfollows hsink hread⟩

theorem BeforeReset.parses {memory : Memory} {reads : List Chunk}
    (hinput : joined reads ≠ []) (hbefore : BeforeReset memory reads e) :
    ∃ dict word symbols, Parses (joined reads) e dict word symbols := by
  obtain ⟨a, rest, hreads⟩ := List.exists_cons_of_ne_nil hinput
  induction hbefore with
  | start => exact ⟨_, _, _, parses_start memory hreads⟩
  | step _ hkeeps hstep ih =>
      obtain ⟨dict, word, symbols, hparses⟩ := ih
      exact hparses.step hkeeps hstep

/-! ## What the invariant says about the tables -/

theorem Parses.entry_iff (hparses : Parses input e dict word symbols) {h : ℕ} :
    e.Entry h ↔ 257 ≤ h ∧ h < 257 + dict.length := by
  rw [Encoder.Entry, hparses.follows.nexti]

theorem Parses.coded_iff (hparses : Parses input e dict word symbols) {s : ℕ} :
    e.Coded s ↔ Usable dict.length s := by
  rw [Encoder.Coded, hparses.entry_iff, Usable]

/-- No string is too long for the buffer. -/
theorem Parses.buildstr (hparses : Parses input e dict word symbols) {s : ℕ}
    (hcoded : e.Coded s) :
    Compress.buildstr e.ref e.app strz s [] = some (string dict (symbol s)) := by
  have husable := hparses.coded_iff.mp hcoded
  have hlength := hparses.follows.represents.length_string (Nat.le_refl _) husable
  have hroom : dict.length + 1 ≤ strz := Nat.succ_le_succ hparses.room
  rw [buildstr_spec hparses.follows.represents husable (hlength.trans hroom),
    List.append_nil]

theorem Parses.string_eq (hparses : Parses input e dict word symbols) {s : ℕ}
    (hcoded : e.Coded s) : e.string s = string dict (symbol s) := by
  rw [Encoder.string, hparses.buildstr hcoded]
  rfl

theorem Parses.string_literal (hparses : Parses input e dict word symbols) {s : ℕ}
    (hlt : s < 256) : e.string s = [UInt8.ofNat s] := by
  rw [hparses.string_eq (.inl hlt), symbol_of_lt hlt]
  rfl

/-- An entry's string is a member of the dictionary. -/
theorem Parses.string_entry (hparses : Parses input e dict word symbols) {h : ℕ}
    (hentry : e.Entry h) :
    ∃ hindex : h - 257 < dict.length, e.string h = dict[h - 257] := by
  obtain ⟨hge, hlt⟩ := hparses.entry_iff.mp hentry
  have hindex : h - 257 < dict.length := by omega
  refine ⟨hindex, ?_⟩
  rw [hparses.string_eq (.inr hentry), symbol_of_ge hge, string,
    List.getD_eq_getElem _ _ hindex]

theorem Parses.length_entry (hparses : Parses input e dict word symbols) {h : ℕ}
    (hentry : e.Entry h) : 2 ≤ (e.string h).length ∧ (e.string h).length ≤ 256 := by
  have husable := hparses.coded_iff.mp (.inr hentry)
  have hlength := hparses.follows.represents.length_string (Nat.le_refl _) husable
  obtain ⟨hindex, hstring⟩ := hparses.string_entry hentry
  constructor
  · rw [hstring]
    exact hparses.long _ (List.getElem_mem hindex)
  · rw [hparses.string_eq (.inr hentry)]
    exact hlength.trans (Nat.succ_le_succ hparses.room)

theorem Parses.idxOf_entry (hparses : Parses input e dict word symbols) {h : ℕ}
    (hentry : e.Entry h) : 257 + dict.idxOf (e.string h) = h := by
  obtain ⟨hindex, hstring⟩ := hparses.string_entry hentry
  rw [hstring, hparses.nodup.idxOf_getElem]
  exact Nat.add_sub_cancel' hentry.1

theorem Parses.entry_injective (hparses : Parses input e dict word symbols) {h h' : ℕ}
    (hentry : e.Entry h) (hentry' : e.Entry h') (hsame : e.string h = e.string h') :
    h = h' := by
  rw [← hparses.idxOf_entry hentry, ← hparses.idxOf_entry hentry', hsame]

/-- No two symbols stand for one string: a letter's is shorter than any
entry's. -/
theorem Parses.string_injective (hparses : Parses input e dict word symbols) {s s' : ℕ}
    (hcoded : e.Coded s) (hcoded' : e.Coded s') (hsame : e.string s = e.string s') :
    s = s' := by
  have hshort : ∀ {s h : ℕ}, s < 256 → e.Entry h → e.string s ≠ e.string h := by
    intro s h hlt hentry hsame
    have hlong := (hparses.length_entry hentry).1
    rw [← hsame, hparses.string_literal hlt] at hlong
    exact Nat.not_succ_le_self 1 hlong
  rcases hcoded with hlt | hentry <;> rcases hcoded' with hlt' | hentry'
  · rw [hparses.string_literal hlt, hparses.string_literal hlt'] at hsame
    have hletter := congrArg UInt8.toNat (List.singleton_inj.mp hsame)
    rwa [UInt8.toNat_ofNat_of_lt' hlt, UInt8.toNat_ofNat_of_lt' hlt'] at hletter
  · exact absurd hsame (hshort hlt hentry')
  · exact absurd hsame.symm (hshort hlt' hentry)
  · exact hparses.entry_injective hentry hentry' hsame

theorem Parses.exist (hparses : Parses input e dict word symbols) {w : ℕ}
    (hcoded : e.Coded w) (ch : UInt8) :
    e.exist w ch = some (if e.string w ++ [ch] ∈ dict then
      some (257 + dict.idxOf (e.string w ++ [ch])) else none) := by
  rw [exist_spec hparses.follows.represents hparses.follows.nexti
    (Nat.lt_succ_of_le hparses.room) (hparses.coded_iff.mp hcoded),
    hparses.string_eq hcoded]

theorem Parses.exist_iff (hparses : Parses input e dict word symbols) {w : ℕ}
    (hcoded : e.Coded w) (ch : UInt8) (h : ℕ) :
    e.exist w ch = some (some h) ↔ e.Entry h ∧ e.string h = e.string w ++ [ch] := by
  rw [hparses.exist hcoded]
  constructor
  · intro hfound
    split at hfound
    · next hmem =>
        cases hfound
        have hlt := List.idxOf_lt_length_of_mem hmem
        have hentry : e.Entry (257 + dict.idxOf (e.string w ++ [ch])) :=
          hparses.entry_iff.mpr ⟨Nat.le_add_right _ _, Nat.add_lt_add_left hlt _⟩
        refine ⟨hentry, ?_⟩
        obtain ⟨hindex, hstring⟩ := hparses.string_entry hentry
        rw [hstring]
        simp only [Nat.add_sub_cancel_left]
        exact List.getElem_idxOf hlt
    · cases hfound
  · rintro ⟨hentry, hsame⟩
    obtain ⟨hindex, hstring⟩ := hparses.string_entry hentry
    have hmem : e.string h ∈ dict := hstring ▸ List.getElem_mem hindex
    rw [← hsame, if_pos hmem, hparses.idxOf_entry hentry]

/-- The search over strings is a search for the pair. -/
theorem Parses.pair_iff (hparses : Parses input e dict word symbols) {w h : ℕ}
    (hcoded : e.Coded w) (hentry : e.Entry h) (ch : UInt8) :
    e.string h = e.string w ++ [ch] ↔ e.ref h = w ∧ e.app h = ch := by
  obtain ⟨hge, hlt⟩ := hparses.entry_iff.mp hentry
  obtain ⟨husable, hstring⟩ := hparses.follows.represents.string_entry hge hlt
  have href : e.Coded (e.ref h) := hparses.coded_iff.mpr (husable.mono (by omega))
  have hsplit : e.string h = e.string (e.ref h) ++ [e.app h] := by
    rw [hparses.string_eq (.inr hentry), hparses.string_eq href, hstring]
  rw [hsplit, List.append_singleton_inj]
  constructor
  · rintro ⟨hpref, hsuffix⟩
    exact ⟨hparses.string_injective href hcoded hpref, hsuffix⟩
  · rintro ⟨rfl, hsuffix⟩
    exact ⟨rfl, hsuffix⟩

theorem Parses.sound (hparses : Parses input e dict word symbols) : e.Sound input where
  builds s hcoded := by rw [hparses.buildstr hcoded, hparses.string_eq hcoded]
  length _ hentry := hparses.length_entry hentry
  distinct _ _ hentry hentry' hsame := hparses.entry_injective hentry hentry' hsame
  finishes w ch hcoded := by
    rw [hparses.exist hcoded]
    exact Option.some_ne_none _
  finds _ ch h hcoded := hparses.exist_iff hcoded ch h
  pointers _ ch _ hcoded hentry := hparses.pair_iff hcoded hentry ch
  coded := hparses.coded_iff.mpr hparses.follows.usable
  emitted := by
    have hsymbols : ∀ s ∈ symbols, e.Coded s :=
      fun s hs => hparses.coded_iff.mpr (hparses.usable s hs)
    have hpending : e.string e.w = word := by
      rw [hparses.string_eq (hparses.coded_iff.mpr hparses.follows.usable),
        hparses.follows.string_eq]
    have hstrings : symbols.flatMap e.string =
        symbols.flatMap fun s => string dict (symbol s) :=
      List.flatMap_congr fun s hs => hparses.string_eq (hsymbols s hs)
    refine ⟨symbols, hsymbols, hparses.sent, ?_⟩
    rw [hstrings, hpending, hparses.read]

end Parses

/-! ## Every state before the first `CLEAR` -/

/-- On every input the dictionary is sound in every round of the loop up to the
one that clears it. -/
theorem sound_of_beforeReset {memory : Memory} {reads : List Chunk} {e : Encoder}
    (hinput : joined reads ≠ []) (hbefore : BeforeReset memory reads e) :
    e.Sound (joined reads) := by
  obtain ⟨dict, word, symbols, hparses⟩ := hbefore.parses hinput
  exact hparses.sound

/-- `aab` has been read up to its second byte. -/
theorem sound_of_beforeReset_aa :
    ∃ e : Encoder, e.counters.nexti = 258 ∧ e.Sound [97, 97, 98] := by
  let memory : Memory := ⟨fun _ => 0, fun _ => 0, []⟩
  let reads : List Chunk := [⟨[97, 97, 98], by decide, by decide⟩]
  have hinput : joined reads ≠ [] := List.cons_ne_nil _ _
  have hreads : joined reads = 97 :: [97, 98] := rfl
  have hkeeps : ¬ (memory.encoder 9 reads).Resets := by
    rintro ⟨ch, _, _, hfull⟩
    cases hfull
  obtain ⟨hpending, _, _⟩ := encoder_start memory hreads
  obtain ⟨e, hstep, _, _, hafter⟩ := (follows_start memory hreads).step_new (by decide)
    hpending List.not_mem_nil 9
  exact ⟨e, hafter.nexti, sound_of_beforeReset hinput (.step .start hkeeps hstep)⟩

end Fip.Lzw.Compress
