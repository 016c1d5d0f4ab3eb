import Fip.Lzw.Survival

/-!
# The width of the codes

`decompress` compares the width that the header declares with its own limit, and then
widens its codes up to the limit.  It stays at the declared width as long as a decoder
with that limit has room in its dictionary, which is a matter of how many codes stand
between two `CLEAR` codes of the file.
-/

namespace Fip.Lzw.Uncompress

/-- `getsym` is called next. -/
def Reading (s : BitSource × Decoder) : Prop :=
  s.2.prev = none ∨ s.1.eof = false

instance (s : BitSource × Decoder) : Decidable (Reading s) :=
  inferInstanceAs (Decidable (_ ∨ _))

/-- The states at the head of the main loop. -/
def loopStates (mymaxbits : ℕ) (memory : Memory) (reads : List Chunk) (rounds : ℕ) :
    List (BitSource × Decoder) :=
  Machine.visited (step mymaxbits) rounds (memory.input reads, memory.decoder)

/-- What `bits` is at the calls of `getsym` in so many rounds of the main loop, if
`decompress` gets there. -/
def getsymBits (mymaxbits : ℕ) (memory : Memory) (header : List UInt8) (reads : List Chunk)
    (rounds : ℕ) : List ℕ :=
  if header.length < 3 ∨ header.take 2 ≠ magic then []
  else
    let maxbits := (header.getD 2 0 &&& 0x1f).toNat
    if maxbits > mymaxbits then []
    else ((loopStates mymaxbits memory reads rounds).filter (Reading ·)).map (·.2.counters.bits)

/-- There is room for another entry with a code of the width of the limit, wherever the
main loop gets to from here. -/
def Roomy (width : ℕ) (s : BitSource × Decoder) : Prop :=
  ∀ rounds, ∀ t ∈ Machine.visited (step width) rounds s, t.2.counters.nexti < 2 ^ width

/-- The codes that are read, until the input ends or is rejected; each takes one unit of
`fuel`. -/
def codesFrom (mymaxbits : ℕ) : ℕ → Phase → List Bool → List ℕ
  | 0, _, _ => []
  | fuel + 1, phase, bits =>
      let code := Bits.toNat (bits.take phase.counters.bits)
      if phase.fresh = false ∧
          (bits.length < phase.counters.bits ∨ code > phase.counters.nexti) then []
      else
        code :: codesFrom mymaxbits fuel (phase.next mymaxbits code)
          (bits.drop phase.counters.bits)

/-- The codes of a file behind its header. -/
def codesOf (mymaxbits : ℕ) (stream : List UInt8) : List ℕ :=
  codesFrom mymaxbits (8 * stream.length + 2) .start (Bits.unpack stream)

/-- How many codes stand behind each start code, up to the next `CLEAR`; so many have been
counted behind the last one. -/
def stretches : Bool → ℕ → List ℕ → List ℕ
  | _, counted, [] => [counted]
  | true, counted, _ :: codes => stretches false counted codes
  | false, counted, code :: codes =>
      if code = clear then counted :: stretches true 0 codes
      else stretches false (counted + 1) codes

/-- No stretch of codes between two `CLEAR` codes fills the entries of that width. -/
def HasRoom (width : ℕ) (stream : List UInt8) : Prop :=
  ∀ counted ∈ stretches true 0 (codesOf width stream), 257 + counted < 2 ^ width

instance (width : ℕ) (stream : List UInt8) : Decidable (HasRoom width stream) :=
  inferInstanceAs (Decidable (∀ _ ∈ _, _))

section

variable {width mymaxbits cur : ℕ} {d : Decoder}

/-- The counters of a decoder that goes on beyond the width. -/
def Counters.widen (width : ℕ) (counters : Counters) : Counters :=
  if counters.nexti < 2 ^ width then counters else ⟨counters.nexti, width + 1⟩

def Decoder.widen (width : ℕ) (d : Decoder) : Decoder :=
  { d with counters := Counters.widen width d.counters }

theorem Counters.widen_of_room {counters : Counters} (hroom : counters.nexti < 2 ^ width) :
    Counters.widen width counters = counters :=
  if_pos hroom

theorem Decoder.widen_of_room (hroom : d.counters.nexti < 2 ^ width) : d.widen width = d := by
  rw [Decoder.widen, Counters.widen_of_room hroom]

/-- A decoder with a higher limit differs in what it does about the last entry. -/
theorem advance_eq_widen {counters : Counters} (hsound : Counters.Sound width counters)
    (hroom : counters.nexti < 2 ^ width) (hlimit : width < mymaxbits) :
    advance mymaxbits counters = Counters.widen width (advance width counters) := by
  obtain ⟨hge, hle, hnexti, hbound, hfull⟩ := hsound
  have hopen : counters.nexti ≠ 2 ^ counters.bits := by
    intro heq
    rw [hfull heq] at heq
    exact Nat.ne_of_lt hroom heq
  rw [advance, advance, Nat.one_shiftLeft, if_neg hopen, if_neg hopen]
  dsimp only
  rcases Nat.lt_or_eq_of_le hle with hlt | heq
  · have hmore : 2 ^ (counters.bits + 1) ≤ 2 ^ width :=
      Nat.pow_le_pow_right Nat.two_pos hlt
    have hdouble : 2 ^ (counters.bits + 1) = 2 * 2 ^ counters.bits := Nat.pow_succ'
    have hpos : 0 < 2 ^ counters.bits := Nat.two_pow_pos _
    simp only [hlt, Nat.lt_trans hlt hlimit, and_true]
    split
    · exact (Counters.widen_of_room (show counters.nexti + 1 < 2 ^ width by omega)).symm
    · exact (Counters.widen_of_room (show counters.nexti + 1 < 2 ^ width by omega)).symm
  · simp only [heq, Nat.lt_irrefl, and_false, if_false, hlimit, and_true, Counters.widen]
    by_cases hlast : counters.nexti + 1 < 2 ^ width
    · rw [if_pos hlast, if_neg (Nat.not_le_of_lt hlast)]
    · rw [if_neg hlast, if_pos (Nat.not_lt.mp hlast)]

/-- What is printed does not depend on the counters. -/
theorem printsym_widen (fuel sym : ℕ) (d : Decoder) :
    (d.widen width).printsym fuel sym = (d.printsym fuel sym).map (Decoder.widen width) := by
  induction fuel generalizing sym d with
  | zero =>
      rw [Decoder.printsym, Decoder.printsym]
      split
      · rfl
      · rfl
  | succ fuel ih =>
      have hread := ih (d.ref sym) (d.read (.ref sym))
      rw [Decoder.printsym, Decoder.printsym]
      split
      · rfl
      · have hsame : (d.widen width).read (.ref sym) = (d.read (.ref sym)).widen width := rfl
        rw [hsame]
        have href : (d.widen width).ref sym = d.ref sym := rfl
        rw [href, hread]
        cases (d.read (.ref sym)).printsym fuel (d.ref sym) with
        | none => rfl
        | some d' => rfl

theorem adddict_eq_widen (hsound : Counters.Sound width d.counters)
    (hroom : d.counters.nexti < 2 ^ width) (hlimit : width < mymaxbits) (pref : ℕ)
    (suffix : UInt8) :
    d.adddict mymaxbits pref suffix = (d.adddict width pref suffix).widen width := by
  rw [Decoder.adddict, Decoder.adddict]
  split
  · exact (Decoder.widen_of_room hroom).symm
  · rw [advance_eq_widen hsound hroom hlimit]
    rfl

/-- A code does the same for both limits, but for the counters behind the last entry. -/
theorem code_eq_widen (hlow : 9 ≤ width) (hsound : Counters.Sound width d.counters)
    (hroom : d.counters.nexti < 2 ^ width) (hlimit : width < mymaxbits) (cur : ℕ) :
    d.code mymaxbits cur = (d.code width cur).map (Decoder.widen width) id := by
  rcases hprev : d.prev with _ | prev
  · rw [Decoder.code, Decoder.code, hprev]
    dsimp only
    rcases hprint : d.printsym codeSpace cur with _ | d₁
    · rfl
    · have hcounters : d₁.counters = d.counters := by rw [(printsym_frame hprint).1]
      have hsame : Decoder.widen width { d₁ with prev := some cur } =
          { d₁ with prev := some cur } :=
        Decoder.widen_of_room (by rw [← hcounters] at hroom; exact hroom)
      exact congrArg Sum.inl hsame.symm
  · rw [Decoder.code, Decoder.code, hprev]
    dsimp only
    split
    · rfl
    · split
      · have hcleared : Counters.cleared.nexti < 2 ^ width :=
          Nat.lt_of_lt_of_le (by decide) (Nat.pow_le_pow_right Nat.two_pos hlow)
        have hsame : Decoder.widen width { d.cleardict with prev := none } =
            { d.cleardict with prev := none } := Decoder.widen_of_room hcleared
        exact congrArg Sum.inl hsame.symm
      · rcases hfirst : d.first codeSpace (if cur = d.counters.nexti then prev else cur) with
          _ | ⟨suffix, d₁⟩
        · rfl
        · have hcounters : d₁.counters = d.counters := by rw [(first_frame hfirst).1]
          rw [← hcounters] at hsound hroom
          dsimp only
          rw [adddict_eq_widen hsound hroom hlimit, printsym_widen]
          cases (d₁.adddict width prev suffix).printsym codeSpace cur with
          | none => rfl
          | some d₂ => rfl

/-! ## Rounds of the main loop -/

def widenState (width : ℕ) (s : BitSource × Decoder) : BitSource × Decoder :=
  (s.1, s.2.widen width)

theorem step_eq_widen (hlow : 9 ≤ width) {s : BitSource × Decoder}
    (hsound : Counters.Sound width s.2.counters) (hroom : s.2.counters.nexti < 2 ^ width)
    (hlimit : width < mymaxbits) :
    step mymaxbits s = (step width s).map (widenState width) id := by
  obtain ⟨input, d⟩ := s
  have hcode := code_eq_widen hlow hsound hroom hlimit
  rw [step, step]
  dsimp only
  rcases d.prev with _ | prev
  · dsimp only
    rw [hcode]
    cases d.code width (input.getsym d.counters.bits).1 with
    | inl d' => rfl
    | inr result => rfl
  · dsimp only
    split
    · rfl
    · split
      · rfl
      · rw [hcode]
        cases d.code width (input.getsym d.counters.bits).1 with
        | inl d' => rfl
        | inr result => rfl

/-- A round that goes on has read a code, in the inner loop before the end of the file. -/
theorem step_inl {s s' : BitSource × Decoder} (hstep : step mymaxbits s = .inl s') :
    ∃ cur, s.2.code mymaxbits cur = .inl s'.2 ∧ (s.2.prev ≠ none → s'.1.eof = false) := by
  obtain ⟨input, d⟩ := s
  rw [step] at hstep
  dsimp only at hstep
  rcases hprev : d.prev with _ | prev
  · rw [hprev] at hstep
    dsimp only at hstep
    rcases hcode : d.code mymaxbits (input.getsym d.counters.bits).1 with d' | result
    · rw [hcode] at hstep
      cases hstep
      exact ⟨_, hcode, fun hsome => absurd rfl hsome⟩
    · rw [hcode] at hstep
      cases hstep
  · rw [hprev] at hstep
    dsimp only at hstep
    split at hstep
    · cases hstep
    · split at hstep
      · cases hstep
      · next heof =>
          rcases hcode : d.code mymaxbits (input.getsym d.counters.bits).1 with d' | result
          · rw [hcode] at hstep
            cases hstep
            exact ⟨_, hcode, fun _ => Bool.eq_false_iff.mpr heof⟩
          · rw [hcode] at hstep
            cases hstep

theorem step_sound (hlow : 9 ≤ width) {s s' : BitSource × Decoder}
    (hsound : Counters.Sound width s.2.counters) (hstep : step width s = .inl s') :
    Counters.Sound width s'.2.counters := by
  obtain ⟨cur, hcode, -⟩ := step_inl hstep
  exact code_sound hlow hsound hcode

theorem sound_of_visited (hlow : 9 ≤ width) {rounds : ℕ} {s t : BitSource × Decoder}
    (hsound : Counters.Sound width s.2.counters)
    (ht : t ∈ Machine.visited (step width) rounds s) : Counters.Sound width t.2.counters :=
  Machine.forall_visited (fun _ _ hsound => step_sound hlow hsound) hsound t ht

/-- While there is room the higher limit makes no difference. -/
theorem visited_of_room (hlow : 9 ≤ width) (hlimit : width < mymaxbits)
    {s : BitSource × Decoder} (hsound : Counters.Sound width s.2.counters)
    (hroom : Roomy width s) (rounds : ℕ) :
    Machine.visited (step mymaxbits) rounds s = Machine.visited (step width) rounds s := by
  apply Machine.visited_congr
  intro t ht
  rw [step_eq_widen hlow (sound_of_visited hlow hsound ht) (hroom rounds t ht) hlimit]
  rcases hstep : step width t with u | result
  · have hu := hroom (rounds + 1) u (Machine.visited_next ht hstep)
    exact congrArg (fun d => Sum.inl (u.1, d)) (Decoder.widen_of_room hu)
  · rfl

/-- Behind the last entry of the lower limit a wider code is read. -/
theorem wider_of_full (hlow : 9 ≤ width) (hlimit : width < mymaxbits) {rounds : ℕ}
    {s : BitSource × Decoder} (hsound : Counters.Sound width s.2.counters)
    (hroom : s.2.counters.nexti < 2 ^ width)
    (hfull : ∃ t ∈ Machine.visited (step width) rounds s, ¬ t.2.counters.nexti < 2 ^ width) :
    ∃ more, ∃ t ∈ Machine.visited (step mymaxbits) more s, Reading t ∧
      t.2.counters.bits = width + 1 := by
  induction rounds generalizing s with
  | zero =>
      obtain ⟨t, ht, -⟩ := hfull
      cases ht
  | succ rounds ih =>
      obtain ⟨t, ht, hnexti⟩ := hfull
      rw [Machine.visited] at ht
      rcases List.mem_cons.mp ht with rfl | ht
      · exact absurd hroom hnexti
      · have hwiden := step_eq_widen hlow hsound hroom hlimit
        rcases hstep : step width s with s' | result
        · rw [hstep] at ht hwiden
          have hsound' := step_sound hlow hsound hstep
          by_cases hroom' : s'.2.counters.nexti < 2 ^ width
          · obtain ⟨more, t, ht, hreading⟩ := ih hsound' hroom' ⟨t, ht, hnexti⟩
            have hnext : step mymaxbits s = .inl s' :=
              hwiden.trans (congrArg (fun d => Sum.inl (s'.1, d)) (Decoder.widen_of_room hroom'))
            refine ⟨more + 1, t, ?_, hreading⟩
            rw [Machine.visited, hnext]
            exact List.mem_cons_of_mem _ ht
          · obtain ⟨cur, hcode, heof⟩ := step_inl hstep
            have hprev : s.2.prev ≠ none := by
              intro hnone
              have hcounters : s'.2.counters = s.2.counters := by
                have hphase := congrArg Phase.counters (code_phase hcode)
                have hfresh : s.2.phase.fresh = true := Option.isNone_iff_eq_none.mpr hnone
                rw [Phase.next, if_pos hfresh] at hphase
                exact hphase
              rw [hcounters] at hroom'
              exact hroom' hroom
            refine ⟨2, widenState width s', ?_, .inr (heof hprev), ?_⟩
            · rw [Machine.visited, hwiden]
              exact List.mem_cons_of_mem _ List.mem_cons_self
            · exact congrArg Counters.bits (if_neg hroom')
        · rw [hstep] at ht
          cases ht

theorem getsymBits_headerOf {flags : UInt8} (hfits : (flags &&& 0x1f).toNat ≤ mymaxbits)
    (memory : Memory) (reads : List Chunk) (rounds : ℕ) :
    getsymBits mymaxbits memory (headerOf flags) reads rounds =
      ((loopStates mymaxbits memory reads rounds).filter (Reading ·)).map
        (·.2.counters.bits) := by
  rw [getsymBits, if_neg (not_bad_headerOf flags)]
  exact if_neg (Nat.not_lt.mpr hfits)

/-- No code that is read has more bits than the header declares exactly if it declares
the limit of the program, or a decoder with the declared limit always has room for
another entry. -/
theorem getsymBits_le_iff_roomy {flags : UInt8} (hlow : 9 ≤ (flags &&& 0x1f).toNat)
    (hfits : (flags &&& 0x1f).toNat ≤ mymaxbits) (memory : Memory) (reads : List Chunk) :
    (∀ rounds, ∀ bits ∈ getsymBits mymaxbits memory (headerOf flags) reads rounds,
        bits ≤ (flags &&& 0x1f).toNat) ↔
      (flags &&& 0x1f).toNat = mymaxbits ∨
        Roomy (flags &&& 0x1f).toNat (memory.input reads, memory.decoder) := by
  simp only [getsymBits_headerOf hfits, List.forall_mem_map, List.mem_filter, decide_eq_true_eq,
    and_imp]
  generalize (flags &&& 0x1f).toNat = width at hlow hfits
  have hsound : Counters.Sound width memory.decoder.counters := Counters.sound_cleared hlow
  rcases Nat.lt_or_eq_of_le hfits with hlimit | rfl
  · rw [or_iff_right (Nat.ne_of_lt hlimit)]
    constructor
    · intro hnarrow rounds t ht
      by_contra hfull
      have hcleared : memory.decoder.counters.nexti < 2 ^ width :=
        Nat.lt_of_lt_of_le (by decide : 257 < 2 ^ 9) (Nat.pow_le_pow_right Nat.two_pos hlow)
      obtain ⟨more, u, hu, hreading, hbits⟩ :=
        wider_of_full hlow hlimit (s := (memory.input reads, memory.decoder)) hsound hcleared
          ⟨t, ht, hfull⟩
      have hle := hnarrow more u hu hreading
      rw [hbits] at hle
      exact Nat.not_succ_le_self width hle
    · intro hroom rounds s hs _
      rw [loopStates, visited_of_room hlow hlimit hsound hroom] at hs
      exact (sound_of_visited hlow hsound hs).bits_le
  · refine iff_of_true ?_ (.inl rfl)
    intro rounds s hs _
    exact (sound_of_visited hlow hsound hs).bits_le

end

/-! ## The stretches of a file -/

section Stretches

variable {width fuel counted : ℕ} {phase : Phase} {bits : List Bool}

theorem exists_le_stretches (fresh : Bool) (counted : ℕ) (codes : List ℕ) :
    ∃ most ∈ stretches fresh counted codes, counted ≤ most := by
  induction codes generalizing fresh counted with
  | nil => exact ⟨counted, List.mem_cons_self, Nat.le_refl _⟩
  | cons code codes ih =>
      cases fresh with
      | true => exact ih false counted
      | false =>
          rw [stretches]
          split
          · exact ⟨counted, List.mem_cons_self, Nat.le_refl _⟩
          · obtain ⟨most, hmost, hle⟩ := ih false (counted + 1)
            exact ⟨most, hmost, Nat.le_of_succ_le hle⟩

theorem nexti_advance_of_room {counters : Counters} (hsound : Counters.Sound width counters)
    (hroom : counters.nexti < 2 ^ width) :
    (advance width counters).nexti = counters.nexti + 1 := by
  have hopen : ¬ counters.nexti = 1 <<< counters.bits := by
    rw [Nat.one_shiftLeft]
    intro heq
    rw [hsound.full heq] at heq
    exact Nat.ne_of_lt hroom heq
  rw [advance, if_neg hopen]
  dsimp only
  split
  · rfl
  · rfl

/-- A code that is read, and what is counted behind it. -/
theorem forall_stretches_cons (hsound : Counters.Sound width phase.counters)
    (hnexti : phase.counters.nexti = 257 + counted) (hroom : 257 + counted < 2 ^ width)
    (code : ℕ) : ∃ next, (phase.next width code).counters.nexti = 257 + next ∧
      ∀ codes, (∀ n ∈ stretches phase.fresh counted (code :: codes), 257 + n < 2 ^ width) ↔
        ∀ n ∈ stretches (phase.next width code).fresh next codes, 257 + n < 2 ^ width := by
  rw [Phase.next]
  cases phase.fresh with
  | true => exact ⟨counted, hnexti, fun codes => Iff.rfl⟩
  | false =>
      by_cases hclear : code = clear
      · refine ⟨0, ?_, fun codes => ?_⟩
        · rw [if_neg Bool.false_ne_true, if_pos hclear]
          rfl
        · rw [if_neg Bool.false_ne_true, if_pos hclear, stretches, if_pos hclear,
            List.forall_mem_cons, and_iff_right hroom]
          rfl
      · refine ⟨counted + 1, ?_, fun codes => ?_⟩
        · rw [if_neg Bool.false_ne_true, if_neg hclear]
          exact (nexti_advance_of_room hsound (hnexti ▸ hroom)).trans (congrArg (· + 1) hnexti)
        · rw [if_neg Bool.false_ne_true, if_neg hclear, stretches, if_neg hclear]

/-- The input ends in front of the code, or the code is rejected. -/
def Stops (input : BitSource) (d : Decoder) : Prop :=
  d.phase.fresh = false ∧
    (input.bits.length < d.counters.bits ∨ nextCode input d > d.counters.nexti)

theorem codesFrom_stop {input : BitSource} {d : Decoder} (hstops : Stops input d) :
    codesFrom width (fuel + 1) d.phase input.bits = [] :=
  if_pos hstops

theorem codesFrom_read {input : BitSource} {d : Decoder} (hgoes : ¬ Stops input d) :
    codesFrom width (fuel + 1) d.phase input.bits =
      nextCode input d :: codesFrom width fuel (d.phase.next width (nextCode input d))
        (input.bits.drop d.counters.bits) :=
  if_neg hgoes

theorem code_le {cur : ℕ} {d d' : Decoder} (hcode : d.code width cur = .inl d')
    (hprev : d.prev ≠ none) : ¬ cur > d.counters.nexti := by
  obtain ⟨prev, hprev⟩ := Option.ne_none_iff_exists'.mp hprev
  intro hbad
  rw [Tracks.code_bad hprev hbad] at hcode
  cases hcode

/-- A file that is counted to have room has it. -/
theorem roomy_of_stretches (hlow : 9 ≤ width) {s : BitSource × Decoder}
    (hsound : Counters.Sound width s.2.counters)
    (hnexti : s.2.counters.nexti = 257 + counted) (hfuel : remaining s ≤ fuel)
    (hroom : ∀ n ∈ stretches s.2.phase.fresh counted (codesFrom width fuel s.2.phase s.1.bits),
      257 + n < 2 ^ width) : Roomy width s := by
  intro rounds
  induction rounds generalizing s counted fuel with
  | zero => exact List.forall_mem_nil _
  | succ rounds ih =>
      obtain ⟨input, d⟩ := s
      dsimp only at hsound hnexti hroom
      obtain ⟨fuel, rfl⟩ := Nat.exists_eq_succ_of_ne_zero
        (Nat.ne_zero_of_lt (hfuel.trans_lt' (Nat.pos_of_ne_zero (remaining_pos _))))
      obtain ⟨most, hmost, hle⟩ := exists_le_stretches d.phase.fresh counted
        (codesFrom width (fuel + 1) d.phase input.bits)
      have hhere : 257 + counted < 2 ^ width :=
        Nat.lt_of_le_of_lt (Nat.add_le_add_left hle 257) (hroom most hmost)
      rw [Machine.visited, List.forall_mem_cons]
      refine ⟨hnexti ▸ hhere, ?_⟩
      rcases hstep : step width (input, d) with s' | result
      · have hread : Reads input d := by
          by_contra hread
          rw [step_finished hread] at hstep
          cases hstep
        obtain ⟨input', hbits, -, hround⟩ := step_read width hread
        rcases hcode : d.code width (nextCode input d) with d' | result
        · rw [hround, hcode] at hstep
          cases hstep
          have hgoes : ¬ Stops input d := by
            rintro ⟨hfresh, hstops⟩
            have hprev : d.prev ≠ none :=
              Option.isSome_iff_ne_none.mp (Option.isNone_eq_false_iff.mp hfresh)
            exact hstops.elim (hread.resolve_left hprev).2 (code_le hcode hprev)
          have hless := remaining_read hsound hread hbits hcode
          obtain ⟨next, hnext, hcount⟩ :=
            @forall_stretches_cons width counted d.phase hsound hnexti hhere (nextCode input d)
          rw [codesFrom_read hgoes] at hroom
          have hrest := (hcount _).mp hroom
          rw [← code_phase hcode] at hnext hrest
          refine ih (step_sound hlow hsound (hround.trans (hcode ▸ rfl))) hnext
            (Nat.le_of_lt_succ (Nat.lt_of_lt_of_le hless hfuel)) ?_
          rw [hbits]
          exact hrest
        · rw [hround, hcode] at hstep
          cases hstep
      · exact List.forall_mem_nil _

/-- As long as start codes are bytes a code that is not rejected goes on. -/
theorem Sane.exists_step (hlow : 9 ≤ width) (hhigh : width ≤ 14) {input : BitSource}
    {d : Decoder} (hsane : Sane width True (input, d))
    (hgoes : d.prev = none ∨
      ¬ (input.bits.length < d.counters.bits ∨ nextCode input d > d.counters.nexti)) :
    ∃ input' d', input'.bits = input.bits.drop d.counters.bits ∧
      d'.phase = d.phase.next width (nextCode input d) ∧
      step width (input, d) = .inl (input', d') ∧ Sane width True (input', d') := by
  obtain ⟨⟨dict, htracks⟩, -, hdrained, fuel, hfuel, hstarts⟩ := id hsane
  dsimp only at htracks hdrained hstarts
  have hge := htracks.sound.bits_ge
  have hread : Reads input d := by
    refine hgoes.imp_right fun hgoes => ⟨Bool.eq_false_iff.mpr fun hend => ?_, fun hshort =>
      hgoes (.inl hshort)⟩
    rw [hdrained hend, List.length_nil] at hgoes
    exact hgoes (.inl (Nat.lt_of_lt_of_le (by decide) hge))
  obtain ⟨input', hbits, -, hround⟩ := step_read width hread
  have hcode : ∃ d', d.code width (nextCode input d) = .inl d' := by
    by_cases hprev : d.prev = none
    · obtain ⟨fuel, rfl⟩ := Nat.exists_eq_succ_of_ne_zero
        (Nat.ne_zero_of_lt (hfuel.trans_lt' (Nat.pos_of_ne_zero (remaining_pos _))))
      have hfresh : d.phase.fresh = true := Option.isNone_iff_eq_none.mpr hprev
      rw [startCodes_fresh hfresh, List.forall_mem_cons, true_iff] at hstarts
      obtain ⟨d', hcode, -⟩ := htracks.code_start hhigh hprev hstarts.1
      exact ⟨d', hcode⟩
    · rcases htracks.exists_code hlow hhigh hprev (nextCode_lt input d) with
        ⟨-, hbad⟩ | ⟨-, d', -, hcode, -⟩
      · exact absurd (.inr hbad) (hgoes.resolve_left hprev)
      · exact ⟨d', hcode⟩
  obtain ⟨d', hcode⟩ := hcode
  have hstep : step width (input, d) = .inl (input', d') := hround.trans (hcode ▸ rfl)
  have hkeeps := keeps_of_inv hlow hhigh (input, d) (.inl hsane)
  rw [Keeps, hstep] at hkeeps
  exact ⟨input', d', hbits, code_phase hcode, hstep,
    hkeeps.1.resolve_right fun hlost => hlost.bad trivial⟩

/-- A file whose start codes are bytes is counted to have the room that it has. -/
theorem stretches_of_roomy (hlow : 9 ≤ width) (hhigh : width ≤ 14) {s : BitSource × Decoder}
    (hsane : Sane width True s) (hnexti : s.2.counters.nexti = 257 + counted)
    (hroomy : Roomy width s) :
    ∀ n ∈ stretches s.2.phase.fresh counted (codesFrom width fuel s.2.phase s.1.bits),
      257 + n < 2 ^ width := by
  have hhere : s.2.counters.nexti < 2 ^ width := hroomy 1 s List.mem_cons_self
  induction fuel generalizing s counted with
  | zero => exact List.forall_mem_singleton.mpr (hnexti ▸ hhere)
  | succ fuel ih =>
      obtain ⟨input, d⟩ := s
      dsimp only
      by_cases hstops : Stops input d
      · rw [codesFrom_stop hstops, hstops.1]
        exact List.forall_mem_singleton.mpr (hnexti ▸ hhere)
      · rw [codesFrom_read hstops]
        have hgoes : d.prev = none ∨
            ¬ (input.bits.length < d.counters.bits ∨ nextCode input d > d.counters.nexti) := by
          by_cases hprev : d.prev = none
          · exact .inl hprev
          · exact .inr fun hshort => hstops ⟨Option.isNone_eq_false_iff.mpr
              (Option.isSome_iff_ne_none.mpr hprev), hshort⟩
        obtain ⟨⟨dict, htracks⟩, -, -, -⟩ := id hsane
        obtain ⟨input', d', hbits, hphase, hstep, hsane'⟩ := hsane.exists_step hlow hhigh hgoes
        obtain ⟨next, hnext, hcount⟩ := @forall_stretches_cons width counted d.phase
          htracks.sound hnexti (hnexti ▸ hhere) (nextCode input d)
        have hroomy' : Roomy width (input', d') := fun rounds t ht =>
          hroomy (rounds + 1) t (by
            rw [Machine.visited, hstep]
            exact List.mem_cons_of_mem _ ht)
        refine (hcount _).mpr ?_
        rw [← hphase] at hnext ⊢
        have hrest := ih hsane' hnext hroomy' (hroomy' 1 _ List.mem_cons_self)
        rw [hbits] at hrest
        exact hrest

/-- Every code that is counted has taken nine bits of the file at least. -/
theorem stretches_le (hlow : 9 ≤ width) (hsound : Counters.Sound width phase.counters) :
    ∀ n ∈ stretches phase.fresh counted (codesFrom width fuel phase bits),
      9 * n ≤ 9 * counted + bits.length := by
  induction fuel generalizing phase bits counted with
  | zero => exact List.forall_mem_singleton.mpr (Nat.le_add_right _ _)
  | succ fuel ih =>
      have hge := hsound.bits_ge
      rw [codesFrom]
      split
      · exact List.forall_mem_singleton.mpr (Nat.le_add_right _ _)
      · next hgoes =>
          rw [not_and, not_or] at hgoes
          generalize Bits.toNat (bits.take phase.counters.bits) = code at hgoes
          have hnext := Phase.sound_next hlow hsound code
          have hlength : (bits.drop phase.counters.bits).length =
            bits.length - phase.counters.bits := List.length_drop
          rw [Phase.next] at hnext ⊢
          cases hfresh : phase.fresh with
          | true =>
              rw [hfresh, if_pos rfl] at hnext
              rw [if_pos rfl, stretches]
              exact fun n hn => Nat.le_trans (ih hnext n hn) (by omega)
          | false =>
              have hlong := (hgoes hfresh).1
              rw [hfresh, if_neg Bool.false_ne_true] at hnext
              rw [if_neg Bool.false_ne_true, stretches]
              by_cases hclear : code = clear
              · rw [if_pos hclear] at hnext
                rw [if_pos hclear, if_pos hclear, List.forall_mem_cons]
                exact ⟨Nat.le_add_right _ _, fun n hn => Nat.le_trans (ih hnext n hn) (by omega)⟩
              · rw [if_neg hclear] at hnext
                rw [if_neg hclear, if_neg hclear]
                exact fun n hn => Nat.le_trans (ih hnext n hn) (by omega)


/-- A file that is short enough never fills the dictionary. -/
theorem hasRoom_of_short (hlow : 9 ≤ width) {stream : List UInt8}
    (hshort : 8 * stream.length < 9 * (2 ^ width - 257)) : HasRoom width stream := by
  intro n hn
  have hle := @stretches_le _ _ _ .start _ hlow (Counters.sound_cleared hlow) n hn
  rw [Bits.length_unpack] at hle
  omega

end Stretches

/-- No code that is read has more bits than the header declares if it declares the limit of
the program, or no stretch of codes fills the dictionary of that width; where no start code
is above 255, only then. -/
theorem getsymBits_le_iff {mymaxbits : ℕ} {flags : UInt8} (hlow : 9 ≤ (flags &&& 0x1f).toNat)
    (hfits : (flags &&& 0x1f).toNat ≤ mymaxbits) (memory : Memory) (reads : List Chunk) :
    ((flags &&& 0x1f).toNat = mymaxbits ∨ HasRoom (flags &&& 0x1f).toNat (joined reads) →
        ∀ rounds, ∀ bits ∈ getsymBits mymaxbits memory (headerOf flags) reads rounds,
          bits ≤ (flags &&& 0x1f).toNat) ∧
      (mymaxbits ≤ 14 →
        (∀ code ∈ startCodesOf (flags &&& 0x1f).toNat (joined reads), code < 256) →
        (∀ rounds, ∀ bits ∈ getsymBits mymaxbits memory (headerOf flags) reads rounds,
          bits ≤ (flags &&& 0x1f).toNat) →
        (flags &&& 0x1f).toNat = mymaxbits ∨ HasRoom (flags &&& 0x1f).toNat (joined reads)) := by
  rw [getsymBits_le_iff_roomy hlow hfits]
  generalize (flags &&& 0x1f).toNat = width at hlow hfits
  have hfuel : remaining (memory.input reads, memory.decoder) = 8 * (joined reads).length + 2 :=
    congrArg (· + 2) (Bits.length_unpack _)
  constructor
  · exact Or.imp_right fun hroom =>
      roomy_of_stretches hlow (Counters.sound_cleared hlow) rfl hfuel.le hroom
  · intro hhigh hstarts
    refine Or.imp_right fun hroomy => ?_
    have hsane : Sane width True (memory.input reads, memory.decoder) :=
      ⟨⟨[], memory.tracks hlow⟩, fun _ => rfl, nofun, _, hfuel.le, (true_iff _).mpr hstarts⟩
    exact stretches_of_roomy hlow (Nat.le_trans hfits hhigh) hsane rfl hroomy

/-- `abab` with one entry, a `CLEAR`, and `aaa` with an entry that is used at once. -/
theorem getsymBits_le_iff_twoStretches :
    codesOf 9 [97, 196, 4, 4, 24, 38, 32] = [97, 98, 257, 256, 97, 257] ∧
      HasRoom 9 [97, 196, 4, 4, 24, 38, 32] ∧
      ∀ (memory : Memory) (reads : List Chunk), joined reads = [97, 196, 4, 4, 24, 38, 32] →
        ((∀ code ∈ startCodesOf 9 (joined reads), code < 256) ∧
          ∀ rounds, ∀ bits ∈ getsymBits 14 memory (headerOf 0x89) reads rounds, bits ≤ 9) := by
  have hroom : HasRoom 9 [97, 196, 4, 4, 24, 38, 32] := by decide
  have hstarts : ∀ code ∈ startCodesOf 9 [97, 196, 4, 4, 24, 38, 32], code < 256 := by decide
  refine ⟨by decide, hroom, fun memory reads hreads => ⟨hreads ▸ hstarts, ?_⟩⟩
  exact (@getsymBits_le_iff 14 0x89 (by decide) (by decide) memory reads).1
    (.inr (hreads ▸ hroom))


/-! ## A file of zeros -/

theorem code_zero (mymaxbits : ℕ) {d : Decoder} (hprev : d.prev = some 0) :
    ∃ d', d.code mymaxbits 0 = .inl d' ∧ d'.prev = some 0 ∧
      d'.counters = advance mymaxbits d.counters := by
  have hfirst : d.first codeSpace (if 0 = d.counters.nexti then 0 else 0) = some (0, d) := by
    rw [ite_self]
    exact first_of_lt (by decide) codeSpace d
  have hcode : d.code mymaxbits 0 = .inl _ :=
    code_eq_next hprev (Nat.zero_le _) (by decide) hfirst (printsym_of_lt (by decide) _ _)
  exact ⟨_, hcode, rfl, (advance_adddict d 0 0).1⟩

/-- A code of zeros in front of as many as are left. -/
theorem step_zero (mymaxbits : ℕ) {more : ℕ} {input : BitSource} {d : Decoder}
    (hprev : d.prev = some 0) (heof : input.eof = false) (hnine : d.counters.bits = 9)
    (hbits : input.bits = List.replicate (9 + more) false) :
    ∃ input' d', step mymaxbits (input, d) = .inl (input', d') ∧ input'.eof = false ∧
      input'.bits = List.replicate more false ∧ d'.prev = some 0 ∧
      d'.counters = advance mymaxbits d.counters := by
  have hlength : ¬ input.bits.length < d.counters.bits := by
    rw [hbits, hnine, List.length_replicate]
    omega
  have hcode : nextCode input d = 0 := by
    rw [nextCode, hbits, hnine, List.take_replicate, Nat.min_eq_left (Nat.le_add_right 9 more)]
    rfl
  obtain ⟨input', hbits', heof', hstep⟩ := step_read mymaxbits (.inr ⟨heof, hlength⟩)
  obtain ⟨d', hzero, hprev', hcounters⟩ := code_zero mymaxbits hprev
  refine ⟨input', d', ?_, ?_, ?_, hprev', hcounters⟩
  · rw [hstep, hcode, hzero]
    rfl
  · rw [heof', heof, decide_eq_false hlength]
    rfl
  · rw [hbits', hbits, hnine, List.drop_replicate, Nat.add_sub_cancel_left]

/-- Every code of zeros adds an entry, until the codes get wider. -/
theorem wider_of_zeros {mymaxbits : ℕ} (hlimit : 9 < mymaxbits) {left : ℕ} (hleft : left ≤ 254)
    {input : BitSource} {d : Decoder} (hprev : d.prev = some 0) (heof : input.eof = false)
    (hbits : input.bits = List.replicate (9 * (left + 1)) false)
    (hcounters : d.counters = ⟨511 - left, 9⟩) :
    ∃ rounds, ∃ t ∈ Machine.visited (step mymaxbits) rounds (input, d),
      Reading t ∧ t.2.counters.bits = 10 := by
  induction left generalizing input d with
  | zero =>
      have hbits : input.bits = List.replicate (9 + 0) false := hbits
      obtain ⟨input', d', hstep, heof', -, -, hcounters'⟩ :=
        step_zero mymaxbits hprev heof (congrArg Counters.bits hcounters) hbits
      refine ⟨2, (input', d'), ?_, .inr heof', ?_⟩
      · rw [Machine.visited, hstep]
        exact List.mem_cons_of_mem _ List.mem_cons_self
      · have hlast : advance mymaxbits ⟨511, 9⟩ = ⟨512, 10⟩ :=
          if_pos (⟨Nat.le_refl 512, hlimit⟩ : 511 + 1 ≥ 1 <<< 9 ∧ 9 < mymaxbits)
        rw [hcounters', hcounters, hlast]
  | succ left ih =>
      have hmore : 9 * (left + 1 + 1) = 9 + 9 * (left + 1) := by omega
      rw [hmore] at hbits
      obtain ⟨input', d', hstep, heof', hbits', hprev', hcounters'⟩ :=
        step_zero mymaxbits hprev heof (congrArg Counters.bits hcounters) hbits
      have hadded : advance mymaxbits ⟨511 - (left + 1), 9⟩ = ⟨511 - left, 9⟩ := by
        have hroom : ¬ 511 - (left + 1) = 1 <<< 9 := by
          rw [Nat.one_shiftLeft]
          omega
        have hnarrow : ¬ (511 - (left + 1) + 1 ≥ 1 <<< 9 ∧ 9 < mymaxbits) := by
          rw [Nat.one_shiftLeft]
          omega
        rw [advance, if_neg hroom]
        dsimp only
        rw [if_neg hnarrow]
        congr 1
        omega
      rw [hcounters, hadded] at hcounters'
      obtain ⟨rounds, t, ht, hwide⟩ :=
        ih (Nat.le_of_succ_le hleft) hprev' heof' hbits' hcounters'
      refine ⟨rounds + 1, t, ?_, hwide⟩
      rw [Machine.visited, hstep]
      exact List.mem_cons_of_mem _ ht

theorem unpack_zeros (n : ℕ) :
    Bits.unpack (List.replicate n 0) = List.replicate (8 * n) false := by
  induction n with
  | zero => rfl
  | succ n ih =>
      have hbyte : Bits.ofNat 8 (0 : UInt8).toNat = List.replicate 8 false := rfl
      rw [List.replicate_succ, Bits.unpack_cons, ih, hbyte, List.replicate_append_replicate,
        Nat.mul_succ, Nat.add_comm]

/-- What the memory holds in the examples. -/
def clearMemory : Memory where
  ref := fun _ => 0
  app := fun _ => 0
  ibuf := []
  c := 0

/-- A header that declares nine bits, and 288 bytes of zeros: a code of ten bits is
read. -/
theorem getsymBits_zeros : ¬ ∀ (flags : UInt8) (mymaxbits : ℕ) (memory : Memory)
    (reads : List Chunk), 9 ≤ (flags &&& 0x1f).toNat → (flags &&& 0x1f).toNat ≤ mymaxbits →
      ∀ rounds, ∀ bits ∈ getsymBits mymaxbits memory (headerOf flags) reads rounds,
        bits ≤ (flags &&& 0x1f).toNat := by
  intro hnarrow
  have hbits : (clearMemory.input (bytewise (List.replicate 288 0))).bits =
      List.replicate (9 + 9 * 255) false := by
    rw [clearMemory.bits_input, joined_bytewise, unpack_zeros]
  obtain ⟨input, hrest, heof, hstep⟩ := step_read 14
    (.inl rfl : Reads (clearMemory.input (bytewise (List.replicate 288 0))) clearMemory.decoder)
  have hcode : nextCode (clearMemory.input (bytewise (List.replicate 288 0)))
      clearMemory.decoder = 0 := by
    rw [nextCode, hbits, List.take_replicate]
    rfl
  have hopen : input.eof = false := by
    rw [heof, hbits, List.length_replicate]
    rfl
  have hrest : input.bits = List.replicate (9 * (254 + 1)) false := by
    rw [hrest, hbits, List.drop_replicate]
    rfl
  have hstart : clearMemory.decoder.code 14 0 =
      .inl { clearMemory.decoder.outbyte 0 with prev := some 0 } := rfl
  rw [hcode, hstart] at hstep
  obtain ⟨rounds, t, ht, hreading, hwide⟩ :=
    wider_of_zeros (d := { clearMemory.decoder.outbyte 0 with prev := some 0 })
      (show 9 < 14 by decide) (Nat.le_refl 254) rfl hopen hrest rfl
  have hvisited : t ∈ loopStates 14 clearMemory (bytewise (List.replicate 288 0)) (rounds + 1) := by
    rw [loopStates, Machine.visited, hstep]
    exact List.mem_cons_of_mem _ ht
  have hle := hnarrow 0x89 14 clearMemory (bytewise (List.replicate 288 0)) (by decide) (by decide)
    (rounds + 1) 10 (by
      rw [getsymBits_headerOf (by decide)]
      exact List.mem_map.mpr ⟨t, List.mem_filter.mpr ⟨hvisited, decide_eq_true hreading⟩, hwide⟩)
  exact absurd hle (by decide)

end Fip.Lzw.Uncompress
