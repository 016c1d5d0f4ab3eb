import Fip.Lzw.Refinement

/-!
# uncompress on arbitrary input

Every code but the first one and those behind a `CLEAR` is checked against
`nexti`.  The main loop ends on every input, and the recursions end and read
written cells only, exactly when those unchecked codes are bytes.
-/

namespace Fip.Lzw.Uncompress

/-- The codes that are read at the start and behind every `CLEAR`, until the
input ends or is rejected.  Which bits they are depends on the counters only;
each code takes one unit of `fuel`. -/
def startCodes (mymaxbits : ℕ) : ℕ → Phase → List Bool → List ℕ
  | 0, _, _ => []
  | fuel + 1, phase, bits =>
      let code := Bits.toNat (bits.take phase.counters.bits)
      let rest := startCodes mymaxbits fuel (phase.next mymaxbits code)
        (bits.drop phase.counters.bits)
      if phase.fresh then
        code :: if bits.length < phase.counters.bits then [] else rest
      else if bits.length < phase.counters.bits ∨ code > phase.counters.nexti then []
      else rest

/-- The start codes of a file behind its header. -/
def startCodesOf (mymaxbits : ℕ) (stream : List UInt8) : List ℕ :=
  startCodes mymaxbits (8 * stream.length + 2) .start (Bits.unpack stream)

/-- The program ends, and reads no cell that has not been written since the
last reset. -/
def Survives (result : Result) : Prop :=
  result.status ≠ .endless ∧ track [] result.log ≠ none

instance (result : Result) : Decidable (Survives result) :=
  inferInstanceAs (Decidable (_ ∧ _))

/-! ## Steps -/

/-- The loop is about to read a code, which may be cut short at a start. -/
def Reads (input : BitSource) (d : Decoder) : Prop :=
  d.prev = none ∨ input.eof = false ∧ ¬ input.bits.length < d.counters.bits

/-- The next code of the input. -/
def nextCode (input : BitSource) (d : Decoder) : ℕ :=
  Bits.toNat (input.bits.take d.counters.bits)

theorem step_read (mymaxbits : ℕ) {d : Decoder} {input : BitSource}
    (hread : Reads input d) :
    ∃ input', input'.bits = input.bits.drop d.counters.bits ∧
      input'.eof = (input.eof || decide (input.bits.length < d.counters.bits)) ∧
      step mymaxbits (input, d) =
        (d.code mymaxbits (nextCode input d)).map (input', ·) id := by
  obtain ⟨hcode, hbits, heof⟩ := input.getsym_spec d.counters.bits
  refine ⟨_, hbits, heof, ?_⟩
  rw [step, nextCode]
  dsimp only
  rcases hprev : d.prev with _ | prev
  · dsimp only
    rw [hcode]
  · obtain ⟨hopen, hlong⟩ := hread.resolve_left (by rw [hprev]; exact Option.some_ne_none _)
    rw [hopen, decide_eq_false hlong] at heof
    dsimp only
    rw [hopen, heof, hcode]
    rfl

theorem step_finished {mymaxbits : ℕ} {d : Decoder} {input : BitSource}
    (hread : ¬ Reads input d) :
    step mymaxbits (input, d) = .inr (d.stop .returned) := by
  obtain ⟨hprev, hend⟩ := not_or.mp hread
  obtain ⟨prev, hprev⟩ := Option.ne_none_iff_exists'.mp hprev
  apply step_end hprev
  rcases Bool.eq_false_or_eq_true input.eof with heof | hopen
  · exact .inl heof
  · exact .inr (by_contra fun hlong => hend ⟨hopen, hlong⟩)

/-- What is left to do: the bits of the input, and once more round the loop for
its end. -/
def remaining (s : BitSource × Decoder) : ℕ :=
  s.1.bits.length + if s.2.prev = none then 2 else 1

theorem remaining_read {mymaxbits code : ℕ} {d d' : Decoder}
    {input input' : BitSource} (hsound : Counters.Sound mymaxbits d.counters)
    (hread : Reads input d) (hbits : input'.bits = input.bits.drop d.counters.bits)
    (hcode : d.code mymaxbits code = .inl d') :
    remaining (input', d') < remaining (input, d) := by
  have hge := hsound.bits_ge
  have hnext : d.prev = none → d'.prev ≠ none := by
    intro hprev hprev'
    rcases code_cases hcode with ⟨_, d₁, _, rfl⟩ | ⟨prev, hsome, _⟩ |
      ⟨prev, _, _, _, hsome, _⟩
    · cases hprev'
    · cases hprev.symm.trans hsome
    · cases hprev.symm.trans hsome
  rw [remaining, remaining, hbits, List.length_drop]
  dsimp only
  by_cases hprev : d.prev = none
  · rw [if_pos hprev, if_neg (hnext hprev)]
    omega
  · obtain ⟨_, hlong⟩ := hread.resolve_left hprev
    rw [if_neg hprev]
    split <;> omega

theorem code_sound {mymaxbits code : ℕ} {d d' : Decoder} (hlow : 9 ≤ mymaxbits)
    (hsound : Counters.Sound mymaxbits d.counters)
    (hcode : d.code mymaxbits code = .inl d') :
    Counters.Sound mymaxbits d'.counters := by
  have hnext : Counters.Sound mymaxbits (d.phase.next mymaxbits code).counters :=
    Phase.sound_next hlow hsound code
  rw [← code_phase hcode] at hnext
  exact hnext

/-! ## The log only grows -/

theorem track_none_of_prefix {log more : List Access} (hbefore : log <+: more)
    (hnone : track [] log = none) : track [] more = none := by
  obtain ⟨tail, rfl⟩ := hbefore
  rw [track_append, hnone]
  rfl

theorem adddict_log (mymaxbits : ℕ) (d : Decoder) (prev : ℕ) (suffix : UInt8) :
    d.log <+: (d.adddict mymaxbits prev suffix).log := by
  rw [Decoder.adddict]
  split
  · exact List.prefix_rfl
  · exact List.prefix_append _ _

theorem code_log {mymaxbits code : ℕ} {d d' : Decoder}
    (hcode : d.code mymaxbits code = .inl d') : d.log <+: d'.log := by
  rcases code_cases hcode with ⟨_, d₁, hprint, rfl⟩ | ⟨prev, _, _, rfl⟩ |
    ⟨prev, suffix, d₁, d₂, _, _, hfirst, hprint, rfl⟩
  · exact (printsym_frame hprint).2
  · exact List.prefix_append _ _
  · have hadded := adddict_log mymaxbits d₁ prev suffix
    exact (first_frame hfirst).2.trans (hadded.trans (printsym_frame hprint).2)

/-- Printing a code that is no byte reads its cell. -/
theorem printsym_reads {fuel sym : ℕ} {d d' : Decoder} (hlarge : ¬ sym < 256)
    (hprint : d.printsym fuel sym = some d') :
    d.log ++ [.read (.ref sym)] <+: d'.log := by
  cases fuel with
  | zero =>
      rw [Decoder.printsym, if_neg hlarge] at hprint
      cases hprint
  | succ fuel =>
      rw [Decoder.printsym, if_neg hlarge] at hprint
      split at hprint
      · cases hprint
      · next d₁ hrec =>
          cases hprint
          exact (printsym_frame hrec).2.trans (List.prefix_append _ _)

/-! ## The start codes, code by code -/

section StartCodes

variable {mymaxbits fuel : ℕ} {phase : Phase} {bits : List Bool}

theorem startCodes_fresh (hfresh : phase.fresh = true) :
    startCodes mymaxbits (fuel + 1) phase bits =
      Bits.toNat (bits.take phase.counters.bits) ::
        if bits.length < phase.counters.bits then []
        else startCodes mymaxbits fuel
          (phase.next mymaxbits (Bits.toNat (bits.take phase.counters.bits)))
          (bits.drop phase.counters.bits) := by
  rw [startCodes]
  exact if_pos hfresh

theorem startCodes_done (hfresh : phase.fresh = false)
    (hdone : bits.length < phase.counters.bits ∨
      Bits.toNat (bits.take phase.counters.bits) > phase.counters.nexti) :
    startCodes mymaxbits fuel phase bits = [] := by
  cases fuel with
  | zero => rfl
  | succ fuel =>
      rw [startCodes, hfresh, if_neg Bool.false_ne_true]
      exact if_pos hdone

theorem startCodes_read (hfresh : phase.fresh = false)
    (hlong : ¬ bits.length < phase.counters.bits)
    (hgood : ¬ Bits.toNat (bits.take phase.counters.bits) > phase.counters.nexti) :
    startCodes mymaxbits (fuel + 1) phase bits =
      startCodes mymaxbits fuel
        (phase.next mymaxbits (Bits.toNat (bits.take phase.counters.bits)))
        (bits.drop phase.counters.bits) := by
  rw [startCodes, hfresh, if_neg Bool.false_ne_true]
  exact if_neg (not_or.mpr ⟨hlong, hgood⟩)

end StartCodes

/-! ## The invariant -/

/-- The decoder tracks a dictionary, and whether the input is good is known
from the start codes to come. -/
structure Sane (mymaxbits : ℕ) (good : Prop) (s : BitSource × Decoder) : Prop where
  tracks : ∃ dict, Tracks mymaxbits s.2 dict
  fresh : s.2.prev = none → s.1.eof = false
  drained : s.1.eof = true → s.1.bits = []
  starts : ∃ fuel, remaining s ≤ fuel ∧
    (good ↔ ∀ code ∈ startCodes mymaxbits fuel s.2.phase s.1.bits, code < 256)

/-- From the first start code that is no byte on, an unwritten cell has been
read. -/
structure Lost (mymaxbits : ℕ) (good : Prop) (s : BitSource × Decoder) : Prop where
  sound : Counters.Sound mymaxbits s.2.counters
  bad : ¬ good
  lost : track [] s.2.log = none

section Step

variable {mymaxbits : ℕ} {good : Prop} {input : BitSource} {d : Decoder}

/-- What is proved of every step. -/
def Keeps (mymaxbits : ℕ) (good : Prop) (s : BitSource × Decoder) : Prop :=
  Machine.Advances (fun s => Sane mymaxbits good s ∨ Lost mymaxbits good s)
    (fun result => Survives result ↔ good) remaining (remaining s) (step mymaxbits s)

theorem remaining_pos (s : BitSource × Decoder) : remaining s ≠ 0 := by
  rw [remaining]
  split <;> omega

theorem nextCode_lt (input : BitSource) (d : Decoder) :
    nextCode input d < 1 <<< d.counters.bits := by
  rw [Nat.one_shiftLeft]
  exact Nat.lt_of_lt_of_le (Bits.toNat_lt _)
    (Nat.pow_le_pow_right Nat.two_pos (List.length_take_le _ _))

/-- A checked code is rejected or goes on. -/
theorem Tracks.exists_code {cur : ℕ} {dict : List (List UInt8)} (hlow : 9 ≤ mymaxbits)
    (hhigh : mymaxbits ≤ 14) (htracks : Tracks mymaxbits d dict)
    (hprev : d.prev ≠ none) (hfits : cur < 1 <<< d.counters.bits) :
    (d.code mymaxbits cur = .inr (d.stop (.aborted "Bad input stream")) ∧
      cur > d.counters.nexti) ∨
    (¬ cur > d.counters.nexti ∧
      ∃ d' dict', d.code mymaxbits cur = .inl d' ∧ Tracks mymaxbits d' dict') := by
  obtain ⟨prev, hprev⟩ := Option.ne_none_iff_exists'.mp hprev
  by_cases hbad : cur > d.counters.nexti
  · exact .inl ⟨Tracks.code_bad hprev hbad, hbad⟩
  · refine .inr ⟨hbad, ?_⟩
    by_cases hclear : cur = clear
    · obtain ⟨d', hcode, htracks', _⟩ := htracks.code_clear hlow hprev
      exact ⟨d', _, hclear ▸ hcode, htracks'⟩
    · obtain ⟨d', hcode, htracks', _⟩ := htracks.code_next hhigh hprev hclear
        (Nat.not_lt.mp hbad) hfits
      exact ⟨d', _, hcode, htracks'⟩

theorem Tracks.survives_stop {dict : List (List UInt8)}
    (htracks : Tracks mymaxbits d dict) {status : Status}
    (hstatus : status ≠ .endless) : Survives (d.stop status) := by
  obtain ⟨cells, htrack, _⟩ := htracks.logged
  refine ⟨hstatus, ?_⟩
  intro hnone
  cases htrack.symm.trans hnone

theorem Lost.step (hlow : 9 ≤ mymaxbits) (hlost : Lost mymaxbits good (input, d)) :
    Keeps mymaxbits good (input, d) := by
  have hdead : ∀ result : Result, d.log <+: result.log → (Survives result ↔ good) := by
    intro result hlog
    have hnone := track_none_of_prefix hlog hlost.lost
    exact iff_of_false (fun h => h.2 hnone) hlost.bad
  rw [Keeps]
  by_cases hread : Reads input d
  · obtain ⟨input', hbits, _, hstep⟩ := step_read mymaxbits hread
    rw [hstep]
    rcases hcode : d.code mymaxbits (nextCode input d) with d' | result
    · have hnone := track_none_of_prefix (code_log hcode) hlost.lost
      exact ⟨.inr ⟨code_sound hlow hlost.sound hcode, hlost.bad, hnone⟩,
        remaining_read hlost.sound hread hbits hcode⟩
    · exact hdead result (code_stop hcode).2
  · rw [step_finished hread]
    exact hdead _ List.prefix_rfl

/-- The start code is a byte. -/
theorem Sane.step_byte (hhigh : mymaxbits ≤ 14)
    (hsane : Sane mymaxbits good (input, d)) (hprev : d.prev = none)
    (hlt : nextCode input d < 256) : Keeps mymaxbits good (input, d) := by
  obtain ⟨⟨dict, htracks⟩, hopen, _, fuel, hfuel, hstarts⟩ := hsane
  dsimp only at htracks hopen hstarts
  obtain ⟨fuel, rfl⟩ := Nat.exists_eq_succ_of_ne_zero
    (Nat.ne_zero_of_lt (hfuel.trans_lt' (Nat.pos_of_ne_zero (remaining_pos _))))
  have hread : Reads input d := .inl hprev
  obtain ⟨input', hbits, heof, hstep⟩ := step_read mymaxbits hread
  obtain ⟨d', hcode, htracks', hprev', hcounters, _⟩ :=
    htracks.code_start hhigh hprev hlt
  have hge := htracks.sound.bits_ge
  have hphase := code_phase hcode
  have hfresh : d.phase.fresh = true := Option.isNone_iff_eq_none.mpr hprev
  have hfresh' : d'.phase.fresh = false := by
    rw [Decoder.phase, hprev']
    rfl
  have hgood : good ↔
      ∀ code ∈ startCodes mymaxbits fuel d'.phase input'.bits, code < 256 := by
    have hcur : Bits.toNat (input.bits.take d.phase.counters.bits) =
        nextCode input d := rfl
    rw [startCodes_fresh hfresh, List.forall_mem_cons, hcur] at hstarts
    rw [hstarts, and_iff_right hlt, hphase, hbits]
    split
    · next hshort =>
        have hdrained : input.bits.drop d.counters.bits = [] :=
          List.drop_eq_nil_of_le (Nat.le_of_lt hshort)
        have hdone : startCodes mymaxbits fuel d'.phase [] = [] := by
          apply startCodes_done hfresh' (.inl _)
          change 0 < d'.counters.bits
          rw [hcounters]
          omega
        rw [hdrained, ← hphase, hdone]
    · rfl
  have hless := remaining_read htracks.sound hread hbits hcode
  rw [Keeps, hstep, hcode]
  refine ⟨.inl ⟨⟨dict, htracks'⟩, ?_, ?_, fuel, ?_, hgood⟩, hless⟩
  · intro hnone
    cases hprev'.symm.trans hnone
  · intro hend
    rw [heof, hopen hprev, Bool.false_or, decide_eq_true_eq] at hend
    exact hbits.trans (List.drop_eq_nil_of_le hend.le)
  · exact Nat.le_of_lt_succ (Nat.lt_of_lt_of_le hless hfuel)

/-- The start code is no byte, and its cell is read unwritten. -/
theorem Sane.step_lost (hsane : Sane mymaxbits good (input, d)) (hlow : 9 ≤ mymaxbits)
    (hprev : d.prev = none) (hlarge : ¬ nextCode input d < 256) :
    Keeps mymaxbits good (input, d) := by
  obtain ⟨⟨dict, htracks⟩, _, _, fuel, hfuel, hstarts⟩ := hsane
  dsimp only at htracks hstarts
  obtain ⟨fuel, rfl⟩ := Nat.exists_eq_succ_of_ne_zero
    (Nat.ne_zero_of_lt (hfuel.trans_lt' (Nat.pos_of_ne_zero (remaining_pos _))))
  have hread : Reads input d := .inl hprev
  obtain ⟨input', hbits, _, hstep⟩ := step_read mymaxbits hread
  have hfresh : d.phase.fresh = true := Option.isNone_iff_eq_none.mpr hprev
  have hbad : ¬ good := by
    rw [startCodes_fresh hfresh, List.forall_mem_cons] at hstarts
    exact fun h => hlarge (hstarts.mp h).1
  rw [Keeps, hstep]
  rcases hcode : d.code mymaxbits (nextCode input d) with d' | result
  · obtain ⟨cells, htrack, hcells⟩ := htracks.logged
    rcases code_cases hcode with ⟨_, d₁, hprint, rfl⟩ | ⟨prev, hsome, _⟩ |
      ⟨prev, _, _, _, hsome, _⟩
    · have hunwritten : .ref (nextCode input d) ∉ cells := by
        rw [hcells, htracks.nexti, htracks.fresh hprev]
        exact fun h => absurd h.2 (Nat.not_lt.mpr h.1)
      have hnone : track [] (d.log ++ [.read (.ref (nextCode input d))]) = none := by
        rw [track_append, htrack, Option.bind_some, track, if_neg hunwritten]
      have hlost := track_none_of_prefix (printsym_reads hlarge hprint) hnone
      exact ⟨.inr ⟨code_sound hlow htracks.sound hcode, hbad, hlost⟩,
        remaining_read htracks.sound hread hbits hcode⟩
    · cases hprev.symm.trans hsome
    · cases hprev.symm.trans hsome
  · rw [Decoder.code, hprev] at hcode
    dsimp only at hcode
    split at hcode
    · cases hcode
      exact iff_of_false (fun h => h.1 rfl) hbad
    · cases hcode

/-- A code that is checked against `nexti`. -/
theorem Sane.step_checked (hlow : 9 ≤ mymaxbits) (hhigh : mymaxbits ≤ 14)
    (hsane : Sane mymaxbits good (input, d)) (hprev : d.prev ≠ none) :
    Keeps mymaxbits good (input, d) := by
  obtain ⟨⟨dict, htracks⟩, _, hdrained, fuel, hfuel, hstarts⟩ := hsane
  dsimp only at htracks hdrained hstarts
  obtain ⟨fuel, rfl⟩ := Nat.exists_eq_succ_of_ne_zero
    (Nat.ne_zero_of_lt (hfuel.trans_lt' (Nat.pos_of_ne_zero (remaining_pos _))))
  have hge := htracks.sound.bits_ge
  have hfresh : d.phase.fresh = false := Option.isNone_eq_false_iff.mpr
    (Option.isSome_iff_ne_none.mpr hprev)
  have hdone : (input.bits.length < d.counters.bits ∨
      nextCode input d > d.counters.nexti) → good := by
    intro hdone
    rw [startCodes_done hfresh hdone] at hstarts
    exact hstarts.mpr nofun
  rw [Keeps]
  by_cases hread : Reads input d
  · obtain ⟨hopen, hlong⟩ := hread.resolve_left hprev
    obtain ⟨input', hbits, heof, hstep⟩ := step_read mymaxbits hread
    rw [hopen, decide_eq_false hlong, Bool.or_false] at heof
    rw [hstep]
    rcases htracks.exists_code hlow hhigh hprev (nextCode_lt input d) with
      ⟨hcode, hbad⟩ | ⟨hgood, d', dict', hcode, htracks'⟩
    · rw [hcode]
      exact iff_of_true (htracks.survives_stop nofun) (hdone (.inr hbad))
    · have hless := remaining_read htracks.sound hread hbits hcode
      rw [hcode]
      refine ⟨.inl ⟨⟨dict', htracks'⟩, fun _ => heof, ?_, fuel, ?_, ?_⟩, hless⟩
      · intro hend
        exact absurd (heof.symm.trans hend) Bool.false_ne_true
      · exact Nat.le_of_lt_succ (Nat.lt_of_lt_of_le hless hfuel)
      · rw [hbits, code_phase hcode]
        exact hstarts.trans (iff_of_eq (congrArg
          (fun codes => ∀ code ∈ codes, code < 256)
          (startCodes_read hfresh hlong hgood)))
  · rw [step_finished hread]
    refine iff_of_true (htracks.survives_stop nofun) (hdone (.inl ?_))
    by_contra hlong
    have hend : input.eof = true := by
      by_contra hopen
      exact hread (.inr ⟨Bool.eq_false_of_not_eq_true hopen, hlong⟩)
    rw [hdrained hend, List.length_nil] at hlong
    omega

end Step

/-! ## Whole runs -/

theorem keeps_of_inv {mymaxbits : ℕ} (hlow : 9 ≤ mymaxbits) (hhigh : mymaxbits ≤ 14)
    {good : Prop} (s : BitSource × Decoder)
    (hinv : Sane mymaxbits good s ∨ Lost mymaxbits good s) :
    Keeps mymaxbits good s := by
  obtain ⟨input, d⟩ := s
  rcases hinv with hsane | hlost
  · by_cases hprev : d.prev = none
    · by_cases hlt : nextCode input d < 256
      · exact hsane.step_byte hhigh hprev hlt
      · exact hsane.step_lost hlow hprev hlt
    · exact hsane.step_checked hlow hhigh hprev
  · exact hlost.step hlow

/-- The program ends on every input, and survives it exactly when the start
codes are bytes. -/
theorem mainLoop_survives {mymaxbits : ℕ} (hlow : 9 ≤ mymaxbits)
    (hhigh : mymaxbits ≤ 14) (memory : Memory) (reads : List Chunk) :
    ∃ result, mainLoop mymaxbits (memory.input reads) memory.decoder = some result ∧
      (Survives result ↔
        ∀ code ∈ startCodesOf mymaxbits (joined reads), code < 256) := by
  apply Machine.run_total (keeps_of_inv hlow hhigh)
  · refine .inl ⟨⟨[], memory.tracks hlow⟩, fun _ => rfl, nofun, _, ?_, Iff.rfl⟩
    rw [← Bits.length_unpack]
    exact Nat.le_refl _
  · rw [remaining]
    exact Nat.lt_succ_self _

/-- `decompress` ends on every input behind a valid header, and its recursions
end and read written cells only, exactly when no code that follows the header
or a `CLEAR` is above 255. -/
theorem survives_iff {mymaxbits : ℕ} (hlow : 9 ≤ mymaxbits) (hhigh : mymaxbits ≤ 14)
    {flags : UInt8} (hflags : (flags &&& 0x1f).toNat ≤ mymaxbits)
    (stream : List UInt8) :
    (∀ (memory : Memory) (reads : List Chunk), joined reads = stream →
      ∃ result, decompress mymaxbits memory (headerOf flags) reads = some result ∧
        Survives result) ↔
    ∀ code ∈ startCodesOf mymaxbits stream, code < 256 := by
  constructor
  · intro hsurvives
    obtain ⟨result, hrun, hgood⟩ := hsurvives ⟨fun _ => 0, fun _ => 0, [], 0⟩
      (bytewise stream) (joined_bytewise stream)
    obtain ⟨result', hrun', hiff⟩ := mainLoop_survives hlow hhigh
      ⟨fun _ => 0, fun _ => 0, [], 0⟩ (bytewise stream)
    rw [decompress_headerOf hflags, hrun'] at hrun
    cases hrun
    rw [joined_bytewise] at hiff
    exact hiff.mp hgood
  · rintro hstarts memory reads rfl
    obtain ⟨result, hrun, hiff⟩ := mainLoop_survives hlow hhigh memory reads
    exact ⟨result, (decompress_headerOf hflags memory reads).trans hrun,
      hiff.mpr hstarts⟩

/-- The codes of `ab` and the entry `ab`. -/
theorem survives_iff_abab :
    (∀ code ∈ startCodesOf 9 [0x61, 0xc4, 0x04, 0x04], code < 256) ∧
      ∀ (memory : Memory) (reads : List Chunk),
        joined reads = [0x61, 0xc4, 0x04, 0x04] →
        ∃ result, decompress 9 memory (headerOf 0x89) reads = some result ∧
          Survives result := by
  have hstarts : ∀ code ∈ startCodesOf 9 [0x61, 0xc4, 0x04, 0x04], code < 256 := by decide
  exact ⟨hstarts, (survives_iff (by decide) (by decide) (by decide) _).mpr hstarts⟩

/-! ## A start code that is no byte -/

theorem first_self {sym : ℕ} (fuel : ℕ) {d : Decoder} (href : d.ref sym = sym)
    (hlarge : ¬ sym < 256) : d.first fuel sym = none := by
  induction fuel generalizing d with
  | zero => rw [Decoder.first, if_neg hlarge]
  | succ fuel ih =>
      have hread : (d.read (.ref sym)).ref sym = sym := href
      rw [Decoder.first, if_neg hlarge, href]
      exact ih hread

/-- The first code 257 becomes its own prefix with the next code, and the third
one follows the prefixes for ever. -/
theorem feed_selfPrefix (memory : Memory) :
    ∃ result, feed 9 memory.decoder [257, 65, 257] = .inr result ∧
      result.status = .endless := by
  rcases hcode₁ : memory.decoder.code 9 257 with d₁ | result
  · have hprev₁ : d₁.prev = some 257 := by
      rcases code_cases hcode₁ with ⟨_, d, _, rfl⟩ | ⟨_, hsome, _⟩ |
        ⟨_, _, _, _, hsome, _⟩
      · rfl
      · cases hsome
      · cases hsome
    have hcounters₁ : d₁.counters = .cleared := congrArg Phase.counters (code_phase hcode₁)
    obtain ⟨d₂, hcode₂, hprev₂, hcounters₂, href₂⟩ : ∃ d₂, d₁.code 9 65 = .inl d₂ ∧
        d₂.prev = some 65 ∧ d₂.counters = ⟨258, 9⟩ ∧ d₂.ref 257 = 257 := by
      have hadd : ¬ d₁.counters.nexti = 1 <<< d₁.counters.bits := by
        rw [hcounters₁]
        decide
      refine ⟨_, code_eq_next hprev₁ (by rw [hcounters₁]; decide) (by decide)
        (first_of_lt (by rw [hcounters₁]; decide) _ _)
        (printsym_of_lt (by decide) _ _), rfl, ?_, ?_⟩
      · change (d₁.adddict 9 257 _).counters = _
        rw [(advance_adddict d₁ 257 _).1, hcounters₁]
        rfl
      · change (d₁.adddict 9 257 _).ref 257 = 257
        rw [Decoder.adddict, if_neg hadd, hcounters₁]
        exact Function.update_self 257 257 d₁.ref
    have hendless : d₂.code 9 257 = .inr (d₂.stop .endless) := by
      rw [Decoder.code, hprev₂, hcounters₂]
      dsimp only
      rw [if_neg (by decide), if_neg (by decide), if_neg (by decide),
        first_self _ href₂ (by decide)]
    refine ⟨d₂.stop .endless, ?_, rfl⟩
    rw [feed, hcode₁]
    dsimp only
    rw [feed, hcode₂]
    dsimp only
    rw [feed, hendless]
  · refine ⟨result, ?_, ?_⟩
    · rw [feed, hcode₁]
    · rw [Decoder.code] at hcode₁
      dsimp only [Memory.decoder] at hcode₁
      split at hcode₁
      · cases hcode₁
        rfl
      · cases hcode₁

/-- Whatever the tables hold, four bytes make `first` recurse for ever. -/
theorem decompress_endless (memory : Memory) :
    ∃ result, decompress 9 memory (headerOf 0x89)
        [⟨[0x01, 0x83, 0x04, 0x04], by decide, by decide⟩] = some result ∧
      result.status = .endless := by
  obtain ⟨result, hfeed, hstatus⟩ := feed_selfPrefix memory
  have hsound : Counters.Sound 9 memory.decoder.counters :=
    Counters.sound_cleared (Nat.le_refl 9)
  have hfits : Fits 9 memory.decoder.phase [257, 65, 257] := by
    simp [Fits, Phase.next, Decoder.phase, Memory.decoder, Counters.cleared, advance,
      clear]
  have hbits : (memory.input [⟨[0x01, 0x83, 0x04, 0x04], by decide, by decide⟩]).bits =
      packCodes 9 memory.decoder.phase [257, 65, 257] ++ List.replicate 5 false :=
    (by decide : Bits.unpack [0x01, 0x83, 0x04, 0x04] =
      packCodes 9 .start [257, 65, 257] ++ List.replicate 5 false)
  have hrun : mainLoop 9 (memory.input _) memory.decoder = some _ :=
    run_packed (Nat.le_refl 9) hsound hfits rfl hbits (by decide)
      (Nat.lt_add_of_pos_right (by decide))
      (fun d hd => absurd (hfeed.symm.trans hd) Sum.inr_ne_inl)
  rw [hfeed] at hrun
  exact ⟨result, (decompress_headerOf (by decide) memory _).trans hrun, hstatus⟩

/-- Not every input is survived. -/
theorem not_survives_selfPrefix :
    ¬ ∀ (stream : List UInt8) (memory : Memory) (reads : List Chunk),
      joined reads = stream →
      ∃ result, decompress 9 memory (headerOf 0x89) reads = some result ∧
        Survives result := by
  intro hsurvives
  obtain ⟨result, hrun, hstatus⟩ :=
    decompress_endless ⟨fun _ => 0, fun _ => 0, [], 0⟩
  obtain ⟨result', hrun', hgood⟩ := hsurvives _ _ _ rfl
  rw [hrun] at hrun'
  cases hrun'
  exact hgood.1 hstatus

end Fip.Lzw.Uncompress
