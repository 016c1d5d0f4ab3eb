import Fip.Lzw.Tables

/-!
# uncompress refines the string-dictionary decoder

`Tracks` relates the decoder to a dictionary of explicit strings.  Every code
keeps it, the tables growing as the dictionary grows, and so a packed sequence
of codes is decoded as the reference decoder decodes it.
-/

namespace Fip.Lzw.Uncompress

open Dictionary

/-- What the next code is read as: whether it follows the start or a `CLEAR`,
and the counters. -/
structure Phase where
  fresh : Bool
  counters : Counters
  deriving DecidableEq

def Phase.start : Phase where
  fresh := true
  counters := .cleared

def Phase.next (mymaxbits : ℕ) (phase : Phase) (code : ℕ) : Phase :=
  if phase.fresh then ⟨false, phase.counters⟩
  else if code = clear then .start
  else ⟨false, advance mymaxbits phase.counters⟩

/-- The codes, the least significant bit first, each as wide as the decoder
expects it. -/
def packCodes (mymaxbits : ℕ) : Phase → List ℕ → List Bool
  | _, [] => []
  | phase, code :: codes =>
      Bits.ofNat phase.counters.bits code ++
        packCodes mymaxbits (phase.next mymaxbits code) codes

/-- The codes allowed in a phase.  A code has to fit the width it is packed
at. -/
def Phase.Allows (phase : Phase) (code : ℕ) : Prop :=
  if phase.fresh then code < 256
  else code = clear ∨ code ≤ phase.counters.nexti ∧ code < 1 <<< phase.counters.bits

/-- Allowed codes, at least one, the last one no `CLEAR`. -/
def ValidCodes (mymaxbits : ℕ) : Phase → List ℕ → Prop
  | phase, [] => phase.fresh = false
  | phase, code :: codes =>
      phase.Allows code ∧ ValidCodes mymaxbits (phase.next mymaxbits code) codes

def Decoder.phase (d : Decoder) : Phase where
  fresh := d.prev.isNone
  counters := d.counters

/-- The codes one after the other. -/
def feed (mymaxbits : ℕ) : Decoder → List ℕ → Decoder ⊕ Result
  | d, [] => .inl d
  | d, code :: codes =>
      match d.code mymaxbits code with
      | .inl d => feed mymaxbits d codes
      | .inr result => .inr result

/-! ## The counters -/

/-- `bits` is the least width for the next free entry, up to `mymaxbits`. -/
structure Counters.Sound (mymaxbits : ℕ) (counters : Counters) : Prop where
  bits_ge : 9 ≤ counters.bits
  bits_le : counters.bits ≤ mymaxbits
  nexti_ge : 257 ≤ counters.nexti
  nexti_le : counters.nexti ≤ 2 ^ counters.bits
  full : counters.nexti = 2 ^ counters.bits → counters.bits = mymaxbits

theorem Counters.sound_cleared {mymaxbits : ℕ} (hlow : 9 ≤ mymaxbits) :
    Counters.Sound mymaxbits .cleared where
  bits_ge := Nat.le_refl 9
  bits_le := hlow
  nexti_ge := Nat.le_refl 257
  nexti_le := by decide
  full := fun heq => absurd heq (by decide)

theorem Counters.Sound.advance {mymaxbits : ℕ} {counters : Counters}
    (hsound : Counters.Sound mymaxbits counters) :
    Counters.Sound mymaxbits (advance mymaxbits counters) := by
  obtain ⟨hge, hle, hnexti, hbound, hfull⟩ := hsound
  rw [Uncompress.advance, Nat.one_shiftLeft]
  have hpow : 2 ^ (counters.bits + 1) = 2 * 2 ^ counters.bits := Nat.pow_succ'
  have hpos : 0 < 2 ^ counters.bits := Nat.two_pow_pos _
  split
  · exact ⟨hge, hle, hnexti, hbound, hfull⟩
  · next hroom =>
      dsimp only
      split
      · constructor <;> dsimp only <;> omega
      · constructor <;> dsimp only <;> omega

theorem Counters.Sound.nexti_lt_codeSpace {mymaxbits : ℕ} {counters : Counters}
    (hsound : Counters.Sound mymaxbits counters) (hhigh : mymaxbits ≤ 14) :
    counters.nexti ≤ 2 ^ 14 :=
  hsound.nexti_le.trans
    (Nat.pow_le_pow_right Nat.two_pos (hsound.bits_le.trans hhigh))

/-- The dictionary is full when the next free entry does not fit the widest
code. -/
theorem Counters.Sound.full_iff {mymaxbits size : ℕ} {counters : Counters}
    (hsound : Counters.Sound mymaxbits counters)
    (hsize : counters.nexti = 257 + size) :
    counters.nexti = 1 <<< counters.bits ↔ ¬ size < 2 ^ mymaxbits - 257 := by
  rw [Nat.one_shiftLeft]
  constructor
  · intro heq
    rw [← hsound.full heq, ← heq]
    omega
  · intro hsize'
    have hpow : 2 ^ counters.bits ≤ 2 ^ mymaxbits :=
      Nat.pow_le_pow_right Nat.two_pos hsound.bits_le
    have hbound := hsound.nexti_le
    omega

/-! ## The log -/

/-- No cell was read unwritten, and the cells written since the last reset are
those of the entries below `nexti`. -/
def Logged (nexti : ℕ) (log : List Access) : Prop :=
  ∃ cells, track [] log = some cells ∧
    ∀ cell : Cell, cell ∈ cells ↔ 257 ≤ cell.sym ∧ cell.sym < nexti

theorem track_append (cells : List Cell) (log more : List Access) :
    track cells (log ++ more) = (track cells log).bind (track · more) := by
  fun_induction track cells log with
  | case1 => rfl
  | case2 cells log ih => rw [List.cons_append, track, ih]
  | case3 cells cell log ih => rw [List.cons_append, track, ih]
  | case4 cells cell log hmem ih => rw [List.cons_append, track, if_pos hmem, ih]
  | case5 cells cell log hmem =>
      rw [List.cons_append, track, if_neg hmem]
      rfl

theorem track_reads {cells : List Cell} {reads : List Access}
    (hreads : ∀ access ∈ reads, ∃ cell, access = .read cell ∧ cell ∈ cells) :
    track cells reads = some cells := by
  induction reads with
  | nil => rfl
  | cons access reads ih =>
      obtain ⟨cell, rfl, hmem⟩ := hreads access List.mem_cons_self
      rw [track, if_pos hmem]
      exact ih fun access hin => hreads access (List.mem_cons_of_mem _ hin)

theorem Logged.reads {size : ℕ} {log after : List Access}
    (hlogged : Logged (257 + size) log) (honly : OnlyReads size log after) :
    Logged (257 + size) after := by
  obtain ⟨cells, htrack, hcells⟩ := hlogged
  obtain ⟨reads, rfl, hreads⟩ := honly
  refine ⟨cells, ?_, hcells⟩
  rw [track_append, htrack, Option.bind_some]
  apply track_reads
  intro access hmem
  obtain ⟨cell, hread, hrange⟩ := hreads access hmem
  exact ⟨cell, hread, (hcells cell).mpr hrange⟩

theorem Logged.write {nexti : ℕ} {log : List Access} (hge : 257 ≤ nexti)
    (hlogged : Logged nexti log) :
    Logged (nexti + 1) (log ++ [.write (.ref nexti), .write (.app nexti)]) := by
  obtain ⟨cells, htrack, hcells⟩ := hlogged
  refine ⟨.app nexti :: .ref nexti :: cells, ?_, ?_⟩
  · rw [track_append, htrack]
    rfl
  · intro cell
    rw [List.mem_cons, List.mem_cons, hcells]
    cases cell with
    | ref sym | app sym =>
        simp only [Cell.sym, Cell.ref.injEq, Cell.app.injEq, reduceCtorEq, false_or]
        omega

theorem Logged.reset {nexti : ℕ} {log : List Access} (hlogged : Logged nexti log) :
    Logged 257 (log ++ [.reset]) := by
  obtain ⟨cells, htrack, _⟩ := hlogged
  refine ⟨[], ?_, ?_⟩
  · rw [track_append, htrack]
    rfl
  · intro cell
    rw [List.mem_nil_iff, false_iff]
    omega

/-! ## One code -/

/-- The tables stand for the dictionary, and nothing else was read. -/
structure Tracks (mymaxbits : ℕ) (d : Decoder) (dict : List (List UInt8)) : Prop where
  represents : Represents d.ref d.app dict
  nexti : d.counters.nexti = 257 + dict.length
  sound : Counters.Sound mymaxbits d.counters
  logged : Logged d.counters.nexti d.log
  prev : ∀ prev ∈ d.prev, Usable dict.length prev
  fresh : d.prev = none → dict = []

section Code

variable {mymaxbits cur : ℕ} {d : Decoder} {dict : List (List UInt8)}

theorem Tracks.lt_codeSpace (htracks : Tracks mymaxbits d dict)
    (hhigh : mymaxbits ≤ 14) {sym : ℕ} (husable : Usable dict.length sym) :
    sym < 257 + codeSpace := by
  have hnexti := htracks.sound.nexti_lt_codeSpace hhigh
  rw [htracks.nexti] at hnexti
  rw [codeSpace]
  rcases husable with hlt | ⟨_, hlt⟩ <;> omega

/-- A code of the dictionary is printed. -/
theorem Tracks.printsym (htracks : Tracks mymaxbits d dict)
    (hhigh : mymaxbits ≤ 14) (husable : Usable dict.length cur) :
    ∃ output log, d.printsym codeSpace cur =
        some { d with output := output, log := log } ∧
      output.sent = d.output.sent ++ string dict (symbol cur) ∧
      Tracks mymaxbits { d with output := output, log := log, prev := some cur }
        dict := by
  obtain ⟨output, log, hprint, hsent, honly⟩ :=
    printsym_spec htracks.represents husable (htracks.lt_codeSpace hhigh husable)
  have hlogged := htracks.logged
  rw [htracks.nexti] at hlogged
  have hlogged' : Logged d.counters.nexti log := htracks.nexti ▸ hlogged.reads honly
  refine ⟨output, log, hprint, hsent, htracks.represents, htracks.nexti,
    htracks.sound, hlogged', ?_, fun hnone => absurd hnone (Option.some_ne_none _)⟩
  rintro _ ⟨⟩
  exact husable

/-- The first code, and the first one behind a `CLEAR`. -/
theorem Tracks.code_start (htracks : Tracks mymaxbits d dict)
    (hhigh : mymaxbits ≤ 14) (hprev : d.prev = none) (hlt : cur < 256) :
    ∃ d', d.code mymaxbits cur = .inl d' ∧ Tracks mymaxbits d' dict ∧
      d'.prev = some cur ∧ d'.counters = d.counters ∧
      d'.output.sent = d.output.sent ++ string dict (symbol cur) := by
  obtain ⟨output, log, hprint, hsent, hafter⟩ := htracks.printsym hhigh (.inl hlt)
  refine ⟨_, ?_, hafter, rfl, rfl, hsent⟩
  simp only [Decoder.code, hprev, hprint]

theorem Tracks.code_clear (htracks : Tracks mymaxbits d dict)
    (hlow : 9 ≤ mymaxbits) {prev : ℕ} (hprev : d.prev = some prev) :
    ∃ d', d.code mymaxbits clear = .inl d' ∧ Tracks mymaxbits d' [] ∧
      d'.prev = none ∧ d'.counters = .cleared ∧
      d'.output.sent = d.output.sent := by
  have hle : ¬ clear > d.counters.nexti := by
    have := htracks.sound.nexti_ge
    rw [clear]
    omega
  refine ⟨{ d.cleardict with prev := none }, ?_,
    ⟨represents_nil, rfl, Counters.sound_cleared hlow, htracks.logged.reset,
      fun prev hmem => absurd hmem (Option.not_mem_none prev),
      fun _ => rfl⟩, rfl, rfl, rfl⟩
  simp only [Decoder.code, hprev, if_neg hle, if_true]

theorem Tracks.code_bad {prev : ℕ} (hprev : d.prev = some prev)
    (hbad : cur > d.counters.nexti) :
    d.code mymaxbits cur = .inr (d.stop (.aborted "Bad input stream")) := by
  simp only [Decoder.code, hprev, if_pos hbad]

/-- `adddict` makes the dictionary grow, if it is not full. -/
theorem Tracks.adddict (htracks : Tracks mymaxbits d dict) {prev : ℕ}
    (husable : Usable dict.length prev) {suffix : UInt8} {sym : Symbol UInt8}
    (hsuffix : (if sym = .entry dict.length then (string dict (symbol prev)).head?
      else (string dict sym).head?) = some suffix) (hprev : d.prev = some prev) :
    Tracks mymaxbits (d.adddict mymaxbits prev suffix)
      (grow (2 ^ mymaxbits - 257) dict (string dict (symbol prev)) sym) := by
  have hfull := htracks.sound.full_iff htracks.nexti
  rw [Decoder.adddict, grow]
  by_cases hroom : dict.length < 2 ^ mymaxbits - 257
  · have hnotfull : ¬ d.counters.nexti = 1 <<< d.counters.bits :=
      fun h => hfull.mp h hroom
    have hadvance : (advance mymaxbits d.counters).nexti = d.counters.nexti + 1 := by
      rw [advance, if_neg hnotfull]
      dsimp only
      split <;> rfl
    rw [if_neg hnotfull, if_pos hroom, hsuffix]
    refine ⟨?_, ?_, htracks.sound.advance, ?_, ?_, ?_⟩
    · have hextend := htracks.represents.extend husable suffix
      rw [← htracks.nexti] at hextend
      exact hextend
    · rw [List.length_append]
      exact hadvance.trans (congrArg (· + 1) htracks.nexti)
    · have hwrite := htracks.logged.write htracks.sound.nexti_ge
      rw [← hadvance] at hwrite
      exact hwrite
    · intro prev' hmem
      rw [List.length_append]
      exact (htracks.prev prev' hmem).mono (Nat.le_add_right _ _)
    · intro hnone
      cases hprev.symm.trans hnone
  · rw [if_pos (hfull.mpr hroom), if_neg hroom]
    exact htracks

theorem code_eq_next {d₁ d₂ : Decoder} {prev : ℕ} {suffix : UInt8}
    (hprev : d.prev = some prev) (hle : cur ≤ d.counters.nexti) (hne : cur ≠ clear)
    (hfirst : d.first codeSpace (if cur = d.counters.nexti then prev else cur) =
      some (suffix, d₁))
    (hprint : (d₁.adddict mymaxbits prev suffix).printsym codeSpace cur = some d₂) :
    d.code mymaxbits cur = .inl { d₂ with prev := some cur } := by
  have hle' : ¬ cur > d.counters.nexti := Nat.not_lt.mpr hle
  rw [Decoder.code, hprev]
  dsimp only
  rw [if_neg hle', if_neg hne, hfirst]
  dsimp only
  rw [hprint]

/-- A code that is not in the dictionary yet is the entry that is being
added. -/
theorem Tracks.eq_nexti_iff (htracks : Tracks mymaxbits d dict) (hne : cur ≠ clear) :
    cur = d.counters.nexti ↔ symbol cur = .entry dict.length := by
  rw [htracks.nexti]
  constructor
  · rintro rfl
    exact symbol_entry _
  · intro hsymbol
    rcases Nat.lt_or_ge cur 257 with hlt | hge
    · have hbyte : cur < 256 := by
        rw [clear] at hne
        omega
      rw [symbol_of_lt hbyte] at hsymbol
      cases hsymbol
    · rw [symbol_of_ge hge] at hsymbol
      have hindex := Symbol.entry.inj hsymbol
      omega

theorem Tracks.usable_of_lt (htracks : Tracks mymaxbits d dict) (hne : cur ≠ clear)
    (hlt : cur < d.counters.nexti) : Usable dict.length cur := by
  rw [htracks.nexti] at hlt
  rw [clear] at hne
  rcases Nat.lt_or_ge cur 256 with hbyte | hge
  · exact .inl hbyte
  · exact .inr ⟨by omega, hlt⟩

/-- `first` is taken of a code that is in the dictionary already, and gives
the letter that the reference decoder adds. -/
theorem Tracks.first (htracks : Tracks mymaxbits d dict) (hhigh : mymaxbits ≤ 14)
    {prev : ℕ} (hprev : d.prev = some prev) (hne : cur ≠ clear)
    (hle : cur ≤ d.counters.nexti) :
    ∃ suffix log, d.first codeSpace (if cur = d.counters.nexti then prev else cur) =
        some (suffix, { d with log := log }) ∧
      (if symbol cur = .entry dict.length then (string dict (symbol prev)).head?
        else (string dict (symbol cur)).head?) = some suffix ∧
      Tracks mymaxbits { d with log := log } dict := by
  have hspec : ∀ sym, Usable dict.length sym → ∃ suffix log,
      d.first codeSpace sym = some (suffix, { d with log := log }) ∧
        (string dict (symbol sym)).head? = some suffix ∧
        Tracks mymaxbits { d with log := log } dict := by
    intro sym husable
    obtain ⟨suffix, log, hfirst, hhead, honly⟩ := first_spec htracks.represents
      husable (htracks.lt_codeSpace hhigh husable)
    have hlogged := htracks.logged
    rw [htracks.nexti] at hlogged
    exact ⟨suffix, log, hfirst, hhead, htracks.represents, htracks.nexti,
      htracks.sound, htracks.nexti ▸ hlogged.reads honly, htracks.prev,
      htracks.fresh⟩
  have hnew := htracks.eq_nexti_iff hne
  by_cases heq : cur = d.counters.nexti
  · rw [if_pos heq, if_pos (hnew.mp heq)]
    exact hspec prev (htracks.prev prev hprev)
  · rw [if_neg heq, if_neg fun h => heq (hnew.mpr h)]
    exact hspec cur (htracks.usable_of_lt hne (by omega))

theorem advance_adddict (d : Decoder) (prev : ℕ) (suffix : UInt8) :
    (d.adddict mymaxbits prev suffix).counters = advance mymaxbits d.counters ∧
      (d.adddict mymaxbits prev suffix).output = d.output := by
  rw [Decoder.adddict]
  split
  · next hfull => exact ⟨by rw [advance, if_pos hfull], rfl⟩
  · exact ⟨rfl, rfl⟩

/-- Behind `adddict` every code that was allowed has a string. -/
theorem Tracks.usable_grow (htracks : Tracks mymaxbits d dict) (hne : cur ≠ clear)
    (hle : cur ≤ d.counters.nexti) (hfits : cur < 1 <<< d.counters.bits)
    (previous : List UInt8) (sym : Symbol UInt8) :
    Usable (grow (2 ^ mymaxbits - 257) dict previous sym).length cur := by
  have hfull := htracks.sound.full_iff htracks.nexti
  by_cases hroom : dict.length < 2 ^ mymaxbits - 257
  · rw [grow, if_pos hroom, List.length_append, List.length_singleton]
    rcases Nat.eq_or_lt_of_le hle with heq | hlt
    · rw [heq, htracks.nexti]
      exact .inr ⟨Nat.le_add_right _ _, by omega⟩
    · exact (htracks.usable_of_lt hne hlt).mono (Nat.le_succ _)
  · rw [grow, if_neg hroom]
    exact htracks.usable_of_lt hne ((hfull.mpr hroom).symm ▸ hfits)

/-- Every other code: the dictionary grows first, and then the code has a
string. -/
theorem Tracks.code_next (htracks : Tracks mymaxbits d dict)
    (hhigh : mymaxbits ≤ 14) {prev : ℕ} (hprev : d.prev = some prev)
    (hne : cur ≠ clear) (hle : cur ≤ d.counters.nexti)
    (hfits : cur < 1 <<< d.counters.bits) :
    ∃ d', d.code mymaxbits cur = .inl d' ∧
      Tracks mymaxbits d'
        (grow (2 ^ mymaxbits - 257) dict (string dict (symbol prev)) (symbol cur)) ∧
      d'.prev = some cur ∧ d'.counters = advance mymaxbits d.counters ∧
      d'.output.sent = d.output.sent ++
        string (grow (2 ^ mymaxbits - 257) dict (string dict (symbol prev))
          (symbol cur)) (symbol cur) := by
  obtain ⟨suffix, log, hfirst, hsuffix, hread⟩ := htracks.first hhigh hprev hne hle
  have hadded := hread.adddict (htracks.prev prev hprev) hsuffix hprev
  have husable := htracks.usable_grow hne hle hfits (string dict (symbol prev))
    (symbol cur)
  obtain ⟨output, log', hprint, hprinted, hafter⟩ := hadded.printsym hhigh husable
  obtain ⟨hcounters, houtput⟩ := advance_adddict { d with log := log } prev suffix
  rw [houtput] at hprinted
  exact ⟨_, code_eq_next hprev hle hne hfirst hprint, hafter, rfl, hcounters,
    hprinted⟩

end Code

/-! ## What a code can do to any tables -/

/-- `printsym` only sends bytes and reads cells. -/
theorem printsym_frame {fuel sym : ℕ} {d d' : Decoder}
    (hprint : d.printsym fuel sym = some d') :
    d' = { d with output := d'.output, log := d'.log } ∧ d.log <+: d'.log := by
  induction fuel generalizing sym d d' with
  | zero =>
      rw [Decoder.printsym] at hprint
      split at hprint
      · cases hprint
        exact ⟨rfl, List.prefix_rfl⟩
      · cases hprint
  | succ fuel ih =>
      rw [Decoder.printsym] at hprint
      split at hprint
      · cases hprint
        exact ⟨rfl, List.prefix_rfl⟩
      · split at hprint
        · cases hprint
        · next d₁ hrec =>
            obtain ⟨hframe, hlog⟩ := ih hrec
            cases hprint
            constructor
            · rw [hframe]
              rfl
            · exact (List.prefix_append _ _).trans
                (hlog.trans (List.prefix_append _ _))

/-- `first` only reads cells. -/
theorem first_frame {fuel sym : ℕ} {d d' : Decoder} {c : UInt8}
    (hfirst : d.first fuel sym = some (c, d')) :
    d' = { d with log := d'.log } ∧ d.log <+: d'.log := by
  induction fuel generalizing sym d with
  | zero =>
      rw [Decoder.first] at hfirst
      split at hfirst
      · cases hfirst
        exact ⟨rfl, List.prefix_rfl⟩
      · cases hfirst
  | succ fuel ih =>
      rw [Decoder.first] at hfirst
      split at hfirst
      · cases hfirst
        exact ⟨rfl, List.prefix_rfl⟩
      · obtain ⟨hframe, hlog⟩ := ih hfirst
        exact ⟨hframe, (List.prefix_append _ _).trans hlog⟩

/-- The three ways on from a code. -/
theorem code_cases {mymaxbits cur : ℕ} {d d' : Decoder}
    (hcode : d.code mymaxbits cur = .inl d') :
    (d.prev = none ∧ ∃ d₁, d.printsym codeSpace cur = some d₁ ∧
      d' = { d₁ with prev := some cur }) ∨
    (∃ prev, d.prev = some prev ∧ cur = clear ∧
      d' = { d.cleardict with prev := none }) ∨
    ∃ prev suffix d₁ d₂, d.prev = some prev ∧ cur ≠ clear ∧
      d.first codeSpace (if cur = d.counters.nexti then prev else cur) =
        some (suffix, d₁) ∧
      (d₁.adddict mymaxbits prev suffix).printsym codeSpace cur = some d₂ ∧
      d' = { d₂ with prev := some cur } := by
  rcases hprev : d.prev with _ | prev
  · rw [Decoder.code, hprev] at hcode
    dsimp only at hcode
    split at hcode
    · cases hcode
    · next d₁ hprint => exact .inl ⟨rfl, d₁, hprint, (Sum.inl.inj hcode).symm⟩
  · rw [Decoder.code, hprev] at hcode
    dsimp only at hcode
    split at hcode
    · cases hcode
    · split at hcode
      · next hclear => exact .inr (.inl ⟨prev, rfl, hclear, (Sum.inl.inj hcode).symm⟩)
      · next hne =>
          split at hcode
          · cases hcode
          · next suffix d₁ hfirst =>
              split at hcode
              · cases hcode
              · next d₂ hprint =>
                  exact .inr (.inr ⟨prev, suffix, d₁, d₂, rfl, hne, hfirst, hprint,
                    (Sum.inl.inj hcode).symm⟩)

/-- The ways a code ends the program. -/
theorem code_stop {mymaxbits cur : ℕ} {d : Decoder} {result : Result}
    (hcode : d.code mymaxbits cur = .inr result) :
    result.status ≠ .returned ∧ d.log <+: result.log := by
  rcases hprev : d.prev with _ | prev
  · rw [Decoder.code, hprev] at hcode
    dsimp only at hcode
    split at hcode
    · cases hcode
      exact ⟨nofun, List.prefix_rfl⟩
    · cases hcode
  · rw [Decoder.code, hprev] at hcode
    dsimp only at hcode
    split at hcode
    · cases hcode
      exact ⟨nofun, List.prefix_rfl⟩
    · split at hcode
      · cases hcode
      · split at hcode
        · cases hcode
          exact ⟨nofun, List.prefix_rfl⟩
        · next suffix d₁ hfirst =>
            split at hcode
            · cases hcode
              exact ⟨nofun, (first_frame hfirst).2⟩
            · cases hcode

/-- A code moves the phase on as if there were no tables. -/
theorem code_phase {mymaxbits cur : ℕ} {d d' : Decoder}
    (hcode : d.code mymaxbits cur = .inl d') :
    d'.phase = d.phase.next mymaxbits cur := by
  rcases code_cases hcode with ⟨hprev, d₁, hprint, rfl⟩ | ⟨prev, hprev, rfl, rfl⟩ |
    ⟨prev, suffix, d₁, d₂, hprev, hne, hfirst, hprint, rfl⟩
  · have hframe := (printsym_frame hprint).1
    simp only [Decoder.phase, Phase.next, hprev]
    rw [hframe]
    rfl
  · simp only [Decoder.phase, Phase.next, hprev]
    rfl
  · have hadvance : d₂.counters = advance mymaxbits d.counters := by
      calc d₂.counters
          = (d₁.adddict mymaxbits prev suffix).counters := by
            rw [(printsym_frame hprint).1]
        _ = advance mymaxbits d₁.counters := (advance_adddict d₁ prev suffix).1
        _ = advance mymaxbits d.counters := by rw [(first_frame hfirst).1]
    simp only [Decoder.phase, Phase.next, hprev, hne, hadvance]
    rfl

/-! ## Runs over packed codes -/

/-- Every code fits the width it is packed at. -/
def Fits (mymaxbits : ℕ) : Phase → List ℕ → Prop
  | _, [] => True
  | phase, code :: codes =>
      code < 2 ^ phase.counters.bits ∧ Fits mymaxbits (phase.next mymaxbits code) codes

theorem Phase.sound_next {mymaxbits : ℕ} {phase : Phase} (hlow : 9 ≤ mymaxbits)
    (hsound : Counters.Sound mymaxbits phase.counters) (code : ℕ) :
    Counters.Sound mymaxbits (phase.next mymaxbits code).counters := by
  rw [Phase.next]
  split
  · exact hsound
  · split
    · exact Counters.sound_cleared hlow
    · exact hsound.advance

theorem ValidCodes.fits {mymaxbits : ℕ} {phase : Phase} {codes : List ℕ}
    (hlow : 9 ≤ mymaxbits) (hsound : Counters.Sound mymaxbits phase.counters)
    (hvalid : ValidCodes mymaxbits phase codes) : Fits mymaxbits phase codes := by
  induction codes generalizing phase with
  | nil => trivial
  | cons code codes ih =>
      obtain ⟨hallows, hrest⟩ := hvalid
      refine ⟨?_, ih (Phase.sound_next hlow hsound code) hrest⟩
      have hwidth : 2 ^ 9 ≤ 2 ^ phase.counters.bits :=
        Nat.pow_le_pow_right Nat.two_pos hsound.bits_ge
      rw [Phase.Allows] at hallows
      split at hallows
      · omega
      · rcases hallows with rfl | ⟨_, hlt⟩
        · exact Nat.lt_of_lt_of_le (by decide) hwidth
        · rwa [Nat.one_shiftLeft] at hlt

/-- The loop reads the next packed code. -/
theorem step_packed (mymaxbits : ℕ) {code : ℕ} {d : Decoder} {input : BitSource}
    {rest : List Bool} (heof : input.eof = false)
    (hbits : input.bits = Bits.ofNat d.counters.bits code ++ rest)
    (hfits : code < 2 ^ d.counters.bits) :
    ∃ input', input'.bits = rest ∧ input'.eof = false ∧
      step mymaxbits (input, d) = (d.code mymaxbits code).map (input', ·) id := by
  obtain ⟨hcode, hrest, heof'⟩ := BitSource.getsym_packed hbits hfits
  rw [heof] at heof'
  refine ⟨_, hrest, heof', ?_⟩
  rw [step]
  dsimp only
  rcases d.prev with _ | prev
  · dsimp only
    rw [hcode]
  · dsimp only
    rw [heof, heof', hcode]
    rfl

/-- Less than a code is left, and the loop ends. -/
theorem step_end {mymaxbits prev : ℕ} {d : Decoder} {input : BitSource}
    (hprev : d.prev = some prev)
    (hend : input.eof = true ∨ input.bits.length < d.counters.bits) :
    step mymaxbits (input, d) = .inr (d.stop .returned) := by
  obtain ⟨_, _, heof⟩ := input.getsym_spec d.counters.bits
  rw [step]
  dsimp only
  rw [hprev]
  dsimp only
  rcases hend with hend | hend
  · rw [hend]
    rfl
  · rw [decide_eq_true hend, Bool.or_true] at heof
    rw [heof]
    split <;> rfl

/-- Packed codes are fed to the decoder one after the other. -/
theorem run_packed {mymaxbits : ℕ} (hlow : 9 ≤ mymaxbits) {codes : List ℕ}
    {d : Decoder} {input : BitSource} {fuel pad : ℕ}
    (hsound : Counters.Sound mymaxbits d.counters)
    (hfits : Fits mymaxbits d.phase codes) (heof : input.eof = false)
    (hbits : input.bits =
      packCodes mymaxbits d.phase codes ++ List.replicate pad false)
    (hpad : pad < 9) (hfuel : input.bits.length < fuel)
    (hlast : ∀ d', feed mymaxbits d codes = .inl d' → d'.prev ≠ none) :
    Machine.run (step mymaxbits) fuel (input, d) =
      some ((feed mymaxbits d codes).elim (·.stop .returned) id) := by
  induction codes generalizing d input fuel with
  | nil =>
      obtain ⟨prev, hprev⟩ := Option.ne_none_iff_exists'.mp (hlast d rfl)
      have hend : input.bits.length < d.counters.bits := by
        have hge := hsound.bits_ge
        rw [hbits, packCodes, List.nil_append, List.length_replicate]
        omega
      obtain ⟨fuel, rfl⟩ := Nat.exists_eq_succ_of_ne_zero (Nat.ne_zero_of_lt hfuel)
      rw [Machine.run, step_end hprev (.inr hend)]
      rfl
  | cons code codes ih =>
      obtain ⟨hcode, hrest⟩ := hfits
      rw [packCodes, List.append_assoc] at hbits
      obtain ⟨input', hbits', heof', hstep⟩ :=
        step_packed mymaxbits heof hbits hcode
      obtain ⟨fuel, rfl⟩ := Nat.exists_eq_succ_of_ne_zero (Nat.ne_zero_of_lt hfuel)
      rw [feed] at hlast ⊢
      rw [Machine.run, hstep]
      rcases hnext : d.code mymaxbits code with d' | result
      · have hphase := code_phase hnext
        rw [hnext] at hlast
        have hshorter : input'.bits.length < fuel := by
          rw [← hbits'] at hbits
          have hlength := congrArg List.length hbits
          rw [List.length_append, Bits.length_ofNat] at hlength
          have hge : 9 ≤ d.phase.counters.bits := hsound.bits_ge
          omega
        refine ih ?_ (hphase ▸ hrest) heof' (hphase ▸ hbits') hshorter hlast
        have hnextSound : Counters.Sound mymaxbits
            (d.phase.next mymaxbits code).counters :=
          Phase.sound_next hlow hsound code
        rw [← hphase] at hnextSound
        exact hnextSound
      · rfl

/-! ## The refinement -/

/-- The reference decoder, from where the decoder is. -/
theorem feed_refines {mymaxbits : ℕ} (hlow : 9 ≤ mymaxbits) (hhigh : mymaxbits ≤ 14)
    {codes : List ℕ} {d : Decoder} {dict : List (List UInt8)}
    (htracks : Tracks mymaxbits d dict)
    (hvalid : ValidCodes mymaxbits d.phase codes) :
    ∃ d', feed mymaxbits d codes = .inl d' ∧ d'.prev ≠ none ∧
      d'.output.sent = d.output.sent ++
        decode (2 ^ mymaxbits - 257) dict
          (d.prev.map fun prev => string dict (symbol prev)) (codes.map symbol) := by
  induction codes generalizing d dict with
  | nil =>
      refine ⟨d, rfl, ?_, (List.append_nil _).symm⟩
      intro hprev
      rw [ValidCodes, Decoder.phase, hprev] at hvalid
      cases hvalid
  | cons code codes ih =>
      obtain ⟨hallows, hrest⟩ := hvalid
      rw [Phase.Allows] at hallows
      rcases hprev : d.prev with _ | prev
      · have hlt : code < 256 := by
          rwa [if_pos (by rw [Decoder.phase, hprev]; rfl)] at hallows
        obtain ⟨d₁, hcode, htracks', hprev', _, hsent⟩ :=
          htracks.code_start hhigh hprev hlt
        obtain ⟨d', hfeed, hend, hfinal⟩ := ih htracks' (code_phase hcode ▸ hrest)
        refine ⟨d', ?_, hend, ?_⟩
        · rw [feed, hcode]
          exact hfeed
        · rw [hfinal, hsent, hprev', List.append_assoc, List.map_cons,
            Option.map_none, decode]
          · rfl
          · rw [symbol_of_lt hlt]
            intro hclear
            cases hclear
      · have hphase : d.phase.fresh = false := by rw [Decoder.phase, hprev]; rfl
        rw [hphase, if_neg Bool.false_ne_true] at hallows
        by_cases hclear : code = clear
        · subst hclear
          obtain ⟨d₁, hcode, htracks', hprev', _, hsent⟩ :=
            htracks.code_clear hlow hprev
          obtain ⟨d', hfeed, hend, hfinal⟩ := ih htracks' (code_phase hcode ▸ hrest)
          refine ⟨d', ?_, hend, ?_⟩
          · rw [feed, hcode]
            exact hfeed
          · rw [hfinal, hsent, hprev', List.map_cons]
            rfl
        · obtain ⟨hle, hlt⟩ := hallows.resolve_left hclear
          obtain ⟨d₁, hcode, htracks', hprev', _, hsent⟩ :=
            htracks.code_next hhigh hprev hclear hle hlt
          obtain ⟨d', hfeed, hend, hfinal⟩ := ih htracks' (code_phase hcode ▸ hrest)
          refine ⟨d', ?_, hend, ?_⟩
          · rw [feed, hcode]
            exact hfeed
          · rw [hfinal, hsent, hprev', List.append_assoc, List.map_cons,
              Option.map_some, Option.map_some, decode]
            exact symbol_ne_clear hclear

end Fip.Lzw.Uncompress
