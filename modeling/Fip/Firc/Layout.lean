import Fip.Firc.Resolver

/-!
# Which replies the resolver parses safely

The cursor of the parser is never compared with the end of `buf`.  The parser
ends, and stays inside its arrays, exactly on the replies that are laid out in
the buffer: every name ends there, every record lies there, and no address is
longer than four bytes.
-/

namespace Fip.Firc.Resolver

section Layout

variable (signed : Bool) (buf : Buf)

/-- A name from one offset to another: labels, then a zero byte or a pointer of two
bytes. -/
inductive Name : ℤ → ℤ → Prop
  | root {ptr : ℤ} (hbyte : load buf ptr = some 0) : Name ptr (ptr + 1)
  | pointer {ptr : ℤ} {byte : UInt8} (hbyte : load buf ptr = some byte) (hne : byte ≠ 0)
      (hpointer : byte &&& 0xc0 = 0xc0) : Name ptr (ptr + 2)
  | label {ptr rest : ℤ} {byte : UInt8} (hbyte : load buf ptr = some byte) (hne : byte ≠ 0)
      (hlabel : byte &&& 0xc0 ≠ 0xc0)
      (hrest : Name (ptr + (plainChar signed byte + 1)) rest) : Name ptr rest

/-- Questions one behind the other: a name, a type and a class. -/
inductive Questions : ℕ → ℤ → ℤ → Prop
  | nil (ptr : ℤ) : Questions 0 ptr ptr
  | cons {count : ℕ} {ptr tail rest : ℤ} (hname : Name signed buf ptr tail)
      (hrest : Questions count (tail + 4) rest) : Questions (count + 1) ptr rest

/-- Answers one behind the other: a name, ten bytes with the type and the length of the
data, and the data, which for an address is not longer than a row of `addrs`. -/
inductive Answers : ℕ → ℤ → Prop
  | nil (ptr : ℤ) : Answers 0 ptr
  | address {count : ℕ} {ptr t : ℤ} {rdlen : ℕ} (hname : Name signed buf ptr t)
      (htype : load16 buf t = some 1) (hrdlen : load16 buf (t + 8) = some rdlen)
      (hshort : rdlen ≤ 4) (hinside : t + 10 + rdlen ≤ 512)
      (hrest : Answers count (t + 10 + rdlen)) : Answers (count + 1) ptr
  | other {count : ℕ} {ptr t : ℤ} {type rdlen : ℕ} (hname : Name signed buf ptr t)
      (htype : load16 buf t = some type) (hne : type ≠ 1)
      (hrdlen : load16 buf (t + 8) = some rdlen)
      (hrest : Answers count (t + 10 + rdlen)) : Answers (count + 1) ptr

/-- At most four questions are skipped and at most four answers are parsed. -/
def LaidOut : Prop :=
  ∃ ptr, Questions signed buf (min (qdcount buf) 4) 12 ptr ∧
    Answers signed (capped buf) (min (ancount buf) 4) ptr

end Layout

variable {signed ahead : Bool} {buf : Buf}

/-! ## Names -/

theorem skipName_mono {fuel more : ℕ} {ptr rest : ℤ}
    (hskip : skipName signed fuel buf ptr = some rest) (hle : fuel ≤ more) :
    skipName signed more buf ptr = some rest := by
  rw [skipName, Option.join_eq_some_iff] at hskip ⊢
  exact Machine.run_mono hskip hle

theorem name_of_run {fuel : ℕ} {ptr rest : ℤ}
    (hrun : Machine.run (nameStep signed buf) fuel ptr = some (some rest)) :
    Name signed buf ptr rest := by
  induction fuel generalizing ptr with
  | zero => cases hrun
  | succ fuel ih =>
      rw [Machine.run, nameStep] at hrun
      cases hbyte : load buf ptr with
      | none =>
          rw [hbyte] at hrun
          cases hrun
      | some byte =>
          simp only [hbyte] at hrun
          by_cases hzero : byte = 0
          · rw [if_pos hzero] at hrun
            cases hrun
            exact .root (hzero ▸ hbyte)
          · rw [if_neg hzero] at hrun
            by_cases hpointer : byte &&& 0xc0 = 0xc0
            · rw [if_pos hpointer] at hrun
              cases hrun
              exact .pointer hbyte hzero hpointer
            · rw [if_neg hpointer] at hrun
              exact .label hbyte hzero hpointer (ih hrun)

theorem exists_run_of_name {ptr rest : ℤ} (hname : Name signed buf ptr rest) :
    ∃ fuel, Machine.run (nameStep signed buf) fuel ptr = some (some rest) := by
  induction hname with
  | root hbyte =>
      refine ⟨1, ?_⟩
      simp only [Machine.run, nameStep, hbyte, if_true]
  | pointer hbyte hne hpointer =>
      refine ⟨1, ?_⟩
      simp only [Machine.run, nameStep, hbyte, if_neg hne, if_pos hpointer]
  | label hbyte hne hlabel _ ih =>
      obtain ⟨fuel, hrun⟩ := ih
      refine ⟨fuel + 1, ?_⟩
      simp only [Machine.run, nameStep, hbyte, if_neg hne, if_neg hlabel]
      exact hrun

/-- A name is skipped exactly if it ends inside the buffer. -/
theorem skipName_iff {ptr rest : ℤ} :
    (∃ fuel, skipName signed fuel buf ptr = some rest) ↔ Name signed buf ptr rest := by
  simp only [skipName, Option.join_eq_some_iff]
  exact ⟨fun ⟨_, hrun⟩ => name_of_run hrun, exists_run_of_name⟩

/-! ## Questions -/

theorem skipQuestions_mono {fuel more count : ℕ} {ptr rest : ℤ}
    (hskip : skipQuestions signed fuel buf count ptr = some rest) (hle : fuel ≤ more) :
    skipQuestions signed more buf count ptr = some rest := by
  induction count generalizing ptr with
  | zero => exact hskip
  | succ count ih =>
      rw [skipQuestions, Option.bind_eq_bind, Option.bind_eq_some_iff] at hskip ⊢
      obtain ⟨tail, hname, hrest⟩ := hskip
      exact ⟨tail, skipName_mono hname hle, ih hrest⟩

theorem skipQuestions_iff {count : ℕ} {ptr rest : ℤ} :
    (∃ fuel, skipQuestions signed fuel buf count ptr = some rest) ↔
      Questions signed buf count ptr rest := by
  constructor
  · rintro ⟨fuel, hskip⟩
    induction count generalizing ptr with
    | zero =>
        cases hskip
        exact .nil _
    | succ count ih =>
        rw [skipQuestions, Option.bind_eq_bind, Option.bind_eq_some_iff] at hskip
        obtain ⟨tail, hname, hrest⟩ := hskip
        exact .cons (skipName_iff.mp ⟨fuel, hname⟩) (ih hrest)
  · intro hquestions
    induction hquestions with
    | nil ptr => exact ⟨0, rfl⟩
    | @cons count ptr tail rest hname _ ih =>
        obtain ⟨fuel, hskip⟩ := skipName_iff.mpr hname
        obtain ⟨more, hskips⟩ := ih
        refine ⟨max fuel more, ?_⟩
        rw [skipQuestions, skipName_mono hskip (Nat.le_max_left _ _), Option.bind_eq_bind,
          Option.bind_some]
        exact skipQuestions_mono hskips (Nat.le_max_right _ _)

/-! ## Answers -/

theorem load_inside {offset : ℤ} {byte : UInt8} (hload : load buf offset = some byte) :
    0 ≤ offset ∧ offset < 512 :=
  (load_eq_some.mp hload).1

theorem load16_inside {offset : ℤ} {word : ℕ} (hload : load16 buf offset = some word) :
    0 ≤ offset ∧ offset + 2 ≤ 512 := by
  simp only [load16, Option.bind_eq_bind, Option.bind_eq_some_iff] at hload
  obtain ⟨high, hhigh, low, hlow, -⟩ := hload
  have hfirst := load_inside hhigh
  have hsecond := load_inside hlow
  omega

/-- Data is copied exactly if it lies in the buffer and fits into the row. -/
theorem copyAddr_iff {lno : ℕ} (hlno : lno < 4) {count j : ℕ} (hj : j ≤ 4) {ptr : ℤ}
    (hptr : 0 ≤ ptr ∧ ptr ≤ 512) {s : Statics} :
    (∃ out, copyAddr lno count j ptr s = some out) ↔ j + count ≤ 4 ∧ ptr + count ≤ 512 := by
  induction count generalizing j ptr s with
  | zero => exact iff_of_true ⟨(ptr, s), rfl⟩ (by omega)
  | succ count ih =>
      rw [copyAddr]
      by_cases hinside : 0 ≤ ptr ∧ ptr < 512
      · rw [load, dif_pos hinside, Option.bind_eq_bind, Option.bind_some, storeAddr]
        by_cases hrow : lno < 4 ∧ j < 4
        · rw [dif_pos hrow, Option.bind_eq_bind, Option.bind_some, ih (by omega) (by omega)]
          omega
        · rw [dif_neg hrow]
          apply iff_of_false _ (by omega)
          rintro ⟨out, hnone⟩
          cases hnone
      · rw [load, dif_neg hinside]
        apply iff_of_false _ (by omega)
        rintro ⟨out, hnone⟩
        cases hnone

theorem storeAddr_buf {s s' : Statics} {lno j : ℕ} {byte : UInt8}
    (hstore : storeAddr s lno j byte = some s') : s'.buf = s.buf := by
  rw [storeAddr] at hstore
  split at hstore
  · cases hstore
    rfl
  · cases hstore

/-- The cursor ends behind the data; the buffer is not written. -/
theorem copyAddr_spec {lno count j : ℕ} {ptr ptr' : ℤ} {s s' : Statics}
    (hcopy : copyAddr lno count j ptr s = some (ptr', s')) :
    ptr' = ptr + count ∧ s'.buf = s.buf := by
  induction count generalizing j ptr s with
  | zero =>
      cases hcopy
      exact ⟨(Int.add_zero _).symm, rfl⟩
  | succ count ih =>
      simp only [copyAddr, Option.bind_eq_bind, Option.bind_eq_some_iff] at hcopy
      obtain ⟨byte, -, next, hstore, hcopy⟩ := hcopy
      obtain ⟨hptr, hbuf⟩ := ih hcopy
      exact ⟨by omega, hbuf.trans (storeAddr_buf hstore)⟩

theorem storeAddress_spec (ahead : Bool) (s : Statics) {lno : ℕ} (hlno : lno < 4) :
    ∃ s', storeAddress ahead s lno = some s' ∧ s'.buf = s.buf := by
  rw [storeAddress, dif_pos hlno]
  exact ⟨_, rfl, rfl⟩

theorem storeNull_spec (s : Statics) {lno : ℕ} (hlno : lno < 5) :
    ∃ s', storeNull s lno = some s' ∧ s'.buf = s.buf := by
  rw [storeNull, dif_pos hlno]
  exact ⟨_, rfl, rfl⟩

/-- What the parser does with an answer. -/
theorem parseAnswers_succ {fuel count lno : ℕ} {ptr : ℤ} {s s' : Statics} :
    parseAnswers signed ahead fuel (count + 1) ptr lno s = some s' ↔
      ∃ t type rdlen, skipName signed fuel s.buf ptr = some t ∧
        load16 s.buf t = some type ∧ load16 s.buf (t + 8) = some rdlen ∧
        ((type = 1 ∧ ∃ ptr' s₁ s₂, copyAddr lno rdlen 0 (t + 10) s = some (ptr', s₁) ∧
            storeAddress ahead s₁ lno = some s₂ ∧
            parseAnswers signed ahead fuel count ptr' (lno + 1) s₂ = some s') ∨
          (type ≠ 1 ∧
            parseAnswers signed ahead fuel count (t + 10 + rdlen) lno s = some s')) := by
  simp only [parseAnswers, Option.bind_eq_bind, Option.bind_eq_some_iff]
  constructor
  · rintro ⟨t, hname, type, htype, rdlen, hrdlen, hrest⟩
    refine ⟨t, type, rdlen, hname, htype, hrdlen, ?_⟩
    by_cases haddress : type = 1
    · rw [if_pos haddress] at hrest
      obtain ⟨⟨ptr', s₁⟩, hcopy, hrest⟩ := Option.bind_eq_some_iff.mp hrest
      obtain ⟨s₂, hstore, hrest⟩ := Option.bind_eq_some_iff.mp hrest
      exact Or.inl ⟨haddress, ptr', s₁, s₂, hcopy, hstore, hrest⟩
    · rw [if_neg haddress] at hrest
      exact Or.inr ⟨haddress, hrest⟩
  · rintro ⟨t, type, rdlen, hname, htype, hrdlen, hrest⟩
    refine ⟨t, hname, type, htype, rdlen, hrdlen, ?_⟩
    rcases hrest with ⟨haddress, ptr', s₁, s₂, hcopy, hstore, hrest⟩ | ⟨hother, hrest⟩
    · rw [if_pos haddress, hcopy, Option.bind_some, hstore, Option.bind_some]
      exact hrest
    · rw [if_neg hother]
      exact hrest

theorem parseAnswers_mono {fuel more count lno : ℕ} {ptr : ℤ} {s s' : Statics}
    (hparse : parseAnswers signed ahead fuel count ptr lno s = some s') (hle : fuel ≤ more) :
    parseAnswers signed ahead more count ptr lno s = some s' := by
  induction count generalizing ptr lno s with
  | zero => exact hparse
  | succ count ih =>
      rw [parseAnswers_succ] at hparse ⊢
      obtain ⟨t, type, rdlen, hname, htype, hrdlen, hrest⟩ := hparse
      refine ⟨t, type, rdlen, skipName_mono hname hle, htype, hrdlen, ?_⟩
      rcases hrest with ⟨haddress, ptr', s₁, s₂, hcopy, hstore, hrest⟩ | ⟨hother, hrest⟩
      · exact Or.inl ⟨haddress, ptr', s₁, s₂, hcopy, hstore, ih hrest⟩
      · exact Or.inr ⟨hother, ih hrest⟩

/-- The answers do not write the buffer. -/
theorem parseAnswers_buf {fuel count lno : ℕ} (hcount : lno + count ≤ 4) {ptr : ℤ}
    {s s' : Statics} (hparse : parseAnswers signed ahead fuel count ptr lno s = some s') :
    s'.buf = s.buf := by
  induction count generalizing ptr lno s with
  | zero =>
      obtain ⟨final, hstore, hbuf⟩ := storeNull_spec s (show lno < 5 by omega)
      rw [parseAnswers, hstore] at hparse
      cases hparse
      exact hbuf
  | succ count ih =>
      rw [parseAnswers_succ] at hparse
      obtain ⟨t, type, rdlen, -, -, -, hrest⟩ := hparse
      rcases hrest with ⟨-, ptr', s₁, s₂, hcopy, hstore, hrest⟩ | ⟨-, hrest⟩
      · obtain ⟨final, hstored, hbuf⟩ := storeAddress_spec ahead s₁ (show lno < 4 by omega)
        rw [hstored] at hstore
        cases hstore
        exact (ih (by omega) hrest).trans (hbuf.trans (copyAddr_spec hcopy).2)
      · exact ih (by omega) hrest

/-- The answers are parsed exactly if they are laid out in the buffer. -/
theorem parseAnswers_iff {count lno : ℕ} (hcount : lno + count ≤ 4) {ptr : ℤ} {s : Statics} :
    (∃ fuel s', parseAnswers signed ahead fuel count ptr lno s = some s') ↔
      Answers signed s.buf count ptr := by
  constructor
  · rintro ⟨fuel, s', hparse⟩
    induction count generalizing ptr lno s with
    | zero => exact .nil ptr
    | succ count ih =>
        rw [parseAnswers_succ] at hparse
        obtain ⟨t, type, rdlen, hname, htype, hrdlen, hrest⟩ := hparse
        have hname := skipName_iff.mp ⟨fuel, hname⟩
        rcases hrest with ⟨rfl, ptr', s₁, s₂, hcopy, hstore, hrest⟩ | ⟨hother, hrest⟩
        · have hfront := load16_inside htype
          have hback := load16_inside hrdlen
          obtain ⟨hshort, hinside⟩ := (copyAddr_iff (show lno < 4 by omega) (by omega)
            (by omega)).mp ⟨_, hcopy⟩
          obtain ⟨hptr, hbuf⟩ := copyAddr_spec hcopy
          obtain ⟨final, hstored, hbuf'⟩ := storeAddress_spec ahead s₁ (show lno < 4 by omega)
          rw [hstored] at hstore
          cases hstore
          have hanswers := ih (by omega) hrest
          rw [hbuf', hbuf, hptr] at hanswers
          exact .address hname htype hrdlen (by omega) hinside hanswers
        · exact .other hname htype hother hrdlen (ih (by omega) hrest)
  · intro hanswers
    generalize hbuf : s.buf = buf at hanswers
    induction hanswers generalizing lno s with
    | nil ptr =>
        obtain ⟨final, hstore, -⟩ := storeNull_spec s (show lno < 5 by omega)
        exact ⟨0, final, hstore⟩
    | @address count ptr t rdlen hname htype hrdlen hshort hinside _ ih =>
        subst hbuf
        have hfront := load16_inside htype
        have hback := load16_inside hrdlen
        obtain ⟨fuel, hskip⟩ := skipName_iff.mpr hname
        obtain ⟨⟨ptr', s₁⟩, hcopy⟩ := (copyAddr_iff (show lno < 4 by omega)
          (Nat.zero_le 4) (show 0 ≤ t + 10 ∧ t + 10 ≤ 512 by omega)).mpr
            ⟨(Nat.zero_add rdlen).symm ▸ hshort, hinside⟩
        obtain ⟨hptr, hbuf⟩ := copyAddr_spec hcopy
        obtain ⟨s₂, hstore, hbuf'⟩ := storeAddress_spec ahead s₁ (show lno < 4 by omega)
        obtain ⟨more, s', hparse⟩ := ih (show lno + 1 + count ≤ 4 by omega)
          (hbuf'.trans hbuf)
        refine ⟨max fuel more, s', parseAnswers_succ.mpr ⟨t, 1, rdlen,
          skipName_mono hskip (Nat.le_max_left _ _), htype, hrdlen, Or.inl ⟨rfl, ptr', s₁, s₂,
            hcopy, hstore, ?_⟩⟩⟩
        rw [hptr]
        exact parseAnswers_mono hparse (Nat.le_max_right _ _)
    | @other count ptr t type rdlen hname htype hne hrdlen _ ih =>
        subst hbuf
        obtain ⟨fuel, hskip⟩ := skipName_iff.mpr hname
        obtain ⟨more, s', hparse⟩ := ih (show lno + count ≤ 4 by omega) rfl
        exact ⟨max fuel more, s', parseAnswers_succ.mpr ⟨t, type, rdlen,
          skipName_mono hskip (Nat.le_max_left _ _), htype, hrdlen,
          Or.inr ⟨hne, parseAnswers_mono hparse (Nat.le_max_right _ _)⟩⟩⟩

/-! ## Replies -/

section Process

variable {s : Statics} (haccepted : Accepted s.buf)

include haccepted

/-- The two halves of the parser. -/
theorem process_eq_some {fuel : ℕ} {out : Statics × Bool} :
    process signed ahead fuel s = some out ↔
      ∃ ptr s', skipQuestions signed fuel s.buf (min (qdcount s.buf) 4) 12 = some ptr ∧
        parseAnswers signed ahead fuel (min (ancount s.buf) 4) ptr 0
          { s with buf := capped s.buf } = some s' ∧ (s', true) = out := by
  rw [process, if_pos haccepted]
  simp only [Option.bind_eq_bind, Option.bind_eq_some_iff, ancount_capped, Option.pure_def,
    Option.some.injEq]
  exact ⟨fun ⟨ptr, hskip, s', hparse, hout⟩ => ⟨ptr, s', hskip, hparse, hout⟩,
    fun ⟨ptr, s', hskip, hparse, hout⟩ => ⟨ptr, hskip, s', hparse, hout⟩⟩

theorem process_buf {fuel : ℕ} {out : Statics × Bool}
    (hprocess : process signed ahead fuel s = some out) : out.1.buf = capped s.buf := by
  obtain ⟨ptr, s', -, hparse, rfl⟩ := (process_eq_some haccepted).mp hprocess
  have hcount : 0 + min (ancount s.buf) 4 ≤ 4 := by omega
  exact parseAnswers_buf hcount hparse

theorem process_iff :
    (∃ fuel out, process signed ahead fuel s = some out) ↔ LaidOut signed s.buf := by
  have hcount : 0 + min (ancount s.buf) 4 ≤ 4 := by omega
  have hanswers : ∀ ptr, (∃ fuel s', parseAnswers signed ahead fuel (min (ancount s.buf) 4) ptr 0
      { s with buf := capped s.buf } = some s') ↔
        Answers signed (capped s.buf) (min (ancount s.buf) 4) ptr := fun ptr =>
    parseAnswers_iff hcount
  constructor
  · rintro ⟨fuel, out, hprocess⟩
    obtain ⟨ptr, s', hskip, hparse, -⟩ := (process_eq_some haccepted).mp hprocess
    exact ⟨ptr, skipQuestions_iff.mp ⟨fuel, hskip⟩, (hanswers ptr).mp ⟨fuel, s', hparse⟩⟩
  · rintro ⟨ptr, hquestions, hlaid⟩
    obtain ⟨fuel, hskip⟩ := skipQuestions_iff.mpr hquestions
    obtain ⟨more, s', hparse⟩ := (hanswers ptr).mpr hlaid
    exact ⟨max fuel more, (s', true), (process_eq_some haccepted).mpr
      ⟨ptr, s', skipQuestions_mono hskip (Nat.le_max_left _ _),
        parseAnswers_mono hparse (Nat.le_max_right _ _), rfl⟩⟩

end Process

theorem process_refused {s : Statics} (hrefused : ¬Accepted s.buf) (fuel : ℕ) :
    process signed ahead fuel s = some (s, false) :=
  if_neg hrefused

/-- The resolver ends, with all loads and stores inside its arrays, exactly on the
replies that it refuses or that are laid out in the buffer; nothing but the tables is
written if moreover no count of answers has to be capped. -/
theorem process_safe_iff (signed ahead : Bool) (s : Statics) :
    ((∃ fuel out, process signed ahead fuel s = some out) ↔
        (Accepted s.buf → LaidOut signed s.buf)) ∧
      ((∃ fuel out, process signed ahead fuel s = some out ∧ out.1.buf = s.buf) ↔
        (Accepted s.buf → LaidOut signed s.buf ∧ ancount s.buf ≤ 4)) := by
  by_cases haccepted : Accepted s.buf
  · rw [imp_iff_right haccepted, imp_iff_right haccepted, ← capped_eq_iff,
      ← process_iff haccepted]
    refine ⟨Iff.rfl, ?_⟩
    constructor
    · rintro ⟨fuel, out, hprocess, hbuf⟩
      exact ⟨⟨fuel, out, hprocess⟩, (process_buf haccepted hprocess).symm.trans hbuf⟩
    · rintro ⟨⟨fuel, out, hprocess⟩, hcapped⟩
      exact ⟨fuel, out, hprocess, (process_buf haccepted hprocess).trans hcapped⟩
  · have hprocess : process signed ahead 0 s = some (s, false) := process_refused haccepted 0
    exact ⟨iff_of_true ⟨0, (s, false), hprocess⟩ fun h => absurd h haccepted,
      iff_of_true ⟨0, (s, false), hprocess, rfl⟩ fun h => absurd h haccepted⟩

/-- A reply of 43 bytes without questions and with one address of twenty bytes. -/
def longAddress : Statics where
  buf := fun offset => [0, 42, 0x80, 0x80, 0, 0, 0, 1, 0, 0, 0, 0, 0, 0, 1, 0, 1, 0, 0, 0, 0, 0,
    20].getD offset.1 0
  addrs := fun _ _ => 0
  list := fun _ => none

/-- It passes the checks of the header, and the fifth byte of its address is stored
outside of the row. -/
theorem longAddress_unsafe :
    Accepted longAddress.buf ∧
      ∀ signed ahead, ¬∃ fuel out, process signed ahead fuel longAddress = some out := by
  have haccepted : Accepted longAddress.buf := by decide
  have hname : load longAddress.buf 12 = some 0 := by decide
  have htype : load16 longAddress.buf 13 = some 1 := by decide
  have hrdlen : load16 longAddress.buf 21 = some 20 := by decide
  have hcapped : capped longAddress.buf = longAddress.buf :=
    (capped_eq_iff _).mpr (by decide)
  refine ⟨haccepted, fun signed ahead hends => ?_⟩
  obtain ⟨ptr, hquestions, hanswers⟩ := (process_iff haccepted).mp hends
  have hnone : min (qdcount longAddress.buf) 4 = 0 := by decide
  have hone : min (ancount longAddress.buf) 4 = 1 := by decide
  rw [hnone] at hquestions
  rw [hcapped, hone] at hanswers
  cases hquestions
  have htail : ∀ t, Name signed longAddress.buf 12 t → t = 13 := by
    intro t hname'
    cases hname' with
    | root hbyte => rfl
    | pointer hbyte hne => exact absurd (Option.some.inj (hbyte.symm.trans hname)) hne
    | label hbyte hne => exact absurd (Option.some.inj (hbyte.symm.trans hname)) hne
  cases hanswers with
  | address hname' htype' hrdlen' hshort =>
      obtain rfl := htail _ hname'
      obtain rfl := Option.some.inj (hrdlen.symm.trans hrdlen')
      exact absurd hshort (by decide)
  | other hname' htype' hne =>
      obtain rfl := htail _ hname'
      exact absurd (Option.some.inj (htype'.symm.trans htype)) hne

end Fip.Firc.Resolver
