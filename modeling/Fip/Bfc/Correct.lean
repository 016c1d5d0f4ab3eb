import Fip.Bfc.Pointers

/-!
# The compiler compiles colon bodies correctly

From its source to the stacks at the end of the definition: the code of a body
has each label it needs once, leaves the control stack as it was, and comes to
its end exactly in the executions of the structured reading.  A body of a `for`
that replaces the counter on the return stack is run as long as it wants to.
-/

namespace Fip.Bfc

/-- The state behind `;`. -/
theorem compiled_dosemi (beyond : ℕ → Entry) {s : State} {rest : List Char}
    (hnext : Next s.infile ";" rest) :
    ∃ t, Machine.Reaches (State.processFile beyond) s t ∧ t.infile = rest ∧
      t.outfile = s.outfile ++ [.rts] ∧ t.cstack = s.cstack := by
  have hprocess : (s.reading ";" rest).process beyond =
      some { (s.reading ";" rest).fprintf [.rts] with state := false } := by
    simp [State.process, State.reading, State.dosemi]
  exact ⟨_, reaches_of_process hnext hprocess, rfl, rfl, rfl⟩

/-- The compiler makes the code of the body and an `rts`. -/
theorem compiled_colon {beyond : ℕ → Entry} {s : State} {refs : Refs}
    {words : List String} {body : Body} {rest : List Char}
    (hstate : s.state = true) (hdefined : s.pointers.Defined refs)
    (hspells : Spells (fun l w => s.findentryFrom beyond w l) refs s.labeli words body)
    (hreads : Reads s.infile (words ++ [";"]) rest)
    (hdepth : s.cstack.length + body.depth ≤ 16) :
    ∃ t, Machine.Reaches (State.processFile beyond) s t ∧ t.infile = rest ∧
      t.outfile = s.outfile ++ (body.code refs s.labeli ++ [.rts]) ∧
      t.cstack = s.cstack := by
  obtain ⟨last, hwords, hsemi⟩ := hreads.append
  have hready : Ready beyond (fun l w => s.findentryFrom beyond w l) refs s :=
    ⟨fun _ _ => rfl, hdefined, hstate⟩
  obtain ⟨t, ht⟩ := hspells.compiled hready rfl hwords hdepth
  rw [← ht.infile] at hsemi
  obtain ⟨u, hreaches, hinfile, houtfile, hcstack⟩ := compiled_dosemi beyond hsemi
  refine ⟨u, ht.reaches.trans hreaches, hinfile, ?_, hcstack.trans ht.cstack⟩
  rw [houtfile, ht.outfile, List.append_assoc]

theorem count_label_rts {refs : Refs} {body : Body} {l m : ℕ}
    (hmem : Item.dwLabel m ∈ body.code refs l ++ [Item.rts]) :
    (body.code refs l ++ [Item.rts]).count (Item.label m) = 1 := by
  have hbody : .dwLabel m ∈ body.code refs l := by
    rcases List.mem_append.mp hmem with hbody | hrts
    · exact hbody
    · cases List.mem_singleton.mp hrts
  rw [List.count_append, Body.count_label_of_mem hbody]
  rfl

/-- A colon body, wherever it stands in a source whose words the compiler needs
are defined, becomes code that has each label it refers to once and comes to its
end exactly as the reading with the counters on the return stack says; and as
that with `n for B next` for n times `B`, where each `B` leaves its counter. -/
theorem colon_correct {beyond : ℕ → Entry} {source : List Char} {s : State}
    (hreaches : Machine.Reaches (State.processFile beyond) (.start source) s)
    (hstate : s.state = true) {refs : Refs} (hdefined : s.pointers.Defined refs)
    {words : List String} {body : Body} {rest : List Char}
    (hspells : Spells (fun l w => s.findentryFrom beyond w l) refs s.labeli words body)
    (hreads : Reads s.infile (words ++ [";"]) rest)
    (hdepth : s.cstack.length + body.depth ≤ 16) :
    ∃ code t, Machine.Reaches (State.processFile beyond) s t ∧ t.infile = rest ∧
      t.outfile = s.outfile ++ code ∧ t.cstack = s.cstack ∧
      (∀ l, .dwLabel l ∈ code → code.count (.label l) = 1) ∧
      ∀ act st st',
        (Halts code refs act st st' ↔ body.RunsCounted (call refs act) st st') ∧
        (body.KeepsCounters (call refs act) →
          (Halts code refs act st st' ↔ body.Runs (call refs act) st st')) := by
  have hdistinct := hdefined.distinct (apart_of_reaches hreaches)
  obtain ⟨t, htreaches, hinfile, houtfile, hcstack⟩ :=
    compiled_colon hstate hdefined hspells hreads hdepth
  refine ⟨body.code refs s.labeli ++ [.rts], t, htreaches, hinfile, houtfile, hcstack,
    fun l hmem => count_label_rts hmem, fun act st st' => ?_⟩
  have hhalts := halts_iff_runsCounted hspells hdistinct act st st'
  refine ⟨hhalts, fun hkeeps => ?_⟩
  rw [hhalts, Body.RunsCounted, Body.reading_counted_eq_times hkeeps]

/-- The words that are needed, a word `zap`, and a definition that calls it in a
loop. -/
def zapSource : List Char :=
  ("p: lit\n;p\np: 0bra\n;p\np: bra\n;p\np: push\n;p\np: dofor\n;p\np: zap\n;p\n" ++
    ": x for zap next ;").toList

/-- Behind `: x`. -/
def inX : State where
  infile := "for zap next ;".toList
  outfile := [.label 0, .label 1, .label 2, .label 3, .label 4, .label 5, .label 6]
  labeli := 7
  dict := [⟨"lit", 0, 0⟩, ⟨"0bra", 0, 1⟩, ⟨"bra", 0, 2⟩, ⟨"push", 0, 3⟩, ⟨"dofor", 0, 4⟩,
    ⟨"zap", 0, 5⟩, ⟨"x", 0, 6⟩]
  pointers := ⟨some 0, some 1, some 2, none, none, none, some 4, some 3⟩
  cstack := []
  nstack := []
  state := true
  wordb := "x"

def noEntry (_ : ℕ) : Entry := ⟨"", 0, 0⟩

theorem reaches_inX :
    Machine.Reaches (State.processFile noEntry) (.start zapSource) inX :=
  Machine.reaches_of_steps (n := 7) rfl

def zapRefs : Refs := ⟨0, 1, 2, 4, 3⟩

theorem defined_inX : inX.pointers.Defined zapRefs :=
  ⟨rfl, rfl, rfl, rfl, rfl⟩

theorem spells_inX :
    Spells (fun l w => inX.findentryFrom noEntry w l) zapRefs inX.labeli
      ["for", "zap", "next"] (.forNext (.call 5)) :=
  .forNext (.call (e := ⟨"zap", 0, 5⟩) (by decide) rfl (by decide))

theorem reads_inX : Reads inX.infile ["for", "zap", "next", ";"] [] :=
  ⟨_, rfl, _, rfl, _, rfl, _, rfl, rfl⟩

/-- The loop of a definition without a word that acts. -/
theorem colon_correct_inX :
    ∃ code t, Machine.Reaches (State.processFile noEntry) inX t ∧ t.infile = [] ∧
      t.outfile = inX.outfile ++ code ∧ t.cstack = inX.cstack ∧
      (∀ l, .dwLabel l ∈ code → code.count (.label l) = 1) ∧
      ∀ act st st',
        (Halts code zapRefs act st st' ↔
          (Body.forNext (.call 5)).RunsCounted (call zapRefs act) st st') ∧
        ((Body.forNext (.call 5)).KeepsCounters (call zapRefs act) →
          (Halts code zapRefs act st st' ↔
            (Body.forNext (.call 5)).Runs (call zapRefs act) st st')) :=
  colon_correct reaches_inX rfl defined_inX spells_inX reads_inX (by decide)

/-- `zap` leaves a 7 and makes the counter 0. -/
def zap (ref : ℕ) : Stacks → Option Stacks
  | ⟨data, _ :: ret⟩ => if ref = 5 then some ⟨7 :: data, 0 :: ret⟩ else none
  | _ => none

/-- The loop ends after one round, so `2 for zap next` does not run `zap`
twice. -/
theorem zap_runs_once :
    ∃ code t, Machine.Reaches (State.processFile noEntry) (.start zapSource) inX ∧
      Reads inX.infile ["for", "zap", "next", ";"] [] ∧
      Spells (fun l w => inX.findentryFrom noEntry w l) zapRefs inX.labeli
        ["for", "zap", "next"] (.forNext (.call 5)) ∧
      Machine.Reaches (State.processFile noEntry) inX t ∧ t.outfile = inX.outfile ++ code ∧
      Halts code zapRefs zap ⟨[2], []⟩ ⟨[7], []⟩ ∧
      ¬ (Body.forNext (.call 5)).Runs (call zapRefs zap) ⟨[2], []⟩ ⟨[7], []⟩ := by
  obtain ⟨t, hreaches, _, houtfile, _⟩ :=
    compiled_colon rfl defined_inX spells_inX reads_inX (by decide)
  refine ⟨_, t, reaches_inX, reads_inX, spells_inX, hreaches, houtfile, ?_, ?_⟩
  · exact ⟨20, rfl⟩
  · rintro ⟨data, c, ret, hfirst, data', c', ret', hsecond, hend⟩
    cases hfirst
    cases hsecond
    cases hend

end Fip.Bfc
