import Fip.Bfc.Body

/-!
# What the compiler makes of a colon body

Each control word adds its piece of code and leaves the labels that are still
needed on the control stack.  So from the words that spell a body the compiler
makes the code of the body, and the control stack is as it was.
-/

namespace Fip.Bfc

/-- The words that stand next in the input. -/
def Reads : List Char → List String → List Char → Prop
  | infile, [], rest => infile = rest
  | infile, w :: words, rest => ∃ next,
      (State.start infile).word =
        some (true, { State.start infile with wordb := w, infile := next }) ∧
      Reads next words rest

theorem Reads.append {infile rest : List Char} {first second : List String}
    (hreads : Reads infile (first ++ second) rest) :
    ∃ middle, Reads infile first middle ∧ Reads middle second rest := by
  induction first generalizing infile with
  | nil => exact ⟨infile, rfl, hreads⟩
  | cons w words ih =>
      obtain ⟨next, hword, hnext⟩ := hreads
      obtain ⟨middle, hfirst, hsecond⟩ := ih hnext
      exact ⟨middle, ⟨next, hword, hfirst⟩, hsecond⟩

theorem Reads.cons {infile rest : List Char} {w : String} {words : List String}
    (hreads : Reads infile (w :: words) rest) :
    ∃ middle, Reads infile [w] middle ∧ Reads middle words rest := by
  obtain ⟨next, hword, hnext⟩ := hreads
  exact ⟨next, ⟨next, hword, rfl⟩, hnext⟩

/-- The entries that the compiler needs have these labels. -/
structure Pointers.Defined (pointers : Pointers) (refs : Refs) : Prop where
  lit : pointers.lit = some refs.lit
  zbra : pointers.zbra = some refs.zbra
  bra : pointers.bra = some refs.bra
  dofor : pointers.dofor = some refs.dofor
  push : pointers.push = some refs.push

/-- The compiler is in a colon definition and finds words this way. -/
structure Ready (beyond : ℕ → Entry) (find : ℕ → String → Option Entry) (refs : Refs)
    (s : State) : Prop where
  find : ∀ l w, s.findentryFrom beyond w l = find l w
  defined : s.pointers.Defined refs
  state : s.state = true

/-- The compiler gets from `s` to `t`, which adds code and labels. -/
structure Compiled (beyond : ℕ → Entry) (s t : State) (items : Code) (labels : ℕ)
    (cstack : List ℕ) (infile : List Char) : Prop where
  reaches : Machine.Reaches (State.processFile beyond) s t
  infile : t.infile = infile
  outfile : t.outfile = s.outfile ++ items
  labeli : t.labeli = s.labeli + labels
  cstack : t.cstack = cstack
  dict : t.dict = s.dict
  pointers : t.pointers = s.pointers
  state : t.state = s.state

section

variable {beyond : ℕ → Entry} {find : ℕ → String → Option Entry} {refs : Refs}
  {s t u : State} {infile rest : List Char}

theorem State.findentryFrom_congr (hdict : t.dict = s.dict) (name : String) (l : ℕ) :
    t.findentryFrom beyond name l = s.findentryFrom beyond name l := by
  induction l with
  | zero => rfl
  | succ l ih =>
      rw [findentryFrom, findentryFrom, ih, entryAt, entryAt, hdict]

theorem Compiled.ready {items : Code} {labels : ℕ} {cstack : List ℕ}
    (hcompiled : Compiled beyond s t items labels cstack infile)
    (hready : Ready beyond find refs s) : Ready beyond find refs t where
  find l w := by
    rw [State.findentryFrom_congr hcompiled.dict]
    exact hready.find l w
  defined := by
    rw [hcompiled.pointers]
    exact hready.defined
  state := by
    rw [hcompiled.state]
    exact hready.state

theorem Compiled.trans {items more : Code} {labels count : ℕ} {cstack final : List ℕ}
    (hfirst : Compiled beyond s t items labels cstack infile)
    (hsecond : Compiled beyond t u more count final rest) :
    Compiled beyond s u (items ++ more) (labels + count) final rest where
  reaches := hfirst.reaches.trans hsecond.reaches
  infile := hsecond.infile
  outfile := by rw [hsecond.outfile, hfirst.outfile, List.append_assoc]
  labeli := by rw [hsecond.labeli, hfirst.labeli, Nat.add_assoc]
  cstack := hsecond.cstack
  dict := hsecond.dict.trans hfirst.dict
  pointers := hsecond.pointers.trans hfirst.pointers
  state := hsecond.state.trans hfirst.state

/-- The state with a word in the word buffer. -/
def State.reading (s : State) (w : String) (infile : List Char) : State :=
  { s with wordb := w, infile := infile }

/-- Only the input decides what `word` reads. -/
theorem State.word_of_start {w : String} {next : List Char}
    (hword : (State.start s.infile).word =
      some (true, { State.start s.infile with wordb := w, infile := next })) :
    s.word = some (true, s.reading w next) := by
  have hinfile : (State.start s.infile).infile = s.infile := rfl
  rw [word, hinfile] at hword
  rw [word]
  rcases hrest : s.infile.dropWhile isfblank with _ | ⟨c, cs⟩
  · rw [hrest] at hword
    cases hword
  · rw [hrest] at hword
    dsimp only at hword ⊢
    split at hword
    · next hlt =>
        rw [if_pos hlt]
        simp only [Option.some.injEq, Prod.mk.injEq, true_and, State.mk.injEq] at hword
        rw [reading, hword.1, hword.2]
    · cases hword

/-- A word is next in the input. -/
abbrev Next (infile : List Char) (w : String) (rest : List Char) : Prop :=
  Reads infile [w] rest

/-- One round of the loop. -/
theorem reaches_of_process {w : String} (hnext : Next s.infile w rest)
    (hprocess : (s.reading w rest).process beyond = some t) :
    Machine.Reaches (State.processFile beyond) s t := by
  obtain ⟨next, hword, rfl⟩ := hnext
  apply Relation.ReflTransGen.single
  rw [State.processFile, State.word_of_start hword]
  dsimp only
  rw [hprocess]
  rfl

/-- One round that adds code and labels. -/
theorem compiled_of_process {w : String} {items : Code} {labels : ℕ} {cstack : List ℕ}
    (hnext : Next s.infile w rest)
    (hprocess : (s.reading w rest).process beyond = some
      { s.reading w rest with
        outfile := s.outfile ++ items
        labeli := s.labeli + labels
        cstack := cstack }) :
    ∃ t, Compiled beyond s t items labels cstack rest :=
  ⟨_, reaches_of_process hnext hprocess, rfl, rfl, rfl, rfl, rfl, rfl, rfl⟩

theorem Ready.findentry (hready : Ready beyond find refs s) (w : String) :
    (s.reading w rest).findentry beyond = find s.labeli w := by
  have hdict : (s.reading w rest).dict = s.dict := rfl
  exact (State.findentryFrom_congr hdict w s.labeli).trans (hready.find s.labeli w)

theorem State.process_of_notMem (hhost : s.wordb ∉ hostWords) :
    s.process beyond = s.compile beyond := by
  simp only [hostWords, List.mem_cons, not_or] at hhost
  simp only [process, hhost, if_false]

theorem Ready.literal (hready : Ready beyond find refs s) {w : String} {x : Int}
    (hhost : w ∉ hostWords) (hfind : find s.labeli w = none)
    (hstrtol : strtol w.toList = some x) (hnext : Next s.infile w rest) :
    ∃ t, Compiled beyond s t [.jsr refs.lit, .dw x] 0 s.cstack rest := by
  apply compiled_of_process hnext
  rw [State.process_of_notMem hhost, State.compile, hready.findentry, hfind]
  simp [State.reading, hstrtol, State.compEntry, State.fprintf, hready.state,
    hready.defined.lit]

theorem Ready.word (hready : Ready beyond find refs s) {w : String} {e : Entry}
    (hhost : w ∉ hostWords) (hfind : find s.labeli w = some e)
    (hnext : Next s.infile w rest) :
    ∃ t, Compiled beyond s t [.jsr e.ref] 0 s.cstack rest := by
  apply compiled_of_process hnext
  rw [State.process_of_notMem hhost, State.compile, hready.findentry, hfind]
  rfl

theorem Ready.doif (hready : Ready beyond find refs s) (hroom : s.cstack.length < 16)
    (hnext : Next s.infile "if" rest) :
    ∃ t, Compiled beyond s t [.jsr refs.zbra, .dwLabel s.labeli] 1
      (s.labeli :: s.cstack) rest := by
  apply compiled_of_process hnext
  simp [State.process, State.reading, State.doif, State.compEntry, State.fprintf,
    State.pushCntl, hready.defined.zbra, hroom]

theorem Ready.dodofor (hready : Ready beyond find refs s)
    (hroom : s.cstack.length + 2 ≤ 16) (hnext : Next s.infile "for" rest) :
    ∃ t, Compiled beyond s t
      [.jsr refs.push, .label s.labeli, .jsr refs.dofor, .dwLabel (s.labeli + 1)] 2
      (s.labeli :: (s.labeli + 1) :: s.cstack) rest := by
  have hfirst : s.cstack.length < 16 := by omega
  have hsecond : s.cstack.length < 15 := by omega
  apply compiled_of_process hnext
  simp [State.process, State.reading, State.dodofor, State.compEntry, State.fprintf,
    State.pushCntl, hready.defined.push, hready.defined.dofor, hfirst, hsecond]

variable {i j : ℕ} {cstack : List ℕ}

theorem compiled_dothen (hcstack : s.cstack = i :: cstack)
    (hnext : Next s.infile "then" rest) :
    ∃ t, Compiled beyond s t [.label i] 0 cstack rest := by
  apply compiled_of_process hnext
  simp [State.process, State.reading, State.dothen, State.pullCntl, State.fprintf, hcstack]

theorem compiled_dobegin (beyond : ℕ → Entry) (hroom : s.cstack.length < 16)
    (hnext : Next s.infile "begin" rest) :
    ∃ t, Compiled beyond s t [.label s.labeli] 1 (s.labeli :: s.cstack) rest := by
  apply compiled_of_process hnext
  simp [State.process, State.reading, State.dobegin, State.pushCntl, State.fprintf, hroom]

theorem Ready.doagain (hready : Ready beyond find refs s) (hcstack : s.cstack = i :: cstack)
    (hnext : Next s.infile "again" rest) :
    ∃ t, Compiled beyond s t [.jsr refs.bra, .dwLabel i] 0 cstack rest := by
  apply compiled_of_process hnext
  simp [State.process, State.reading, State.doagain, State.compEntry, State.pullCntl,
    State.fprintf, hready.defined.bra, hcstack]

theorem Ready.dountil (hready : Ready beyond find refs s) (hcstack : s.cstack = i :: cstack)
    (hnext : Next s.infile "until" rest) :
    ∃ t, Compiled beyond s t [.jsr refs.zbra, .dwLabel i] 0 cstack rest := by
  apply compiled_of_process hnext
  simp [State.process, State.reading, State.dountil, State.compEntry, State.pullCntl,
    State.fprintf, hready.defined.zbra, hcstack]

theorem Ready.dowhile (hready : Ready beyond find refs s) (hcstack : s.cstack = i :: cstack)
    (hroom : cstack.length + 2 ≤ 16) (hnext : Next s.infile "while" rest) :
    ∃ t, Compiled beyond s t [.jsr refs.zbra, .dwLabel s.labeli] 1
      (i :: s.labeli :: cstack) rest := by
  have hfirst : cstack.length < 16 := by omega
  have hsecond : cstack.length < 15 := by omega
  apply compiled_of_process hnext
  simp [State.process, State.reading, State.dowhile, State.compEntry, State.pullCntl,
    State.pushCntl, State.fprintf, hready.defined.zbra, hcstack, hfirst, hsecond]

theorem Ready.dorepeat (hready : Ready beyond find refs s)
    (hcstack : s.cstack = i :: j :: cstack) (hnext : Next s.infile "repeat" rest) :
    ∃ t, Compiled beyond s t [.jsr refs.bra, .dwLabel i, .label j] 0 cstack rest := by
  apply compiled_of_process hnext
  simp [State.process, State.reading, State.dorepeat, State.doagain, State.compEntry,
    State.pullCntl, State.fprintf, hready.defined.bra, hcstack]

theorem Ready.donext (hready : Ready beyond find refs s)
    (hcstack : s.cstack = i :: j :: cstack) (hnext : Next s.infile "next" rest) :
    ∃ t, Compiled beyond s t [.jsr refs.bra, .dwLabel i, .label j] 0 cstack rest := by
  apply compiled_of_process hnext
  simp [State.process, State.reading, State.donext, State.doagain, State.dothen,
    State.compEntry, State.pullCntl, State.fprintf, hready.defined.bra, hcstack]

theorem Ready.doelse (hready : Ready beyond find refs s) (hcstack : s.cstack = i :: cstack)
    (hroom : cstack.length < 16) (hnext : Next s.infile "else" rest) :
    ∃ t, Compiled beyond s t [.jsr refs.bra, .dwLabel s.labeli, .label i] 1
      (s.labeli :: cstack) rest := by
  apply compiled_of_process hnext
  simp [State.process, State.reading, State.doelse, State.compEntry, State.pullCntl,
    State.pushCntl, State.fprintf, hready.defined.bra, hcstack, hroom]

theorem Compiled.of_eq {items items' : Code} {labels labels' : ℕ} {cstack : List ℕ}
    (hcompiled : Compiled beyond s t items labels cstack infile) (hitems : items = items')
    (hlabels : labels = labels') : Compiled beyond s t items' labels' cstack infile := by
  rw [← hitems, ← hlabels]
  exact hcompiled

end

/-- The compiler makes the code of a body from the words that spell it, if the
control stack has room. -/
theorem Spells.compiled {beyond : ℕ → Entry} {find : ℕ → String → Option Entry}
    {refs : Refs} {l : ℕ} {words : List String} {body : Body}
    (hspells : Spells find refs l words body) {s : State} {rest : List Char}
    (hready : Ready beyond find refs s) (hlabeli : s.labeli = l)
    (hreads : Reads s.infile words rest) (hdepth : s.cstack.length + body.depth ≤ 16) :
    ∃ t, Compiled beyond s t (body.code refs l) body.labels s.cstack rest := by
  induction hspells generalizing s rest with
  | empty =>
      exact ⟨s, .refl, hreads, (List.append_nil _).symm, rfl, rfl, rfl, rfl, rfl⟩
  | lit hhost hfind hstrtol =>
      subst hlabeli
      exact hready.literal hhost hfind hstrtol hreads
  | call hhost hfind _ =>
      subst hlabeli
      exact hready.word hhost hfind hreads
  | seq _ _ ihfirst ihsecond =>
      rw [Body.depth] at hdepth
      obtain ⟨middle, hfirst, hsecond⟩ := hreads.append
      obtain ⟨t, ht⟩ := ihfirst hready hlabeli hfirst (by omega)
      have htlabeli := ht.labeli
      have htcstack := ht.cstack
      rw [← ht.infile] at hsecond
      obtain ⟨u, hu⟩ := ihsecond (ht.ready hready) (by omega) hsecond (by rw [htcstack]; omega)
      rw [htcstack] at hu
      exact ⟨u, ht.trans hu⟩
  | @ifThen l yes a _ ih =>
      rw [Body.depth] at hdepth
      obtain ⟨first, hif, hyes⟩ := hreads.cons
      obtain ⟨last, hyes, hthen⟩ := hyes.append
      obtain ⟨t, ht⟩ := hready.doif (by omega) hif
      have htlabeli := ht.labeli
      rw [← ht.infile] at hyes
      obtain ⟨u, hu⟩ := ih (ht.ready hready) (by omega) hyes
        (by rw [ht.cstack, List.length_cons]; omega)
      rw [← hu.infile] at hthen
      obtain ⟨v, hv⟩ := compiled_dothen (hu.cstack.trans ht.cstack) hthen
      subst hlabeli
      exact ⟨v, ((ht.trans hu).trans hv).of_eq (by simp [Body.code]) (by simp [Body.labels])⟩
  | @ifElse l yes no a b _ _ ihyes ihno =>
      rw [Body.depth] at hdepth
      obtain ⟨first, hif, hyes⟩ := hreads.cons
      obtain ⟨second, hyes, helse⟩ := hyes.append
      obtain ⟨third, helse, hno⟩ := helse.cons
      obtain ⟨last, hno, hthen⟩ := hno.append
      obtain ⟨t, ht⟩ := hready.doif (by omega) hif
      have htlabeli := ht.labeli
      rw [← ht.infile] at hyes
      obtain ⟨u, hu⟩ := ihyes (ht.ready hready) (by omega) hyes
        (by rw [ht.cstack, List.length_cons]; omega)
      have hulabeli := hu.labeli
      have huready := hu.ready (ht.ready hready)
      rw [← hu.infile] at helse
      obtain ⟨v, hv⟩ := huready.doelse (hu.cstack.trans ht.cstack) (by omega) helse
      have hvlabeli := hv.labeli
      rw [← hv.infile] at hno
      obtain ⟨w, hw⟩ := ihno (hv.ready huready) (by omega) hno
        (by rw [hv.cstack, List.length_cons]; omega)
      rw [← hw.infile] at hthen
      obtain ⟨x, hx⟩ := compiled_dothen (hw.cstack.trans hv.cstack) hthen
      subst hlabeli
      refine ⟨x, ((((ht.trans hu).trans hv).trans hw).trans hx).of_eq ?_ ?_⟩
      · simp [Body.code, hulabeli, htlabeli]
      · simp [Body.labels, Nat.add_assoc]
  | @beginUntil l body a _ ih =>
      rw [Body.depth] at hdepth
      obtain ⟨first, hbegin, hbody⟩ := hreads.cons
      obtain ⟨last, hbody, huntil⟩ := hbody.append
      obtain ⟨t, ht⟩ := compiled_dobegin beyond (by omega) hbegin
      have htlabeli := ht.labeli
      rw [← ht.infile] at hbody
      obtain ⟨u, hu⟩ := ih (ht.ready hready) (by omega) hbody
        (by rw [ht.cstack, List.length_cons]; omega)
      rw [← hu.infile] at huntil
      obtain ⟨v, hv⟩ := (hu.ready (ht.ready hready)).dountil (hu.cstack.trans ht.cstack) huntil
      subst hlabeli
      exact ⟨v, ((ht.trans hu).trans hv).of_eq (by simp [Body.code]) (by simp [Body.labels])⟩
  | @beginAgain l body a _ ih =>
      rw [Body.depth] at hdepth
      obtain ⟨first, hbegin, hbody⟩ := hreads.cons
      obtain ⟨last, hbody, hagain⟩ := hbody.append
      obtain ⟨t, ht⟩ := compiled_dobegin beyond (by omega) hbegin
      have htlabeli := ht.labeli
      rw [← ht.infile] at hbody
      obtain ⟨u, hu⟩ := ih (ht.ready hready) (by omega) hbody
        (by rw [ht.cstack, List.length_cons]; omega)
      rw [← hu.infile] at hagain
      obtain ⟨v, hv⟩ := (hu.ready (ht.ready hready)).doagain (hu.cstack.trans ht.cstack) hagain
      subst hlabeli
      exact ⟨v, ((ht.trans hu).trans hv).of_eq (by simp [Body.code]) (by simp [Body.labels])⟩
  | @beginWhile l condition body a b _ _ ihcondition ihbody =>
      rw [Body.depth] at hdepth
      obtain ⟨first, hbegin, hcondition⟩ := hreads.cons
      obtain ⟨second, hcondition, hwhile⟩ := hcondition.append
      obtain ⟨third, hwhile, hbody⟩ := hwhile.cons
      obtain ⟨last, hbody, hrepeat⟩ := hbody.append
      obtain ⟨t, ht⟩ := compiled_dobegin beyond (by omega) hbegin
      have htlabeli := ht.labeli
      rw [← ht.infile] at hcondition
      obtain ⟨u, hu⟩ := ihcondition (ht.ready hready) (by omega) hcondition
        (by rw [ht.cstack, List.length_cons]; omega)
      have hulabeli := hu.labeli
      have huready := hu.ready (ht.ready hready)
      rw [← hu.infile] at hwhile
      obtain ⟨v, hv⟩ := huready.dowhile (hu.cstack.trans ht.cstack) (by omega) hwhile
      have hvlabeli := hv.labeli
      rw [← hv.infile] at hbody
      obtain ⟨w, hw⟩ := ihbody (hv.ready huready) (by omega) hbody
        (by rw [hv.cstack, List.length_cons, List.length_cons]; omega)
      rw [← hw.infile] at hrepeat
      obtain ⟨x, hx⟩ := (hw.ready (hv.ready huready)).dorepeat
        (hw.cstack.trans hv.cstack) hrepeat
      subst hlabeli
      refine ⟨x, ((((ht.trans hu).trans hv).trans hw).trans hx).of_eq ?_ ?_⟩
      · simp [Body.code, hulabeli, htlabeli]
      · simp [Body.labels, Nat.add_assoc]
  | @forNext l body a _ ih =>
      rw [Body.depth] at hdepth
      obtain ⟨first, hfor, hbody⟩ := hreads.cons
      obtain ⟨last, hbody, hnext⟩ := hbody.append
      obtain ⟨t, ht⟩ := hready.dodofor (by omega) hfor
      have htlabeli := ht.labeli
      rw [← ht.infile] at hbody
      obtain ⟨u, hu⟩ := ih (ht.ready hready) (by omega) hbody
        (by rw [ht.cstack, List.length_cons, List.length_cons]; omega)
      rw [← hu.infile] at hnext
      obtain ⟨v, hv⟩ := (hu.ready (ht.ready hready)).donext (hu.cstack.trans ht.cstack) hnext
      subst hlabeli
      exact ⟨v, ((ht.trans hu).trans hv).of_eq (by simp [Body.code]) (by simp [Body.labels])⟩

end Fip.Bfc
