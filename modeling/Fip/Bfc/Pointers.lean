import Fip.Bfc.Compile
import Fip.Bfc.Execution
import Mathlib.Tactic.SplitIfs

/-!
# The words the compiler needs

Each definition takes a label of its own, so the entries that the pointers lead
to have different labels.
-/

namespace Fip.Bfc

/-- The pointer for a name. -/
def Pointers.named (pointers : Pointers) (name : String) : Option ℕ :=
  if name = "lit" then pointers.lit
  else if name = "0bra" then pointers.zbra
  else if name = "bra" then pointers.bra
  else if name = "slit" then pointers.slit
  else if name = "dodoes" then pointers.dodoes
  else if name = "noop" then pointers.noop
  else if name = "dofor" then pointers.dofor
  else if name = "push" then pointers.push
  else none

theorem Pointers.named_note {pointers : Pointers} {defined name : String} {labeli ref : ℕ}
    (hnamed : (pointers.note defined labeli).named name = some ref) :
    (name = defined ∧ ref = labeli) ∨ pointers.named name = some ref := by
  rw [note] at hnamed
  split_ifs at hnamed
  all_goals
    rw [named] at hnamed ⊢
    grind

/-- Different names lead to different labels, and all the labels are taken. -/
structure Pointers.Apart (pointers : Pointers) (labeli : ℕ) : Prop where
  below : ∀ name ref, pointers.named name = some ref → ref < labeli
  apart : ∀ name other ref, pointers.named name = some ref →
    pointers.named other = some ref → name = other

theorem Pointers.Apart.mono {pointers : Pointers} {labeli more : ℕ}
    (hapart : pointers.Apart labeli) (hle : labeli ≤ more) : pointers.Apart more :=
  ⟨fun name ref href => Nat.lt_of_lt_of_le (hapart.below name ref href) hle, hapart.apart⟩

theorem Pointers.Apart.note {pointers : Pointers} {labeli : ℕ}
    (hapart : pointers.Apart labeli) (defined : String) :
    (pointers.note defined labeli).Apart (labeli + 1) := by
  constructor
  · intro name ref hnamed
    rcases named_note hnamed with ⟨_, rfl⟩ | hold
    · exact Nat.lt_succ_self ref
    · exact Nat.lt_succ_of_lt (hapart.below name ref hold)
  · intro name other ref hname hother
    rcases named_note hname with ⟨rfl, rfl⟩ | hold
    · rcases named_note hother with ⟨rfl, _⟩ | hold
      · rfl
      · exact absurd (hapart.below _ _ hold) (Nat.lt_irrefl _)
    · rcases named_note hother with ⟨_, rfl⟩ | hold'
      · exact absurd (hapart.below _ _ hold) (Nat.lt_irrefl _)
      · exact hapart.apart name other ref hold hold'

namespace State

/-- What a word does to the pointers and the labels: it defines nothing, or one
entry with the next label. -/
def Steps (s t : State) : Prop :=
  (t.pointers = s.pointers ∧ s.labeli ≤ t.labeli) ∨
    ∃ name, t.pointers = s.pointers.note name s.labeli ∧ s.labeli + 1 ≤ t.labeli

section

variable {s t : State}

theorem Steps.apart (hsteps : Steps s t) (hapart : s.pointers.Apart s.labeli) :
    t.pointers.Apart t.labeli := by
  rcases hsteps with ⟨hpointers, hle⟩ | ⟨name, hpointers, hle⟩
  · rw [hpointers]
    exact hapart.mono hle
  · rw [hpointers]
    exact (hapart.note name).mono hle

/-- Pointers and labels are those of `s`. -/
def Same (s t : State) : Prop :=
  t.pointers = s.pointers ∧ t.labeli = s.labeli

@[grind =]
theorem fprintf_pointers (items : List Item) : (s.fprintf items).pointers = s.pointers := rfl

@[grind =]
theorem fprintf_labeli (items : List Item) : (s.fprintf items).labeli = s.labeli := rfl

@[grind →]
theorem compEntry_same {e : Option ℕ} (hdo : s.compEntry e = some t) : Same s t := by
  rcases e with _ | ref
  · cases hdo
  · cases hdo
    exact ⟨rfl, rfl⟩

@[grind →]
theorem pushCntl_same {i : ℕ} (hdo : s.pushCntl i = some t) : Same s t := by
  rw [pushCntl] at hdo
  grind [Same]

@[grind →]
theorem pullCntl_same {i : ℕ} (hdo : s.pullCntl = some (i, t)) : Same s t := by
  rw [pullCntl] at hdo
  grind [Same]

@[grind →]
theorem pushNumber_same {i : Int} (hdo : s.pushNumber i = some t) : Same s t := by
  rw [pushNumber] at hdo
  grind [Same]

@[grind →]
theorem pullNumber_same {i : Int} (hdo : s.pullNumber = some (i, t)) : Same s t := by
  rw [pullNumber] at hdo
  grind [Same]

@[grind →]
theorem word_same {found : Bool} (hdo : s.word = some (found, t)) : Same s t := by
  rw [word] at hdo
  grind [Same]

@[grind →]
theorem wordbStr_same {d : Char} (hdo : s.wordbStr = some (d, t)) : Same s t := by
  rw [wordbStr] at hdo
  grind [Same]

theorem doasmLoop_same (fuel : ℕ) (s : State) : Same s (doasmLoop fuel s) := by
  induction fuel generalizing s with
  | zero => exact ⟨rfl, rfl⟩
  | succ fuel ih =>
      rw [doasmLoop]
      split
      · exact ⟨rfl, rfl⟩
      · dsimp only
        split
        · exact ⟨rfl, rfl⟩
        · exact ih _

theorem mkentry_steps (hdo : s.mkentry = some t) :
    t.pointers = s.pointers.note s.wordb s.labeli ∧ t.labeli = s.labeli + 1 := by
  rw [mkentry] at hdo
  grind

/-- The words that define something. -/
theorem defining_steps (hdo : s.doprim = some t ∨ s.docolon = some t ∨ s.dodovar = some t) :
    Steps s t := by
  right
  rcases hdo with hdo | hdo | hdo
  · simp only [doprim, Option.bind_eq_bind, Option.bind_eq_some_iff] at hdo
    obtain ⟨⟨_, u⟩, hword, v, hentry, hasm⟩ := hdo
    have hpointers := mkentry_steps hentry
    have hlast := doasmLoop_same (v.infile.length + 1) v
    rw [doasm] at hasm
    refine ⟨u.wordb, ?_⟩
    grind [Same]
  · simp only [docolon, Option.bind_eq_bind, Option.bind_eq_some_iff] at hdo
    obtain ⟨⟨_, u⟩, hword, v, hentry, hlast⟩ := hdo
    have hpointers := mkentry_steps hentry
    refine ⟨u.wordb, ?_⟩
    grind [Same]
  · simp only [dodovar, Option.bind_eq_bind, Option.bind_eq_some_iff] at hdo
    obtain ⟨⟨_, u⟩, hword, v, hentry, x, hcomp, noop, hnoop, ⟨i, y⟩, hpull, hlast⟩ := hdo
    have hpointers := mkentry_steps hentry
    refine ⟨u.wordb, ?_⟩
    grind [Same]

@[grind →]
theorem doagain_same (hdo : s.doagain = some t) : Same s t := by
  simp only [doagain, Option.bind_eq_bind, Option.bind_eq_some_iff] at hdo
  grind [Same]

/-- The control words. -/
theorem control_steps
    (hdo : s.dosemi = some t ∨ s.doif = some t ∨ s.dothen = some t ∨ s.dobegin = some t ∨
      s.doagain = some t ∨ s.dountil = some t ∨ s.dowhile = some t ∨ s.dorepeat = some t ∨
      s.doelse = some t ∨ s.dodofor = some t ∨ s.donext = some t) : Steps s t := by
  left
  rcases hdo with hdo | hdo | hdo | hdo | hdo | hdo | hdo | hdo | hdo | hdo | hdo
  · cases hdo
    exact ⟨rfl, Nat.le_refl _⟩
  · simp only [doif, Option.bind_eq_bind, Option.bind_eq_some_iff] at hdo
    grind [Same]
  · simp only [dothen, Option.bind_eq_bind, Option.bind_eq_some_iff] at hdo
    grind [Same]
  · rw [dobegin] at hdo
    grind [Same]
  · have hsame := doagain_same hdo
    exact ⟨hsame.1, Nat.le_of_eq hsame.2.symm⟩
  · simp only [dountil, Option.bind_eq_bind, Option.bind_eq_some_iff] at hdo
    grind [Same]
  · simp only [dowhile, Option.bind_eq_bind, Option.bind_eq_some_iff] at hdo
    grind [Same]
  · simp only [dorepeat, Option.bind_eq_bind, Option.bind_eq_some_iff] at hdo
    grind [Same]
  · simp only [doelse, Option.bind_eq_bind, Option.bind_eq_some_iff] at hdo
    grind [Same]
  · simp only [dodofor, Option.bind_eq_bind, Option.bind_eq_some_iff] at hdo
    grind [Same]
  · simp only [donext, dothen, Option.bind_eq_bind, Option.bind_eq_some_iff] at hdo
    grind [Same]

/-- The other words. -/
theorem other_steps {beyond : ℕ → Entry}
    (hdo : some s.doasm = some t ∨ s.dostring = some t ∨ s.docstring = some t ∨
      s.dorbrack = some t ∨ s.doallot = some t ∨ s.doimm = some t ∨ s.dolcom = some t ∨
      s.compile beyond = some t) : Steps s t := by
  left
  rcases hdo with hdo | hdo | hdo | hdo | hdo | hdo | hdo | hdo
  · cases hdo
    have hsame := doasmLoop_same (s.infile.length + 1) s
    exact ⟨hsame.1, Nat.le_of_eq hsame.2.symm⟩
  · simp only [dostring, Option.bind_eq_bind, Option.bind_eq_some_iff] at hdo
    grind [Same]
  · simp only [docstring, Option.bind_eq_bind, Option.bind_eq_some_iff] at hdo
    grind [Same]
  · cases hdo
    exact ⟨rfl, Nat.le_refl _⟩
  · simp only [doallot, Option.bind_eq_bind, Option.bind_eq_some_iff] at hdo
    grind [Same]
  · simp only [doimm, Option.bind_eq_bind, Option.bind_eq_some_iff] at hdo
    grind [Same]
  · cases hdo
    exact ⟨rfl, Nat.le_refl _⟩
  · simp only [compile, Option.bind_eq_bind] at hdo
    split at hdo
    · grind [Same]
    · split at hdo
      · cases hdo
      · split at hdo
        · rw [Option.bind_eq_some_iff] at hdo
          grind [Same]
        · grind [Same]

theorem process_steps {beyond : ℕ → Entry} (hprocess : s.process beyond = some t) :
    Steps s t := by
  have hcase : ∀ {c : Prop} [Decidable c] {yes no : Option State},
      (yes = some t → Steps s t) → (no = some t → Steps s t) →
      (if c then yes else no) = some t → Steps s t := by
    intro c _ yes no hyes hno hdo
    split at hdo
    · exact hyes hdo
    · exact hno hdo
  have hother := @other_steps s t beyond
  revert hprocess
  rw [process]
  refine hcase (fun h => defining_steps (by grind)) ?_
  refine hcase (fun h => hother (by grind)) ?_
  refine hcase (fun h => defining_steps (by grind)) ?_
  refine hcase (fun h => control_steps (by grind)) ?_
  refine hcase (fun h => control_steps (by grind)) ?_
  refine hcase (fun h => control_steps (by grind)) ?_
  refine hcase (fun h => control_steps (by grind)) ?_
  refine hcase (fun h => control_steps (by grind)) ?_
  refine hcase (fun h => control_steps (by grind)) ?_
  refine hcase (fun h => control_steps (by grind)) ?_
  refine hcase (fun h => control_steps (by grind)) ?_
  refine hcase (fun h => control_steps (by grind)) ?_
  refine hcase (fun h => hother (by grind)) ?_
  refine hcase (fun h => hother (by grind)) ?_
  refine hcase (fun h => defining_steps (by grind)) ?_
  refine hcase (fun h => hother (by grind)) ?_
  refine hcase (fun h => hother (by grind)) ?_
  refine hcase (fun h => control_steps (by grind)) ?_
  refine hcase (fun h => control_steps (by grind)) ?_
  refine hcase (fun h => hother (by grind)) ?_
  refine hcase (fun h => hother (by grind)) ?_
  exact fun h => hother (by grind)

end

end State

/-- Whatever the compiler has read, the words it needs have labels of their
own. -/
theorem apart_of_reaches {beyond : ℕ → Entry} {source : List Char} {s : State}
    (hreaches : Machine.Reaches (State.processFile beyond) (.start source) s) :
    s.pointers.Apart s.labeli := by
  induction hreaches with
  | refl =>
      have hnone : ∀ name, (State.start source).pointers.named name = none := by
        intro name
        simp only [State.start, Pointers.named, ite_self]
      constructor
      · intro name ref hnamed
        rw [hnone] at hnamed
        cases hnamed
      · intro name other ref hnamed
        rw [hnone] at hnamed
        cases hnamed
  | tail _ hstep ih =>
      rw [State.processFile] at hstep
      split at hstep
      · cases hstep
      · cases hstep
      · next u hword =>
          obtain ⟨hpointers, hlabeli⟩ := State.word_same hword
          rw [← hpointers, ← hlabeli] at ih
          rcases hprocess : u.process beyond with _ | v
          · rw [hprocess] at hstep
            cases hstep
          · rw [hprocess] at hstep
            cases hstep
            exact (State.process_steps hprocess).apart ih

theorem Pointers.Defined.distinct {pointers : Pointers} {refs : Refs} {labeli : ℕ}
    (hdefined : pointers.Defined refs) (hapart : pointers.Apart labeli) : refs.Distinct := by
  have hlit : pointers.named "lit" = some refs.lit := hdefined.lit
  have hzbra : pointers.named "0bra" = some refs.zbra := hdefined.zbra
  have hbra : pointers.named "bra" = some refs.bra := hdefined.bra
  have hdofor : pointers.named "dofor" = some refs.dofor := hdefined.dofor
  have hpush : pointers.named "push" = some refs.push := hdefined.push
  have hapart' : ∀ {name other ref ref'}, pointers.named name = some ref →
      pointers.named other = some ref' → name ≠ other → ref ≠ ref' := by
    rintro name other ref _ hname hother hne rfl
    exact hne (hapart.apart name other ref hname hother)
  simp only [Refs.Distinct, List.nodup_cons, List.mem_cons, List.not_mem_nil, or_false,
    not_or, List.nodup_nil, not_false_eq_true, and_true]
  exact ⟨⟨hapart' hlit hzbra (by decide), hapart' hlit hbra (by decide),
    hapart' hlit hdofor (by decide), hapart' hlit hpush (by decide)⟩,
    ⟨hapart' hzbra hbra (by decide), hapart' hzbra hdofor (by decide),
      hapart' hzbra hpush (by decide)⟩,
    ⟨hapart' hbra hdofor (by decide), hapart' hbra hpush (by decide)⟩,
    hapart' hdofor hpush (by decide)⟩

end Fip.Bfc
