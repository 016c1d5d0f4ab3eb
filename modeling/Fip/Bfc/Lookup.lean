import Fip.Bfc.Correct
import Mathlib.Algebra.GroupWithZero.Nat
import Mathlib.Data.List.GetD

/-!
# The search for an entry

The search for a word starts at the next label, which definitions and control words
both take, and not at the next entry.  Entries that are not made yet have no name, so
nothing is lost until there are more labels than entries in the dictionary.
-/

namespace Fip.Bfc

/-- The entries that a word makes. -/
def definitions (w : String) : ℕ :=
  if w ∈ ["p:", ":", "var"] then 1 else 0

/-- The labels that a control word takes. -/
def controlLabels (w : String) : ℕ :=
  if w ∈ ["if", "begin", "while", "else"] then 1 else if w = "for" then 2 else 0

namespace State

/-- As many entries and labels are added; each entry takes a label, too. -/
def Adds (s t : State) (entries labels : ℕ) : Prop :=
  t.dict.length = s.dict.length + entries ∧ t.labeli = s.labeli + entries + labels

section

variable {s t : State}

@[grind =]
theorem fprintf_dict (items : List Item) : (s.fprintf items).dict = s.dict := rfl

@[grind →]
theorem compEntry_dict {e : Option ℕ} (hdo : s.compEntry e = some t) : t.dict = s.dict := by
  rcases e with _ | ref
  · cases hdo
  · cases hdo
    rfl

@[grind →]
theorem pushCntl_dict {i : ℕ} (hdo : s.pushCntl i = some t) : t.dict = s.dict := by
  rw [pushCntl] at hdo
  grind

@[grind →]
theorem pullCntl_dict {i : ℕ} (hdo : s.pullCntl = some (i, t)) : t.dict = s.dict := by
  rw [pullCntl] at hdo
  grind

@[grind →]
theorem pushNumber_dict {i : Int} (hdo : s.pushNumber i = some t) : t.dict = s.dict := by
  rw [pushNumber] at hdo
  grind

@[grind →]
theorem pullNumber_dict {i : Int} (hdo : s.pullNumber = some (i, t)) : t.dict = s.dict := by
  rw [pullNumber] at hdo
  grind

@[grind →]
theorem word_dict {found : Bool} (hdo : s.word = some (found, t)) : t.dict = s.dict := by
  rw [word] at hdo
  grind

@[grind →]
theorem wordbStr_dict {d : Char} (hdo : s.wordbStr = some (d, t)) : t.dict = s.dict := by
  rw [wordbStr] at hdo
  grind

theorem doasmLoop_dict (fuel : ℕ) (s : State) : (doasmLoop fuel s).dict = s.dict := by
  induction fuel generalizing s with
  | zero => rfl
  | succ fuel ih =>
      rw [doasmLoop]
      split
      · rfl
      · dsimp only
        split
        · rfl
        · exact ih _

theorem doasm_adds (s : State) : Adds s s.doasm 0 0 := by
  obtain ⟨_, hlabeli⟩ := doasmLoop_same (s.infile.length + 1) s
  exact ⟨congrArg List.length (doasmLoop_dict _ s), hlabeli⟩

theorem mkentry_adds (hdo : s.mkentry = some t) : Adds s t 1 0 := by
  rw [mkentry] at hdo
  grind [Adds]

theorem doprim_adds (hdo : s.doprim = some t) : Adds s t 1 0 := by
  simp only [doprim, Option.bind_eq_bind, Option.bind_eq_some_iff] at hdo
  obtain ⟨⟨_, u⟩, hword, v, hentry, hlast⟩ := hdo
  have hadds := mkentry_adds hentry
  have hasm := doasm_adds v
  grind [Adds, Same]

theorem docolon_adds (hdo : s.docolon = some t) : Adds s t 1 0 := by
  simp only [docolon, Option.bind_eq_bind, Option.bind_eq_some_iff] at hdo
  obtain ⟨⟨_, u⟩, hword, v, hentry, hlast⟩ := hdo
  have hadds := mkentry_adds hentry
  grind [Adds, Same]

theorem dodovar_adds (hdo : s.dodovar = some t) : Adds s t 1 0 := by
  simp only [dodovar, Option.bind_eq_bind, Option.bind_eq_some_iff] at hdo
  obtain ⟨⟨_, u⟩, hword, v, hentry, hlast⟩ := hdo
  have hadds := mkentry_adds hentry
  grind [Adds, Same]

theorem doif_adds (hdo : s.doif = some t) : Adds s t 0 1 := by
  simp only [doif, Option.bind_eq_bind, Option.bind_eq_some_iff] at hdo
  grind [Adds, Same]

theorem dodofor_adds (hdo : s.dodofor = some t) : Adds s t 0 2 := by
  simp only [dodofor, Option.bind_eq_bind, Option.bind_eq_some_iff] at hdo
  grind [Adds, Same]

@[grind →]
theorem dothen_adds (hdo : s.dothen = some t) : Adds s t 0 0 := by
  simp only [dothen, Option.bind_eq_bind, Option.bind_eq_some_iff] at hdo
  grind [Adds, Same]

theorem dobegin_adds (hdo : s.dobegin = some t) : Adds s t 0 1 := by
  rw [dobegin] at hdo
  grind [Adds, Same]

@[grind →]
theorem doagain_adds (hdo : s.doagain = some t) : Adds s t 0 0 := by
  simp only [doagain, Option.bind_eq_bind, Option.bind_eq_some_iff] at hdo
  grind [Adds, Same]

theorem donext_adds (hdo : s.donext = some t) : Adds s t 0 0 := by
  simp only [donext, Option.bind_eq_bind, Option.bind_eq_some_iff] at hdo
  grind [Adds]

theorem dountil_adds (hdo : s.dountil = some t) : Adds s t 0 0 := by
  simp only [dountil, Option.bind_eq_bind, Option.bind_eq_some_iff] at hdo
  grind [Adds, Same]

theorem dowhile_adds (hdo : s.dowhile = some t) : Adds s t 0 1 := by
  simp only [dowhile, Option.bind_eq_bind, Option.bind_eq_some_iff] at hdo
  grind [Adds, Same]

theorem dorepeat_adds (hdo : s.dorepeat = some t) : Adds s t 0 0 := by
  simp only [dorepeat, Option.bind_eq_bind, Option.bind_eq_some_iff] at hdo
  grind [Adds, Same]

theorem doelse_adds (hdo : s.doelse = some t) : Adds s t 0 1 := by
  simp only [doelse, Option.bind_eq_bind, Option.bind_eq_some_iff] at hdo
  grind [Adds, Same]

theorem dostring_adds (hdo : s.dostring = some t) : Adds s t 0 0 := by
  simp only [dostring, Option.bind_eq_bind, Option.bind_eq_some_iff] at hdo
  grind [Adds, Same]

theorem docstring_adds (hdo : s.docstring = some t) : Adds s t 0 0 := by
  simp only [docstring, Option.bind_eq_bind, Option.bind_eq_some_iff] at hdo
  grind [Adds, Same]

theorem doallot_adds (hdo : s.doallot = some t) : Adds s t 0 0 := by
  simp only [doallot, Option.bind_eq_bind, Option.bind_eq_some_iff] at hdo
  grind [Adds, Same]

/-- The flags of the last entry change, and there is one. -/
theorem doimm_adds (hdo : s.doimm = some t) : Adds s t 0 0 := by
  simp only [doimm, Option.bind_eq_bind, Option.bind_eq_some_iff] at hdo
  obtain ⟨e, hlast, hdo⟩ := hdo
  cases hdo
  have hne : s.dict ≠ [] := by
    rintro hnil
    rw [hnil] at hlast
    cases hlast
  refine ⟨?_, rfl⟩
  rw [List.length_append, List.length_dropLast]
  exact Nat.sub_add_cancel (List.length_pos_iff.mpr hne)

theorem compile_adds {beyond : ℕ → Entry} (hdo : s.compile beyond = some t) :
    Adds s t 0 0 := by
  simp only [compile, Option.bind_eq_bind] at hdo
  split at hdo
  · grind [Adds, Same]
  · split at hdo
    · cases hdo
    · split at hdo
      · rw [Option.bind_eq_some_iff] at hdo
        grind [Adds, Same]
      · grind [Adds, Same]

/-- What a word adds. -/
theorem process_adds {beyond : ℕ → Entry} (hprocess : s.process beyond = some t) :
    Adds s t (definitions s.wordb) (controlLabels s.wordb) := by
  have hcase : ∀ {w : String} {yes no : Option State},
      (yes = some t → Adds s t (definitions w) (controlLabels w)) →
      (s.wordb ≠ w → no = some t → Adds s t (definitions s.wordb) (controlLabels s.wordb)) →
      (if s.wordb = w then yes else no) = some t →
      Adds s t (definitions s.wordb) (controlLabels s.wordb) := by
    intro w yes no hyes hno hdo
    split at hdo
    · next hw =>
        rw [hw]
        exact hyes hdo
    · next hw => exact hno hw hdo
  have hunchanged : ∀ {u : State}, u.dict = s.dict → u.labeli = s.labeli → some u = some t →
      Adds s t 0 0 := by
    intro u hdict hlabeli hu
    cases hu
    exact ⟨congrArg List.length hdict, hlabeli⟩
  revert hprocess
  rw [process]
  refine hcase doprim_adds fun hprim => ?_
  refine hcase (fun hdo => ?_) fun _ => ?_
  · cases hdo
    exact doasm_adds s
  refine hcase docolon_adds fun hcolon => ?_
  refine hcase (hunchanged rfl rfl) fun _ => ?_
  refine hcase doif_adds fun hif => ?_
  refine hcase dothen_adds fun _ => ?_
  refine hcase dobegin_adds fun hbegin => ?_
  refine hcase doagain_adds fun _ => ?_
  refine hcase dountil_adds fun _ => ?_
  refine hcase dowhile_adds fun hwhile => ?_
  refine hcase dorepeat_adds fun _ => ?_
  refine hcase doelse_adds fun helse => ?_
  refine hcase dostring_adds fun _ => ?_
  refine hcase docstring_adds fun _ => ?_
  refine hcase dodovar_adds fun hvar => ?_
  refine hcase (hunchanged rfl rfl) fun _ => ?_
  refine hcase doallot_adds fun _ => ?_
  refine hcase dodofor_adds fun hfor => ?_
  refine hcase donext_adds fun _ => ?_
  refine hcase doimm_adds fun _ => ?_
  refine hcase (hunchanged rfl rfl) fun _ => ?_
  intro hdo
  have hdefinitions : definitions s.wordb = 0 :=
    if_neg (by simp only [List.mem_cons, List.not_mem_nil, hprim, hcolon, hvar, or_self,
      not_false_eq_true])
  have hlabels : controlLabels s.wordb = 0 := by
    rw [controlLabels, if_neg, if_neg hfor]
    simp only [List.mem_cons, List.not_mem_nil, hif, hbegin, hwhile, helse, or_self,
      not_false_eq_true]
  rw [hdefinitions, hlabels]
  exact compile_adds hdo

end

end State

/-- The compiler has processed these words of its source. -/
inductive Processed (beyond : ℕ → Entry) (source : List Char) : List String → State → Prop
  | nothing : Processed beyond source [] (.start source)
  | word {words : List String} {s u t : State} : Processed beyond source words s →
      s.word = some (true, u) → u.process beyond = some t →
      Processed beyond source (words ++ [u.wordb]) t

/-- The definitions in some words, and the labels of the definitions and the control
words. -/
def entriesOf (words : List String) : ℕ :=
  (words.map definitions).sum

def labelsOf (words : List String) : ℕ :=
  entriesOf words + (words.map controlLabels).sum

section

variable {beyond : ℕ → Entry} {source : List Char} {words : List String} {s : State}

theorem Processed.reaches (hprocessed : Processed beyond source words s) :
    Machine.Reaches (State.processFile beyond) (.start source) s := by
  induction hprocessed with
  | nothing => exact .refl
  | word _ hword hprocess ih =>
      refine ih.tail ?_
      rw [State.processFile, hword]
      dsimp only
      rw [hprocess]
      rfl

/-- All that the compiler gets to, it gets to by processing words. -/
theorem exists_processed
    (hreaches : Machine.Reaches (State.processFile beyond) (.start source) s) :
    ∃ words, Processed beyond source words s := by
  induction hreaches with
  | refl => exact ⟨[], .nothing⟩
  | tail _ hstep ih =>
      obtain ⟨words, hwords⟩ := ih
      rw [State.processFile] at hstep
      split at hstep
      · cases hstep
      · cases hstep
      · next u hword =>
          rcases hprocess : u.process beyond with _ | v
          · rw [hprocess] at hstep
            cases hstep
          · rw [hprocess] at hstep
            cases hstep
            exact ⟨_, hwords.word hword hprocess⟩

/-- The two counters. -/
theorem Processed.counters (hprocessed : Processed beyond source words s) :
    s.dict.length = entriesOf words ∧ s.labeli = labelsOf words := by
  induction hprocessed with
  | nothing => exact ⟨rfl, rfl⟩
  | @word words s u t _ hword hprocess ih =>
      obtain ⟨hentries, hlabels⟩ := State.process_adds hprocess
      have hdict := State.word_dict hword
      obtain ⟨_, hlabeli⟩ := State.word_same hword
      rw [hdict, ih.1] at hentries
      rw [hlabeli, ih.2] at hlabels
      have hentriesOf : entriesOf (words ++ [u.wordb]) =
          entriesOf words + definitions u.wordb := by
        rw [entriesOf, List.map_append, List.sum_append, List.map_singleton,
          List.sum_singleton]
        rfl
      refine ⟨hentries.trans hentriesOf.symm, ?_⟩
      rw [hlabels, labelsOf, labelsOf, hentriesOf, List.map_append, List.sum_append,
        List.map_singleton, List.sum_singleton]
      omega

end

namespace State

section

variable {beyond : ℕ → Entry} {s : State} {name : String} {l : ℕ}

/-- The indices of the entries that `findentryFrom` looks at. -/
def examined (beyond : ℕ → Entry) (s : State) (name : String) : ℕ → List ℕ
  | 0 => []
  | i + 1 =>
      i :: if (s.entryAt beyond i).cname = name then [] else examined beyond s name i

/-- The last entry with a name. -/
def latest (s : State) (name : String) : Option Entry :=
  s.dict.reverse.find? fun e => e.name = name

/-- The names that can be stored with the byte that ends them. -/
def ShortNames (s : State) : Prop :=
  ∀ e ∈ s.dict, e.name.length ≤ 31

theorem lt_of_mem_examined {i : ℕ} (hi : i ∈ s.examined beyond name l) : i < l := by
  induction l with
  | zero => cases hi
  | succ l ih =>
      rw [examined] at hi
      rcases List.mem_cons.mp hi with rfl | hi
      · exact Nat.lt_succ_self i
      · split at hi
        · cases hi
        · exact Nat.lt_succ_of_lt (ih hi)

theorem cname_eq {e : Entry} (hshort : e.name.length ≤ 31) : e.cname = e.name :=
  if_pos (.inl (Nat.lt_succ_of_le hshort))

/-- Entries that are not made yet do not stop the search. -/
theorem findentryFrom_eq_find? (hshort : s.ShortNames) (hname : name ≠ "") (hl : l ≤ 256) :
    s.findentryFrom beyond name l =
      (s.dict.take l).reverse.find? fun e => e.name = name := by
  induction l with
  | zero => rfl
  | succ l ih =>
      rw [findentryFrom, entryAt, if_pos (Nat.lt_of_succ_le hl), ih (Nat.le_of_succ_le hl)]
      rcases Nat.lt_or_ge l s.dict.length with hlt | hle
      · have hentry : s.dict.getD l ⟨"", 0, 0⟩ = s.dict[l] := List.getD_eq_getElem _ _ hlt
        rw [hentry, cname_eq (hshort _ (List.getElem_mem hlt)),
          List.take_succ_eq_append_getElem hlt, List.reverse_concat, List.find?_cons]
        by_cases hfound : s.dict[l].name = name
        · rw [if_pos hfound, decide_eq_true hfound]
        · rw [if_neg hfound, decide_eq_false hfound]
      · have hentry : s.dict.getD l ⟨"", 0, 0⟩ = ⟨"", 0, 0⟩ := List.getD_eq_default _ _ hle
        have hempty : (⟨"", 0, 0⟩ : Entry).cname ≠ name := by
          rw [cname_eq (e := ⟨"", 0, 0⟩) (Nat.zero_le 31)]
          exact Ne.symm hname
        rw [hentry, if_neg hempty, List.take_of_length_le hle,
          List.take_of_length_le (Nat.le_succ_of_le hle)]

theorem findentry_eq_latest (hshort : s.ShortNames) (hname : s.wordb ≠ "")
    (hentries : s.dict.length ≤ s.labeli) (hlabels : s.labeli ≤ 256) :
    s.findentry beyond = s.latest s.wordb := by
  rw [findentry, findentryFrom_eq_find? hshort hname hlabels, List.take_of_length_le hentries]
  rfl

/-- What `word` reads is not empty. -/
theorem wordb_ne_empty {t : State} (hword : s.word = some (true, t)) : t.wordb ≠ "" := by
  rw [word] at hword
  rcases hrest : s.infile.dropWhile isfblank with _ | ⟨c, cs⟩
  · rw [hrest] at hword
    cases hword
  · have hc : isfblank c = false := by
      have hhead := List.head?_dropWhile_not isfblank s.infile
      rw [hrest] at hhead
      exact hhead
    rw [hrest] at hword
    dsimp only at hword
    rw [List.takeWhile_cons_of_pos (by rw [hc]; rfl)] at hword
    split at hword
    · cases hword
      exact fun hempty => List.cons_ne_nil _ _ (String.ofList_injective hempty)
    · cases hword

/-- The search stays in the dictionary and finds the latest definition of the
word. -/
def LooksUp (beyond : ℕ → Entry) (s : State) : Prop :=
  (∀ i ∈ s.examined beyond s.wordb s.labeli, i < 256) ∧
    s.findentry beyond = s.latest s.wordb

end

end State

/-- A word is looked up behind some others. -/
structure Lookup (beyond : ℕ → Entry) (source : List Char) (before : List String)
    (u : State) : Prop where
  word : ∃ s, Processed beyond source before s ∧ s.word = some (true, u)
  own : u.wordb ∉ hostWords

section

variable {beyond : ℕ → Entry} {source : List Char} {before : List String} {u : State}

theorem Lookup.counters (hlookup : Lookup beyond source before u) :
    u.dict.length = entriesOf before ∧ u.labeli = labelsOf before := by
  obtain ⟨s, hprocessed, hword⟩ := hlookup.word
  obtain ⟨_, hlabeli⟩ := State.word_same hword
  rw [State.word_dict hword, hlabeli]
  exact hprocessed.counters

/-- The search is right exactly if it starts in the dictionary. -/
theorem Lookup.looksUp_iff (hlookup : Lookup beyond source before u)
    (hshort : u.ShortNames) : u.LooksUp beyond ↔ labelsOf before ≤ 256 := by
  obtain ⟨hentries, hlabels⟩ := hlookup.counters
  rw [← hlabels]
  constructor
  · rintro ⟨hinside, _⟩
    rcases hl : u.labeli with _ | l
    · exact Nat.zero_le _
    · rw [hl] at hinside
      exact hinside l List.mem_cons_self
  · intro hle
    obtain ⟨s, _, hword⟩ := hlookup.word
    have hmore : u.dict.length ≤ u.labeli := by
      rw [hentries, hlabels]
      exact Nat.le_add_right _ _
    exact ⟨fun i hi => Nat.lt_of_lt_of_le (State.lt_of_mem_examined hi) hle,
      State.findentry_eq_latest hshort (State.wordb_ne_empty hword) hmore hle⟩

end

/-- All the searches in a source are right exactly if none of them comes behind more
than 256 labels, those of the definitions and those of the control words. -/
theorem lookups_iff (beyond : ℕ → Entry) (source : List Char) :
    (∀ before u, Lookup beyond source before u → u.ShortNames → u.LooksUp beyond) ↔
      ∀ before u, Lookup beyond source before u → u.ShortNames → labelsOf before ≤ 256 :=
  forall₄_congr fun _ _ hlookup hshort => hlookup.looksUp_iff hshort

/-- So many empty loops. -/
def loops (n : ℕ) : List Char :=
  (List.replicate n "begin again ".toList).flatten

/-- A word that calls `bra` behind so many loops. -/
def loopsSource (n : ℕ) : List Char :=
  ": bra ; : x ".toList ++ (loops n ++ "bra ;".toList)

section

variable {beyond : ℕ → Entry} {source rest next : List Char} {words : List String} {s : State}

theorem Processed.colon {name : String} (hprocessed : Processed beyond source words s)
    (hcolon : Next s.infile ":" rest) (hname : Next rest name next)
    (hroom : s.dict.length < 256) :
    ∃ t, Processed beyond source (words ++ [":"]) t ∧ t.infile = next ∧
      t.pointers = s.pointers.note name s.labeli ∧ t.cstack = s.cstack ∧
      t.labeli = s.labeli + 1 ∧
      t.dict = s.dict ++ [⟨String.ofList (name.toList.take 32), 0, s.labeli⟩] := by
  obtain ⟨middle, hcolon, rfl⟩ := hcolon
  obtain ⟨last, hname, rfl⟩ := hname
  have hprocess : (s.reading ":" middle).process beyond = some
      { s.reading name last with
        outfile := s.outfile ++ [.label s.labeli]
        labeli := s.labeli + 1
        dict := s.dict ++ [⟨String.ofList (name.toList.take 32), 0, s.labeli⟩]
        pointers := s.pointers.note name s.labeli
        state := true } := by
    have hdocolon : (s.reading ":" middle).process beyond =
        (s.reading ":" middle).docolon := by
      simp [State.process, State.reading]
    have hword : (s.reading ":" middle).word = some (true, s.reading name last) :=
      State.word_of_start hname
    rw [hdocolon, State.docolon, hword]
    dsimp only [Option.bind_eq_bind, Option.bind_some]
    rw [State.mkentry, State.reading, if_pos hroom]
    rfl
  exact ⟨_, hprocessed.word (State.word_of_start hcolon) hprocess, rfl, rfl, rfl, rfl, rfl⟩

theorem Processed.semi (hprocessed : Processed beyond source words s)
    (hsemi : Next s.infile ";" rest) :
    ∃ t, Processed beyond source (words ++ [";"]) t ∧ t.infile = rest ∧
      t.pointers = s.pointers ∧ t.cstack = s.cstack ∧ t.labeli = s.labeli ∧
      t.dict = s.dict := by
  obtain ⟨last, hsemi, rfl⟩ := hsemi
  have hprocess : (s.reading ";" last).process beyond = some
      { (s.reading ";" last).fprintf [.rts] with state := false } := by
    simp [State.process, State.reading, State.dosemi]
  exact ⟨_, hprocessed.word (State.word_of_start hsemi) hprocess, rfl, rfl, rfl, rfl, rfl⟩

/-- Behind `: x`, where `bra` and `x` are defined. -/
theorem processed_definitions (beyond : ℕ → Entry) (rest : List Char) :
    ∃ s, Processed beyond (": bra ; : x ".toList ++ rest) [":", ";", ":"] s ∧
      s.infile = rest ∧ s.pointers.bra = some 0 ∧ s.cstack = [] ∧ s.labeli = 2 ∧
      s.dict = [⟨"bra", 0, 0⟩, ⟨"x", 0, 1⟩] := by
  have hnothing : Processed beyond (": bra ; : x ".toList ++ rest) [] (.start _) := .nothing
  have hbra : Next ("bra ; : x ".toList ++ rest) "bra" ("; : x ".toList ++ rest) :=
    ⟨_, rfl, rfl⟩
  obtain ⟨s, hs, hinfile, hpointers, hcstack, hlabeli, hdict⟩ :=
    hnothing.colon ⟨_, rfl, rfl⟩ hbra (Nat.succ_pos 255)
  have hsemi : Next s.infile ";" (": x ".toList ++ rest) := by
    rw [hinfile]
    exact ⟨_, rfl, rfl⟩
  obtain ⟨t, ht, htinfile, htpointers, htcstack, htlabeli, htdict⟩ := hs.semi hsemi
  have hcolon : Next t.infile ":" ("x ".toList ++ rest) := by
    rw [htinfile]
    exact ⟨_, rfl, rfl⟩
  have hx : Next ("x ".toList ++ rest) "x" rest := ⟨_, rfl, rfl⟩
  have hroom : t.dict.length < 256 := by
    rw [htdict, hdict]
    exact Nat.le_add_left 2 254
  obtain ⟨u, hu, huinfile, hupointers, hucstack, hulabeli, hudict⟩ :=
    ht.colon hcolon hx hroom
  refine ⟨u, hu, huinfile, ?_, ?_, ?_, ?_⟩
  · rw [hupointers, htpointers, hpointers]
    rfl
  · rw [hucstack, htcstack, hcstack]
    rfl
  · rw [hulabeli, htlabeli, hlabeli]
    rfl
  · rw [hudict, htdict, hdict, htlabeli, hlabeli]
    rfl

theorem Processed.loop {ref : ℕ} (hprocessed : Processed beyond source words s)
    (hbra : s.pointers.bra = some ref) (hcstack : s.cstack = [])
    (hinfile : s.infile = "begin again ".toList ++ rest) :
    ∃ more t, Processed beyond source more t ∧ t.pointers = s.pointers ∧ t.cstack = [] ∧
      t.infile = rest ∧ t.labeli = s.labeli + 1 ∧ t.dict = s.dict := by
  have hbegin : s.word = some (true, s.reading "begin" ("again ".toList ++ rest)) := by
    rw [State.word, hinfile]
    rfl
  have hfirst : (s.reading "begin" ("again ".toList ++ rest)).process beyond = some
      { s.reading "begin" ("again ".toList ++ rest) with
        outfile := s.outfile ++ [.label s.labeli]
        labeli := s.labeli + 1
        cstack := [s.labeli] } := by
    simp [State.process, State.reading, State.dobegin, State.pushCntl, State.fprintf, hcstack]
  have hopened := hprocessed.word hbegin hfirst
  have hsecond : ({ s.reading "again" rest with
      outfile := s.outfile ++ [.label s.labeli]
      labeli := s.labeli + 1
      cstack := [s.labeli] } : State).process beyond = some
      { s.reading "again" rest with
        outfile := s.outfile ++ [.label s.labeli] ++ [.jsr ref, .dwLabel s.labeli]
        labeli := s.labeli + 1
        cstack := [] } := by
    simp [State.process, State.reading, State.doagain, State.compEntry, State.pullCntl,
      State.fprintf, hbra]
  exact ⟨_, _, hopened.word rfl hsecond, rfl, rfl, rfl, rfl, rfl⟩

theorem Processed.loops {ref n : ℕ} (hprocessed : Processed beyond source words s)
    (hbra : s.pointers.bra = some ref) (hcstack : s.cstack = [])
    (hinfile : s.infile = Bfc.loops n ++ rest) :
    ∃ more t, Processed beyond source more t ∧ t.infile = rest ∧ t.labeli = s.labeli + n ∧
      t.dict = s.dict := by
  induction n generalizing words s with
  | zero => exact ⟨words, s, hprocessed, hinfile, rfl, rfl⟩
  | succ n ih =>
      rw [Bfc.loops, List.replicate_succ, List.flatten_cons, List.append_assoc] at hinfile
      obtain ⟨more, t, ht, hpointers, htcstack, htinfile, htlabeli, htdict⟩ :=
        hprocessed.loop hbra hcstack hinfile
      rw [← hpointers] at hbra
      obtain ⟨last, u, hu, huinfile, hulabeli, hudict⟩ := ih ht hbra htcstack htinfile
      refine ⟨last, u, hu, huinfile, ?_, hudict.trans htdict⟩
      rw [hulabeli, htlabeli, Nat.add_assoc, Nat.add_comm 1]

end

/-- Two definitions and 255 loops are one label too much. -/
theorem not_looksUp_loops :
    ∃ before u, Lookup noEntry (loopsSource 255) before u ∧ u.dict.length = 2 ∧
      u.ShortNames ∧ ¬ u.LooksUp noEntry := by
  obtain ⟨s, hprocessed, hinfile, hbra, hcstack, hlabeli, hdict⟩ :=
    processed_definitions noEntry (loops 255 ++ "bra ;".toList)
  obtain ⟨before, t, ht, htinfile, htlabeli, htdict⟩ := hprocessed.loops hbra hcstack hinfile
  have hword : t.word = some (true, t.reading "bra" [';']) := by
    rw [State.word, htinfile]
    rfl
  rw [hdict] at htdict
  refine ⟨before, t.reading "bra" [';'], ⟨⟨t, ht, hword⟩, ?_⟩, ?_, ?_, ?_⟩
  · change "bra" ∉ hostWords
    decide
  · exact congrArg List.length htdict
  · intro e he
    rw [State.reading, htdict] at he
    revert e
    decide
  · rintro ⟨hinside, _⟩
    rw [State.reading, htlabeli, hlabeli] at hinside
    exact absurd (hinside 256 List.mem_cons_self) (Nat.lt_irrefl 256)

end Fip.Bfc
