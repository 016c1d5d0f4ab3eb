import Fip.Bfc.Threaded

/-!
# Colon bodies

The structure of a colon body, the words that spell it and the code it stands
for; and its structured reading, in which `n for B next` runs `B` n times.  In
the reading that the primitive `dofor` gives, the counter is what `B` leaves on
the return stack.  The two agree where `B` leaves the counter as it is.
-/

namespace Fip.Bfc

/-- A colon body; a call is that of the word with this label. -/
inductive Body where
  | empty
  | lit (x : Int)
  | call (ref : ℕ)
  | seq (first second : Body)
  | ifThen (yes : Body)
  | ifElse (yes no : Body)
  | beginUntil (body : Body)
  | beginAgain (body : Body)
  | beginWhile (condition body : Body)
  | forNext (body : Body)

/-- The words that the compiler does not look up. -/
def hostWords : List String :=
  ["p:", "a:", ":", ";", "if", "then", "begin", "again", "until", "while", "repeat",
    "else", "$", "c$", "var", "]", "allot", "for", "next", "imm", "#"]

namespace Body

/-- How many labels the body takes. -/
def labels : Body → ℕ
  | empty => 0
  | lit _ => 0
  | call _ => 0
  | seq first second => first.labels + second.labels
  | ifThen yes => 1 + yes.labels
  | ifElse yes no => 1 + yes.labels + (1 + no.labels)
  | beginUntil body => 1 + body.labels
  | beginAgain body => 1 + body.labels
  | beginWhile condition body => 1 + condition.labels + (1 + body.labels)
  | forNext body => 2 + body.labels

/-- How deep the control stack gets. -/
def depth : Body → ℕ
  | empty => 0
  | lit _ => 0
  | call _ => 0
  | seq first second => max first.depth second.depth
  | ifThen yes => yes.depth + 1
  | ifElse yes no => max yes.depth no.depth + 1
  | beginUntil body => body.depth + 1
  | beginAgain body => body.depth + 1
  | beginWhile condition body => max (condition.depth + 1) (body.depth + 2)
  | forNext body => body.depth + 2

/-- The code with the labels from `l`. -/
def code (refs : Refs) (l : ℕ) : Body → Code
  | empty => []
  | lit x => [.jsr refs.lit, .dw x]
  | call ref => [.jsr ref]
  | seq first second => first.code refs l ++ second.code refs (l + first.labels)
  | ifThen yes => .jsr refs.zbra :: .dwLabel l :: (yes.code refs (l + 1) ++ [.label l])
  | ifElse yes no =>
      .jsr refs.zbra :: .dwLabel l ::
        (yes.code refs (l + 1) ++
          .jsr refs.bra :: .dwLabel (l + 1 + yes.labels) :: .label l ::
            (no.code refs (l + 1 + yes.labels + 1) ++ [.label (l + 1 + yes.labels)]))
  | beginUntil body =>
      .label l :: (body.code refs (l + 1) ++ [.jsr refs.zbra, .dwLabel l])
  | beginAgain body =>
      .label l :: (body.code refs (l + 1) ++ [.jsr refs.bra, .dwLabel l])
  | beginWhile condition body =>
      .label l ::
        (condition.code refs (l + 1) ++
          .jsr refs.zbra :: .dwLabel (l + 1 + condition.labels) ::
            (body.code refs (l + 1 + condition.labels + 1) ++
              [.jsr refs.bra, .dwLabel l, .label (l + 1 + condition.labels)]))
  | forNext body =>
      .jsr refs.push :: .label l :: .jsr refs.dofor :: .dwLabel (l + 1) ::
        (body.code refs (l + 2) ++ [.jsr refs.bra, .dwLabel l, .label (l + 1)])

end Body

/-- The words spell the body when the labels start at `l`.  Where a word is found
depends on that, since the search starts there.  The words that are called act
on the stacks only, so they are none of those that use their return address. -/
inductive Spells (find : ℕ → String → Option Entry) (refs : Refs) :
    ℕ → List String → Body → Prop
  | empty {l} : Spells find refs l [] .empty
  | lit {l w x} : w ∉ hostWords → find l w = none → strtol w.toList = some x →
      Spells find refs l [w] (.lit x)
  | call {l w e} : w ∉ hostWords → find l w = some e →
      e.ref ∉ [refs.lit, refs.zbra, refs.bra, refs.dofor] →
      Spells find refs l [w] (.call e.ref)
  | seq {l first second a b} : Spells find refs l first a →
      Spells find refs (l + a.labels) second b →
      Spells find refs l (first ++ second) (.seq a b)
  | ifThen {l yes a} : Spells find refs (l + 1) yes a →
      Spells find refs l ("if" :: (yes ++ ["then"])) (.ifThen a)
  | ifElse {l yes no a b} : Spells find refs (l + 1) yes a →
      Spells find refs (l + 1 + a.labels + 1) no b →
      Spells find refs l ("if" :: (yes ++ "else" :: (no ++ ["then"]))) (.ifElse a b)
  | beginUntil {l body a} : Spells find refs (l + 1) body a →
      Spells find refs l ("begin" :: (body ++ ["until"])) (.beginUntil a)
  | beginAgain {l body a} : Spells find refs (l + 1) body a →
      Spells find refs l ("begin" :: (body ++ ["again"])) (.beginAgain a)
  | beginWhile {l condition body a b} : Spells find refs (l + 1) condition a →
      Spells find refs (l + 1 + a.labels + 1) body b →
      Spells find refs l ("begin" :: (condition ++ "while" :: (body ++ ["repeat"])))
        (.beginWhile a b)
  | forNext {l body a} : Spells find refs (l + 2) body a →
      Spells find refs l ("for" :: (body ++ ["next"])) (.forNext a)

open Machine

/-- A literal puts its cell onto the data stack. -/
def literal (x : Int) (st : Stacks) : Option Stacks :=
  some ⟨.ofInt 16 x :: st.data, st.ret⟩

/-- A flag is taken off the data stack: left if it is true, right if it is
zero. -/
def flag : Stacks → Option (Stacks ⊕ Stacks)
  | ⟨d :: data, ret⟩ => some (if d = 0 then .inr ⟨data, ret⟩ else .inl ⟨data, ret⟩)
  | _ => none

/-- The flag of `until`: left, for another round, if it is zero. -/
def untilFlag (st : Stacks) : Option (Stacks ⊕ Stacks) :=
  (flag st).map Sum.swap

/-- The counter on the return stack: left, for another round, if it is not zero,
less one; right without it. -/
def counter : Stacks → Option (Stacks ⊕ Stacks)
  | ⟨data, c :: ret⟩ =>
      some (if c = 0 then .inr ⟨data, ret⟩ else .inl ⟨data, (c - 1) :: ret⟩)
  | _ => none

/-- `for B next` as `dofor` runs it. -/
def Counted (body : Stacks → Stacks → Prop) : Stacks → Stacks → Prop :=
  Relation.Comp (Yields push)
    (Loop (Relation.Comp (Yields counter) (Sum.LiftRel body Eq)))

/-- `B`, n times, while n - 1 to 0 are on the return stack.  What stands there
after `B` is dropped. -/
def Repeat (body : Stacks → Stacks → Prop) : ℕ → Stacks → Stacks → Prop
  | 0, st, st' => st = st'
  | n + 1, ⟨data, ret⟩, st' =>
      ∃ data' c ret', body ⟨data, .ofNat 16 n :: ret⟩ ⟨data', c :: ret'⟩ ∧
        Repeat body n ⟨data', ret'⟩ st'

/-- `n for B next` with the n on the data stack. -/
def Times (body : Stacks → Stacks → Prop) : Stacks → Stacks → Prop
  | ⟨n :: data, ret⟩, st' => Repeat body n.toNat ⟨data, ret⟩ st'
  | _, _ => False

namespace Body

section

variable (call : ℕ → Stacks → Option Stacks)

/-- The structured reading, given that of `for`. -/
def Reading (loop : (Stacks → Stacks → Prop) → Stacks → Stacks → Prop) :
    Body → Stacks → Stacks → Prop
  | empty => Eq
  | lit x => Yields (literal x)
  | .call ref => Yields (call ref)
  | seq first second => Relation.Comp (first.Reading loop) (second.Reading loop)
  | ifThen yes => Relation.Comp (Yields flag) (Sum.elim (yes.Reading loop) Eq)
  | ifElse yes no =>
      Relation.Comp (Yields flag) (Sum.elim (yes.Reading loop) (no.Reading loop))
  | beginUntil body => Loop (Relation.Comp (body.Reading loop) (Yields untilFlag))
  | beginAgain body => Loop (Relation.Comp (body.Reading loop) (Yields (some ∘ Sum.inl)))
  | beginWhile condition body =>
      Loop (Relation.Comp (condition.Reading loop)
        (Relation.Comp (Yields flag) (Sum.LiftRel (body.Reading loop) Eq)))
  | forNext body => loop (body.Reading loop)

/-- The reading in which `n for B next` runs `B` n times. -/
abbrev Runs : Body → Stacks → Stacks → Prop :=
  Reading call Times

/-- The reading in which the counter is what is left on the return stack. -/
abbrev RunsCounted : Body → Stacks → Stacks → Prop :=
  Reading call Counted

/-- The body of each `for` leaves the counter as it is. -/
def KeepsCounters : Body → Prop
  | empty => True
  | lit _ => True
  | .call _ => True
  | seq first second => first.KeepsCounters ∧ second.KeepsCounters
  | ifThen yes => yes.KeepsCounters
  | ifElse yes no => yes.KeepsCounters ∧ no.KeepsCounters
  | beginUntil body => body.KeepsCounters
  | beginAgain body => body.KeepsCounters
  | beginWhile condition body => condition.KeepsCounters ∧ body.KeepsCounters
  | forNext body => body.KeepsCounters ∧
      ∀ data c ret st', body.Runs call ⟨data, c :: ret⟩ st' → ∃ ret', st'.ret = c :: ret'

end

end Body

section

variable {body : Stacks → Stacks → Prop}

/-- A round of a counted loop. -/
theorem counted_round_iff {data : List Cell} {c : Cell} {ret : List Cell}
    {next : Stacks ⊕ Stacks} :
    Relation.Comp (Yields counter) (Sum.LiftRel body Eq) ⟨data, c :: ret⟩ next ↔
      (c = 0 ∧ next = .inr ⟨data, ret⟩) ∨
        (c ≠ 0 ∧ ∃ st, body ⟨data, (c - 1) :: ret⟩ st ∧ next = .inl st) := by
  constructor
  · rintro ⟨test, htest, hnext⟩
    have htest : (if c = 0 then .inr ⟨data, ret⟩ else .inl ⟨data, (c - 1) :: ret⟩) = test :=
      Option.some.inj htest
    by_cases hc : c = 0
    · rw [if_pos hc] at htest
      subst htest
      cases hnext
      exact .inl ⟨hc, by subst_vars; rfl⟩
    · rw [if_neg hc] at htest
      subst htest
      cases hnext with
      | inl hbody => exact .inr ⟨hc, _, hbody, rfl⟩
  · rintro (⟨hc, rfl⟩ | ⟨hc, st, hbody, rfl⟩)
    · refine ⟨.inr ⟨data, ret⟩, ?_, .inr rfl⟩
      rw [Yields, counter, if_pos hc]
    · refine ⟨.inl ⟨data, (c - 1) :: ret⟩, ?_, .inl hbody⟩
      rw [Yields, counter, if_neg hc]

/-- If the body leaves the counter as it is, it runs as often as the counter
says. -/
theorem counted_loop_iff
    (hkeeps : ∀ data c ret st', body ⟨data, c :: ret⟩ st' → ∃ ret', st'.ret = c :: ret')
    {n : ℕ} {data : List Cell} {c : Cell} (hc : c.toNat = n) {ret : List Cell}
    {st' : Stacks} :
    Loop (Relation.Comp (Yields counter) (Sum.LiftRel body Eq)) ⟨data, c :: ret⟩ st' ↔
      Repeat body n ⟨data, ret⟩ st' := by
  induction n generalizing data c ret with
  | zero =>
      have hzero : c = 0 := BitVec.eq_of_toNat_eq hc
      constructor
      · intro hloop
        cases hloop with
        | again hround _ =>
            rcases counted_round_iff.mp hround with ⟨_, hnext⟩ | ⟨hne, _⟩
            · cases hnext
            · exact absurd hzero hne
        | exit hround =>
            rcases counted_round_iff.mp hround with ⟨_, hnext⟩ | ⟨hne, _⟩
            · exact (Sum.inr.inj hnext).symm
            · exact absurd hzero hne
      · intro heq
        have heq : ⟨data, ret⟩ = st' := heq
        exact .exit (counted_round_iff.mpr (.inl ⟨hzero, by rw [heq]⟩))
  | succ n ih =>
      have hne : c ≠ 0 := by
        rintro rfl
        cases hc
      have hless : (c - 1).toNat = n := by bv_omega
      have hcounter : BitVec.ofNat 16 n = c - 1 := by bv_omega
      constructor
      · intro hloop
        cases hloop with
        | @again _ next _ hround hrest =>
            rcases counted_round_iff.mp hround with ⟨hzero, _⟩ | ⟨_, st, hbody, hnext⟩
            · exact absurd hzero hne
            · obtain rfl := Sum.inl.inj hnext
              obtain ⟨ret', hret⟩ := hkeeps _ _ _ _ hbody
              obtain ⟨data', _⟩ := next
              cases hret
              refine ⟨data', c - 1, ret', ?_, (ih hless).mp hrest⟩
              rw [hcounter]
              exact hbody
        | exit hround =>
            rcases counted_round_iff.mp hround with ⟨hzero, _⟩ | ⟨_, _, _, hnext⟩
            · exact absurd hzero hne
            · cases hnext
      · rintro ⟨data', c', ret', hbody, hrest⟩
        rw [hcounter] at hbody
        obtain ⟨_, hret⟩ := hkeeps _ _ _ _ hbody
        obtain ⟨rfl, rfl⟩ := List.cons.inj hret
        exact .again (counted_round_iff.mpr (.inr ⟨hne, _, hbody, rfl⟩))
          ((ih hless).mpr hrest)

theorem counted_iff_times
    (hkeeps : ∀ data c ret st', body ⟨data, c :: ret⟩ st' → ∃ ret', st'.ret = c :: ret')
    {st st' : Stacks} : Counted body st st' ↔ Times body st st' := by
  obtain ⟨_ | ⟨n, data⟩, ret⟩ := st
  · constructor
    · rintro ⟨_, hpush, _⟩
      cases hpush
    · exact False.elim
  · constructor
    · rintro ⟨_, hpush, hloop⟩
      cases hpush
      exact (counted_loop_iff hkeeps rfl).mp hloop
    · intro htimes
      exact ⟨_, rfl, (counted_loop_iff hkeeps rfl).mpr htimes⟩

end

/-- Where no body of a `for` changes its counter, the readings agree. -/
theorem Body.reading_counted_eq_times {call : ℕ → Stacks → Option Stacks} {body : Body}
    (hkeeps : body.KeepsCounters call) : body.Reading call Counted = body.Reading call Times := by
  induction body with
  | empty => rfl
  | lit x => rfl
  | call ref => rfl
  | seq first second ihfirst ihsecond =>
      rw [Reading, Reading, ihfirst hkeeps.1, ihsecond hkeeps.2]
  | ifThen yes ih => rw [Reading, Reading, ih hkeeps]
  | ifElse yes no ihyes ihno =>
      rw [Reading, Reading, ihyes hkeeps.1, ihno hkeeps.2]
  | beginUntil body ih => rw [Reading, Reading, ih hkeeps]
  | beginAgain body ih => rw [Reading, Reading, ih hkeeps]
  | beginWhile condition body ihcondition ihbody =>
      rw [Reading, Reading, ihcondition hkeeps.1, ihbody hkeeps.2]
  | forNext body ih =>
      rw [Reading, Reading, ih hkeeps.1]
      funext st st'
      exact propext (counted_iff_times hkeeps.2)

end Fip.Bfc
