import Mathlib.Tactic.Common

/-!
# Structured programs

Programs are built from actions with sequences, choices and loops that may be left or gone
through again early; an action or a test may fail.  What a program does is a relation.  A
triple says that a program ends from each state with a property, and how.
-/

namespace Fip.Structured

/-- Programs over actions and tests. -/
inductive Prog (α β : Type*)
  | act (a : α)
  | seq (p q : Prog α β)
  | when (b : β) (p : Prog α β)
  | cond (b : β) (p q : Prog α β)
  | loop (b : β) (p : Prog α β)
  | brk
  | cont

/-- How a program ends. -/
inductive Exit (ε : Type*)
  | done | broke | continued
  | failed (e : ε)
  deriving DecidableEq

/-- What actions do to a state and what tests say about it. -/
structure Meaning (α β σ ε : Type*) where
  act : α → σ → Except ε σ
  test : β → σ → Except ε Bool

variable {α β σ ε : Type*} {m : Meaning α β σ ε}

/-- Whether a loop is gone on with behind its body. -/
def Exit.GoesOn (x : Exit ε) : Prop := x = .done ∨ x = .continued

inductive Exec (m : Meaning α β σ ε) : Prog α β → σ → Exit ε → σ → Prop
  | act {a s s'} (hact : m.act a s = .ok s') : Exec m (.act a) s .done s'
  | actFails {a s e} (hact : m.act a s = .error e) : Exec m (.act a) s (.failed e) s
  | seq {p q s s' s'' x} (hp : Exec m p s .done s') (hq : Exec m q s' x s'') :
      Exec m (.seq p q) s x s''
  | seqExits {p q s s' x} (hp : Exec m p s x s') (hx : x ≠ .done) : Exec m (.seq p q) s x s'
  | when {b p s s' x} (htest : m.test b s = .ok true) (hp : Exec m p s x s') :
      Exec m (.when b p) s x s'
  | whenNot {b p s} (htest : m.test b s = .ok false) : Exec m (.when b p) s .done s
  | whenFails {b p s e} (htest : m.test b s = .error e) : Exec m (.when b p) s (.failed e) s
  | condTrue {b p q s s' x} (htest : m.test b s = .ok true) (hp : Exec m p s x s') :
      Exec m (.cond b p q) s x s'
  | condFalse {b p q s s' x} (htest : m.test b s = .ok false) (hq : Exec m q s x s') :
      Exec m (.cond b p q) s x s'
  | condFails {b p q s e} (htest : m.test b s = .error e) :
      Exec m (.cond b p q) s (.failed e) s
  | loopEnds {b p s} (htest : m.test b s = .ok false) : Exec m (.loop b p) s .done s
  | loopFails {b p s e} (htest : m.test b s = .error e) : Exec m (.loop b p) s (.failed e) s
  | loopAgain {b p s s' s'' x y} (htest : m.test b s = .ok true) (hp : Exec m p s x s')
      (hx : x.GoesOn) (hloop : Exec m (.loop b p) s' y s'') : Exec m (.loop b p) s y s''
  | loopBreaks {b p s s'} (htest : m.test b s = .ok true) (hp : Exec m p s .broke s') :
      Exec m (.loop b p) s .done s'
  | loopExits {b p s s' e} (htest : m.test b s = .ok true) (hp : Exec m p s (.failed e) s') :
      Exec m (.loop b p) s (.failed e) s'
  | brk {s} : Exec m .brk s .broke s
  | cont {s} : Exec m .cont s .continued s

/-- From each state with the one property the program ends, and the end has the other. -/
def Triple (m : Meaning α β σ ε) (pre : σ → Prop) (p : Prog α β) (post : Exit ε → σ → Prop) :
    Prop :=
  ∀ s, pre s → ∃ x s', Exec m p s x s' ∧ post x s'

namespace Triple

variable {pre pre' mid : σ → Prop} {post post' : Exit ε → σ → Prop} {p q : Prog α β} {a : α}
  {b : β}

theorem act (hact : ∀ s, pre s → ∃ s', m.act a s = .ok s' ∧ post .done s') :
    Triple m pre (.act a) post := by
  intro s hs
  obtain ⟨s', hok, hpost⟩ := hact s hs
  exact ⟨.done, s', .act hok, hpost⟩

theorem seq (hp : Triple m pre p fun x s => (x = .done → mid s) ∧ (x ≠ .done → post x s))
    (hq : Triple m mid q post) : Triple m pre (.seq p q) post := by
  intro s hs
  obtain ⟨x, s', hexec, hdone, hexits⟩ := hp s hs
  by_cases hx : x = .done
  · subst hx
    obtain ⟨y, s'', hrest, hy⟩ := hq s' (hdone rfl)
    exact ⟨y, s'', .seq hexec hrest, hy⟩
  · exact ⟨x, s', .seqExits hexec hx, hexits hx⟩

/-- Loops: what holds in front of the test holds again behind the body, and a measure has
gone down. -/
theorem loop (measure : σ → ℕ) (inv : σ → Prop)
    (htest : ∀ s, inv s → ∃ c, m.test b s = .ok c ∧ (c = false → post .done s))
    (hbody : ∀ n, Triple m (fun s => inv s ∧ m.test b s = .ok true ∧ measure s = n) p
      fun x s => (x.GoesOn → inv s ∧ measure s < n) ∧ (x = .broke → post .done s) ∧
        ∀ e, x = .failed e → post (.failed e) s) :
    Triple m inv (.loop b p) post := by
  intro s hs
  induction hn : measure s using Nat.strongRecOn generalizing s with
  | ind n ih =>
      obtain ⟨c, hc, hends⟩ := htest s hs
      cases c with
      | false => exact ⟨.done, s, .loopEnds hc, hends rfl⟩
      | true =>
          obtain ⟨x, s', hexec, hon, hbroke, hfailed⟩ := hbody n s ⟨hs, hc, hn⟩
          cases x with
          | broke => exact ⟨.done, s', .loopBreaks hc hexec, hbroke rfl⟩
          | failed e => exact ⟨.failed e, s', .loopExits hc hexec, hfailed e rfl⟩
          | done =>
              obtain ⟨hinv, hlt⟩ := hon (.inl rfl)
              obtain ⟨y, s'', hloop, hy⟩ := ih _ hlt s' hinv rfl
              exact ⟨y, s'', .loopAgain hc hexec (.inl rfl) hloop, hy⟩
          | continued =>
              obtain ⟨hinv, hlt⟩ := hon (.inr rfl)
              obtain ⟨y, s'', hloop, hy⟩ := ih _ hlt s' hinv rfl
              exact ⟨y, s'', .loopAgain hc hexec (.inr rfl) hloop, hy⟩

end Triple

end Fip.Structured
