import Fip.Core.Machine
import Mathlib.Logic.Relation

/-!
# Pieces of code as relations

A piece of code is entered in a state made from a value and is left in a state
made from a value.  It realizes a relation between the two values if the
machine gets from the one to the other exactly when they are related.  Pieces
compose to sequences, choices and loops.  The result `none` is that of a machine
that is stuck.
-/

namespace Fip.Machine

variable {σ ρ α β γ δ : Type*} {step : σ → σ ⊕ Option ρ}

/-- Steps without a result. -/
def Reaches (step : σ → σ ⊕ ρ) : σ → σ → Prop :=
  Relation.ReflTransGen fun s t => step s = .inl t

theorem Reaches.run {s t : σ} (hreaches : Reaches step s t) {fuel : ℕ} {out : Option ρ}
    (hrun : run step fuel t = some out) : ∃ more, run step more s = some out := by
  induction hreaches using Relation.ReflTransGen.head_induction_on with
  | refl => exact ⟨fuel, hrun⟩
  | head hstep _ ih =>
      obtain ⟨more, hmore⟩ := ih
      refine ⟨more + 1, ?_⟩
      rw [Machine.run, hstep]
      exact hmore

/-- So many steps, if there is no result before. -/
def steps (step : σ → σ ⊕ ρ) : ℕ → σ → Option σ
  | 0, s => some s
  | n + 1, s =>
      match step s with
      | .inl t => steps step n t
      | .inr _ => none

theorem reaches_of_steps {step : σ → σ ⊕ ρ} {n : ℕ} {s t : σ}
    (hsteps : steps step n s = some t) : Reaches step s t := by
  induction n generalizing s with
  | zero =>
      cases hsteps
      exact .refl
  | succ n ih =>
      rw [steps] at hsteps
      rcases hstep : step s with u | result
      · rw [hstep] at hsteps
        exact .head hstep (ih hsteps)
      · rw [hstep] at hsteps
        cases hsteps

/-- `relation` is what the code from `enter` to `leave` does: the way there
exists for related values, and whatever comes to a result passes through a
related value. -/
structure Realizes (step : σ → σ ⊕ Option ρ) (enter : α → σ) (leave : β → σ)
    (relation : α → β → Prop) : Prop where
  forth : ∀ a b, relation a b → Reaches step (enter a) (leave b)
  back : ∀ fuel a out, run step fuel (enter a) = some (some out) →
    ∃ b left, left ≤ fuel ∧ relation a b ∧ run step left (leave b) = some (some out)

/-- What a partial function does. -/
def Yields (f : α → Option β) (a : α) (b : β) : Prop :=
  f a = some b

namespace Realizes

variable {enter : α → σ} {middle : β → σ} {leave : γ → σ} {other : δ → σ}
  {first : α → β → Prop} {second : β → γ → Prop} {third : δ → γ → Prop}

/-- No code at all. -/
theorem skip (enter : α → σ) : Realizes step enter enter Eq where
  forth a b heq := by
    rw [heq]
    exact .refl
  back fuel a out hrun := ⟨a, fuel, Nat.le_refl fuel, rfl, hrun⟩

/-- One step, which is stuck where `f` has no value. -/
theorem single {f : α → Option β}
    (hstep : ∀ a, step (enter a) = (f a).elim (.inr none) (fun b => .inl (middle b))) :
    Realizes step enter middle (Yields f) where
  forth a b hyields := by
    have hf : f a = some b := hyields
    apply Relation.ReflTransGen.single
    rw [hstep, hf]
    rfl
  back fuel a out hrun := by
    cases fuel with
    | zero => cases hrun
    | succ fuel =>
        rw [run, hstep] at hrun
        rcases hf : f a with _ | b
        · rw [hf] at hrun
          cases hrun
        · rw [hf] at hrun
          exact ⟨b, fuel, Nat.le_succ fuel, hf, hrun⟩

theorem seq (hfirst : Realizes step enter middle first)
    (hsecond : Realizes step middle leave second) :
    Realizes step enter leave (Relation.Comp first second) where
  forth a c hcomp := by
    obtain ⟨b, hab, hbc⟩ := hcomp
    exact (hfirst.forth a b hab).trans (hsecond.forth b c hbc)
  back fuel a out hrun := by
    obtain ⟨b, left, hle, hab, hrest⟩ := hfirst.back fuel a out hrun
    obtain ⟨c, last, hlast, hbc, hout⟩ := hsecond.back left b out hrest
    exact ⟨c, last, Nat.le_trans hlast hle, ⟨b, hab, hbc⟩, hout⟩

/-- A step before the code that changes no value. -/
theorem before {start : α → σ} (hfirst : Realizes step enter middle first)
    (hstep : ∀ a, step (start a) = .inl (enter a)) : Realizes step start middle first where
  forth a b hab := .head (hstep a) (hfirst.forth a b hab)
  back fuel a out hrun := by
    cases fuel with
    | zero => cases hrun
    | succ fuel =>
        rw [run, hstep] at hrun
        obtain ⟨b, left, hle, hab, hrest⟩ := hfirst.back fuel a out hrun
        exact ⟨b, left, Nat.le_succ_of_le hle, hab, hrest⟩

/-- A step behind the code that changes no value. -/
theorem behind {finish : β → σ} (hfirst : Realizes step enter middle first)
    (hstep : ∀ b, step (middle b) = .inl (finish b)) :
    Realizes step enter finish first where
  forth a b hab := (hfirst.forth a b hab).tail (hstep b)
  back fuel a out hrun := by
    obtain ⟨b, left, hle, hab, hrest⟩ := hfirst.back fuel a out hrun
    cases left with
    | zero => cases hrest
    | succ left =>
        rw [run, hstep] at hrest
        exact ⟨b, left, Nat.le_of_succ_le hle, hab, hrest⟩

/-- Two ways in, one way out. -/
theorem join (hsecond : Realizes step middle leave second)
    (hthird : Realizes step other leave third) :
    Realizes step (Sum.elim middle other) leave (Sum.elim second third) where
  forth := by
    rintro (b | d) c hrelated
    · exact hsecond.forth b c hrelated
    · exact hthird.forth d c hrelated
  back := by
    rintro fuel (b | d) out hrun
    · exact hsecond.back fuel b out hrun
    · exact hthird.back fuel d out hrun

/-- Code behind the first of two ways. -/
theorem onLeft (hfirst : Realizes step enter middle first) (other : δ → σ) :
    Realizes step (Sum.elim enter other) (Sum.elim middle other)
      (Sum.LiftRel first Eq) where
  forth := by
    rintro _ _ (⟨hab⟩ | ⟨rfl⟩)
    · exact hfirst.forth _ _ hab
    · exact .refl
  back := by
    rintro fuel (a | d) out hrun
    · obtain ⟨b, left, hle, hab, hrest⟩ := hfirst.back fuel a out hrun
      exact ⟨.inl b, left, hle, .inl hab, hrest⟩
    · exact ⟨.inr d, fuel, Nat.le_refl fuel, .inr rfl, hrun⟩

end Realizes

/-- Rounds, each of which starts another one or ends the loop. -/
inductive Loop (round : α → α ⊕ β → Prop) : α → β → Prop
  | again {a a' b} : round a (.inl a') → Loop round a' b → Loop round a b
  | exit {a b} : round a (.inr b) → Loop round a b

/-- A loop, whose code starts with a step of its own. -/
theorem Realizes.loop {enter inner : α → σ} {leave : β → σ} {round : α → α ⊕ β → Prop}
    (hround : Realizes step inner (Sum.elim enter leave) round)
    (hstep : ∀ a, step (enter a) = .inl (inner a)) :
    Realizes step enter leave (Loop round) where
  forth a b hloop := by
    induction hloop with
    | again hagain _ ih =>
        exact .head (hstep _) ((hround.forth _ _ hagain).trans ih)
    | exit hexit => exact .head (hstep _) (hround.forth _ _ hexit)
  back fuel := by
    induction fuel using Nat.strongRecOn with
    | ind fuel ih =>
        intro a out hrun
        cases fuel with
        | zero => cases hrun
        | succ fuel =>
            rw [run, hstep] at hrun
            obtain ⟨next, left, hle, hnext, hrest⟩ := hround.back fuel a out hrun
            have hlt : left < fuel + 1 := Nat.lt_succ_of_le hle
            rcases next with a' | b
            · obtain ⟨b, last, hlast, hloop, hout⟩ := ih left hlt a' out hrest
              exact ⟨b, last, Nat.le_trans hlast (Nat.le_of_lt hlt),
                .again hnext hloop, hout⟩
            · exact ⟨b, left, Nat.le_of_lt hlt, .exit hnext, hrest⟩

end Fip.Machine
