import Mathlib.Tactic.Common

/-!
# Deterministic machines that stop with a result

A machine is a step function to the next state or to a result.  An invariant
with a measure that every step lowers proves that the machine stops, and what
its result is.
-/

namespace Fip.Machine

variable {σ ρ : Type*}

/-- At most `fuel` steps; `none` when the machine has not stopped by then. -/
def run (step : σ → σ ⊕ ρ) : ℕ → σ → Option ρ
  | 0, _ => none
  | fuel + 1, s =>
      match step s with
      | .inl s' => run step fuel s'
      | .inr result => some result

/-- What a step from a state of the invariant has to give. -/
def Advances (inv : σ → Prop) (post : ρ → Prop) (measure : σ → ℕ) (before : ℕ) :
    σ ⊕ ρ → Prop
  | .inl s => inv s ∧ measure s < before
  | .inr result => post result

variable {step : σ → σ ⊕ ρ} {inv : σ → Prop} {post : ρ → Prop} {measure : σ → ℕ}

/-- The invariant rule of total correctness. -/
theorem run_total
    (hstep : ∀ s, inv s → Advances inv post measure (measure s) (step s))
    {fuel : ℕ} {s : σ} (hinv : inv s) (hfuel : measure s < fuel) :
    ∃ result, run step fuel s = some result ∧ post result := by
  induction fuel generalizing s with
  | zero => exact absurd hfuel (Nat.not_lt_zero _)
  | succ fuel ih =>
      have hadvances := hstep s hinv
      rw [run]
      rcases hs : step s with s' | result
      · rw [hs] at hadvances
        have hlt : measure s' < fuel :=
          Nat.lt_of_lt_of_le hadvances.2 (Nat.le_of_lt_succ hfuel)
        exact ih hadvances.1 hlt
      · rw [hs] at hadvances
        exact ⟨result, rfl, hadvances⟩

/-- More fuel does not change a result. -/
theorem run_mono {fuel more : ℕ} {s : σ} {result : ρ}
    (hrun : run step fuel s = some result) (hle : fuel ≤ more) :
    run step more s = some result := by
  induction fuel generalizing more s with
  | zero => cases hrun
  | succ fuel ih =>
      obtain ⟨more, rfl⟩ := Nat.exists_eq_add_of_le' hle
      rw [← Nat.add_assoc, run]
      rw [run] at hrun
      rcases hs : step s with s' | final
      · rw [hs] at hrun
        exact ih hrun (Nat.le_add_left _ _)
      · rw [hs] at hrun
        exact hrun

/-- Any two runs have the same result. -/
theorem run_unique {fuel more : ℕ} {s : σ} {result other : ρ}
    (hrun : run step fuel s = some result) (hother : run step more s = some other) :
    result = other := by
  have hfirst := run_mono hrun (Nat.le_max_left fuel more)
  have hsecond := run_mono hother (Nat.le_max_right fuel more)
  exact Option.some.inj (hfirst.symm.trans hsecond)

/-- Two machines in lockstep: if related states step to related states or stop
with related results, so do whole runs. -/
theorem run_related {σ' ρ' : Type*} {step' : σ' → σ' ⊕ ρ'} {related : σ → σ' → Prop}
    {alike : ρ → ρ' → Prop}
    (hstep : ∀ s s', related s s' →
      (∃ t t', step s = .inl t ∧ step' s' = .inl t' ∧ related t t') ∨
        ∃ result result', step s = .inr result ∧ step' s' = .inr result' ∧
          alike result result')
    {fuel : ℕ} {s : σ} {s' : σ'} {result : ρ} (hrelated : related s s')
    (hrun : run step fuel s = some result) :
    ∃ result', run step' fuel s' = some result' ∧ alike result result' := by
  induction fuel generalizing s s' with
  | zero => cases hrun
  | succ fuel ih =>
      rw [run] at hrun ⊢
      rcases hstep s s' hrelated with ⟨t, t', ht, ht', hnext⟩ |
        ⟨final, final', hfinal, hfinal', halike⟩
      · rw [ht] at hrun
        rw [ht']
        exact ih hnext hrun
      · rw [hfinal] at hrun
        rw [hfinal']
        cases hrun
        exact ⟨final', rfl, halike⟩

/-- The states that a run of at most `fuel` steps goes through. -/
def visited (step : σ → σ ⊕ ρ) : ℕ → σ → List σ
  | 0, _ => []
  | fuel + 1, s =>
      s :: match step s with
        | .inl s' => visited step fuel s'
        | .inr _ => []

/-- Only the last step of a run stops. -/
theorem step_of_visited {fuel : ℕ} {s t : σ} {result : ρ}
    (hrun : run step fuel s = some result) (ht : t ∈ visited step fuel s) :
    (∃ u, step t = .inl u) ∨ step t = .inr result := by
  induction fuel generalizing s with
  | zero => cases hrun
  | succ fuel ih =>
      rw [run] at hrun
      rw [visited] at ht
      rcases hs : step s with s' | final
      · rw [hs] at hrun ht
        rcases List.mem_cons.mp ht with rfl | ht
        · exact .inl ⟨s', hs⟩
        · exact ih hrun ht
      · rw [hs] at hrun ht
        cases hrun
        rw [List.mem_singleton.mp ht]
        exact .inr hs

/-- Machines that agree where one of them goes run alike. -/
theorem run_congr {step' : σ → σ ⊕ ρ} {fuel : ℕ} {s : σ}
    (hagree : ∀ t ∈ visited step fuel s, step' t = step t) :
    run step' fuel s = run step fuel s := by
  induction fuel generalizing s with
  | zero => rfl
  | succ fuel ih =>
      rw [visited, List.forall_mem_cons] at hagree
      obtain ⟨hfirst, hagree⟩ := hagree
      rw [run, run, hfirst]
      rcases hs : step s with s' | result
      · rw [hs] at hagree
        exact ih hagree
      · rfl

/-- An invariant of the steps holds wherever a run goes. -/
theorem forall_visited (hkeeps : ∀ s s', inv s → step s = .inl s' → inv s') {fuel : ℕ} {s : σ}
    (hinv : inv s) : ∀ t ∈ visited step fuel s, inv t := by
  induction fuel generalizing s with
  | zero => exact fun _ => nofun
  | succ fuel ih =>
      rw [visited, List.forall_mem_cons]
      refine ⟨hinv, ?_⟩
      rcases hs : step s with s' | result
      · exact ih (hkeeps s s' hinv hs)
      · exact fun _ => nofun

/-- The state behind one that is visited is visited with a step more. -/
theorem visited_next {fuel : ℕ} {s t u : σ} (ht : t ∈ visited step fuel s)
    (hnext : step t = .inl u) : u ∈ visited step (fuel + 1) s := by
  induction fuel generalizing s with
  | zero => cases ht
  | succ fuel ih =>
      rw [visited] at ht ⊢
      rcases List.mem_cons.mp ht with rfl | ht
      · rw [hnext]
        exact List.mem_cons_of_mem _ List.mem_cons_self
      · rcases hs : step s with s' | result
        · rw [hs] at ht
          exact List.mem_cons_of_mem _ (ih ht)
        · rw [hs] at ht
          cases ht

/-- Machines that agree where one of them goes visit the same states. -/
theorem visited_congr {step' : σ → σ ⊕ ρ} {fuel : ℕ} {s : σ}
    (hagree : ∀ t ∈ visited step fuel s, step' t = step t) :
    visited step' fuel s = visited step fuel s := by
  induction fuel generalizing s with
  | zero => rfl
  | succ fuel ih =>
      rw [visited, List.forall_mem_cons] at hagree
      obtain ⟨hfirst, hagree⟩ := hagree
      rw [visited, visited, hfirst]
      rcases hs : step s with s' | result
      · rw [hs] at hagree
        exact congrArg (s :: ·) (ih hagree)
      · rfl

/-- What is counted behind a step: in the next state, or in the result. -/
def Counts (count : σ → ℕ) (final : ρ → ℕ → Prop) (total : ℕ) : σ ⊕ ρ → Prop
  | .inl s => count s = total
  | .inr result => final result total

/-- If each step counts what it writes to a log, so does a whole run. -/
theorem run_logged {α : Type*} {log : σ → List α} {count : σ → ℕ} {final : ρ → ℕ → Prop}
    (hstep : ∀ s, Counts count final (count s + (log s).length) (step s))
    {fuel : ℕ} {s : σ} {result : ρ} (hrun : run step fuel s = some result) :
    final result (count s + ((visited step fuel s).flatMap log).length) := by
  induction fuel generalizing s with
  | zero => cases hrun
  | succ fuel ih =>
      have hcounts := hstep s
      rw [run] at hrun
      rw [visited, List.flatMap_cons, List.length_append, ← Nat.add_assoc]
      rcases hs : step s with s' | final
      · rw [hs] at hrun hcounts
        rw [← show count s' = _ from hcounts]
        exact ih hrun
      · rw [hs] at hrun hcounts
        cases hrun
        exact hcounts

end Fip.Machine
