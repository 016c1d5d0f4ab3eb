import Mathlib.Data.Nat.Basic
import Mathlib.Tactic.Common

/-!
# Recursive procedures that need not return

The body of a procedure gets the procedure that it calls itself.  The calls are unfolded
to a given depth; at the bottom there is no answer.  What the body gets out of answers it
also gets out of more of them, so the depth does not change an answer.
-/

namespace Fip.Unfolding

variable {α β : Type*} {body : (α → Option β) → α → Option β}

/-- The calls down to a depth. -/
def unfolded (body : (α → Option β) → α → Option β) : ℕ → α → Option β
  | 0, _ => none
  | depth + 1, a => body (unfolded body depth) a

/-- The answer at some depth. -/
def Returns (body : (α → Option β) → α → Option β) (a : α) (b : β) : Prop :=
  ∃ depth, unfolded body depth a = some b

/-- The second procedure has the answers of the first. -/
def Below (f g : α → Option β) : Prop := ∀ a b, f a = some b → g a = some b

/-- A body that asks for answers only to use them. -/
def Monotonic (body : (α → Option β) → α → Option β) : Prop :=
  ∀ f g, Below f g → Below (body f) (body g)

theorem Below.refl (f : α → Option β) : Below f f := fun _ _ hanswer => hanswer

theorem Below.trans {f g h : α → Option β} (hfg : Below f g) (hgh : Below g h) : Below f h :=
  fun a b hanswer => hgh a b (hfg a b hanswer)

theorem unfolded_succ (hmono : Monotonic body) (depth : ℕ) :
    Below (unfolded body depth) (unfolded body (depth + 1)) := by
  induction depth with
  | zero =>
      intro a b hanswer
      cases hanswer
  | succ depth ih => exact hmono _ _ ih

/-- More depth does not change an answer. -/
theorem unfolded_mono (hmono : Monotonic body) {depth more : ℕ} (hle : depth ≤ more) :
    Below (unfolded body depth) (unfolded body more) := by
  induction hle with
  | refl => exact .refl _
  | step _ ih => exact ih.trans (unfolded_succ hmono _)

/-- A procedure has one answer. -/
theorem Returns.unique (hmono : Monotonic body) {a : α} {b c : β} (hb : Returns body a b)
    (hc : Returns body a c) : b = c := by
  obtain ⟨depth, hb⟩ := hb
  obtain ⟨more, hc⟩ := hc
  have hfirst := unfolded_mono hmono (Nat.le_max_left depth more) a b hb
  have hsecond := unfolded_mono hmono (Nat.le_max_right depth more) a c hc
  exact Option.some.inj (hfirst.symm.trans hsecond)

/-- The rule of a specification: what the body keeps if its calls have it, the procedure
has. -/
theorem Returns.rule (spec : α → β → Prop)
    (hbody : ∀ f, (∀ a b, f a = some b → spec a b) → ∀ a b, body f a = some b → spec a b)
    {a : α} {b : β} (hreturns : Returns body a b) : spec a b := by
  obtain ⟨depth, hanswer⟩ := hreturns
  induction depth generalizing a b with
  | zero => cases hanswer
  | succ depth ih => exact hbody _ (fun a b => ih) a b hanswer

/-- An answer that the body has of itself. -/
theorem Returns.step {a : α} {b : β} (hstep : ∀ f, body f a = some b) : Returns body a b :=
  ⟨1, hstep _⟩

section Computations

variable {γ : Type*} {compute : (α → Option β) → Option γ}

/-- What is computed out of answers, where more answers do not change it. -/
def Stable (compute : (α → Option β) → Option γ) : Prop :=
  ∀ f g, Below f g → ∀ c, compute f = some c → compute g = some c

theorem stable_call (a : α) : Stable fun f : α → Option β => f a :=
  fun _ _ hbelow b => hbelow a b

/-- What is computed at some depth. -/
def Computes (body : (α → Option β) → α → Option β) (compute : (α → Option β) → Option γ)
    (c : γ) : Prop :=
  ∃ depth, compute (unfolded body depth) = some c

theorem Returns.computes {a : α} {b : β} (hreturns : Returns body a b) :
    Computes body (fun f => f a) b := hreturns

/-- An answer that the body gets out of what it computes. -/
theorem Returns.of_computes {a : α} {b : β} {c : γ} (hcomputes : Computes body compute c)
    (hsome : ∀ f, compute f = some c → body f a = some b) : Returns body a b := by
  obtain ⟨depth, hdepth⟩ := hcomputes
  exact ⟨depth + 1, hsome _ hdepth⟩

/-- The first request has the answer of the second, and has it at a greater depth. -/
structure Leads (body : (α → Option β) → α → Option β) (a a' : α) : Prop where
  forth : ∀ b, Returns body a' b → Returns body a b
  back : ∀ depth b, unfolded body depth a = some b →
    ∃ less < depth, unfolded body less a' = some b

theorem Leads.returns_iff {a a' : α} (hleads : Leads body a a') (b : β) :
    Returns body a b ↔ Returns body a' b := by
  constructor
  · rintro ⟨depth, hanswer⟩
    obtain ⟨less, _, hless⟩ := hleads.back depth b hanswer
    exact ⟨less, hless⟩
  · exact hleads.forth b

theorem Leads.trans {a a' a'' : α} (hfirst : Leads body a a') (hsecond : Leads body a' a'') :
    Leads body a a'' where
  forth b hb := hfirst.forth b (hsecond.forth b hb)
  back depth b hb := by
    obtain ⟨less, hless, hb⟩ := hfirst.back depth b hb
    obtain ⟨least, hleast, hb⟩ := hsecond.back less b hb
    exact ⟨least, Nat.lt_trans hleast hless, hb⟩

theorem Leads.step {a a' : α} (hstep : ∀ f, body f a = f a') : Leads body a a' where
  forth b := by
    rintro ⟨depth, hb⟩
    exact ⟨depth + 1, (hstep _).trans hb⟩
  back depth b hb := by
    cases depth with
    | zero => cases hb
    | succ depth => exact ⟨depth, Nat.lt_succ_self _, (hstep _).symm.trans hb⟩

/-- A request behind something that is computed first. -/
theorem Leads.of_computes (hmono : Monotonic body) (hstable : Stable compute) {a a' : α} {c : γ}
    (hcomputes : Computes body compute c) (hnone : ∀ f, compute f = none → body f a = none)
    (hsome : ∀ f, compute f = some c → body f a = f a') : Leads body a a' where
  forth b := by
    obtain ⟨first, hfirst⟩ := hcomputes
    rintro ⟨depth, hb⟩
    refine ⟨max first depth + 1, ?_⟩
    have hc := hstable _ _ (unfolded_mono hmono (Nat.le_max_left first depth)) c hfirst
    exact (hsome _ hc).trans (unfolded_mono hmono (Nat.le_max_right first depth) a' b hb)
  back depth b hb := by
    obtain ⟨first, hfirst⟩ := hcomputes
    cases depth with
    | zero => cases hb
    | succ depth =>
        change body (unfolded body depth) a = some b at hb
        rcases hc' : compute (unfolded body depth) with _ | c'
        · rw [hnone _ hc'] at hb
          cases hb
        · have hmax := unfolded_mono hmono (Nat.le_max_left first depth)
          have hmax' := unfolded_mono hmono (Nat.le_max_right first depth)
          have hc := hstable _ _ hmax c hfirst
          rw [hstable _ _ hmax' c' hc'] at hc
          obtain rfl := Option.some.inj hc
          exact ⟨depth, Nat.lt_succ_self _, (hsome _ hc').symm.trans hb⟩

end Computations

end Fip.Unfolding
