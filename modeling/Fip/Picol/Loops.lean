import Fip.Picol.Adequacy
import Mathlib.Algebra.Order.Ring.Int

/-!
# Counting loops

A loop counts a variable up from zero.  Its rule follows from those for structured programs,
and what they say of a program holds of its script.
-/

namespace Fip.Picol

open Structured

/-- `set x 0`, and `while {< $x n}` with the body and `set x [+ $x 1]`. -/
def counting (x : Name) (n : ℕ) (body : Prog Action Test) : Prog Action Test :=
  .seq (.act (.set x (.lit 0)))
    (.loop ⟨.lt, .var x, .lit (BitVec.ofNat 32 n)⟩
      (.seq body (.act (.set x (.op .add (.var x) (.lit 1))))))

/-- The state with another value in a variable. -/
def Env.set (s : Env) (x : Name) (v : Long) : Env :=
  { s with vars := Function.update s.vars x (some v) }

variable {s : Env} {i : Interp} {x : Name} {n k : ℕ} {p body : Prog Action Test} {v : Long}
  {pre : Env → Prop} {post : Exit Error → Env → Prop}

@[simp]
theorem vars_set (s : Env) (x : Name) (v : Long) : (s.set x v).vars x = some v := by
  change Function.update s.vars x (some v) x = some v
  rw [Function.update_self]

theorem act_set {e : Expr} (he : e.eval s = .ok v) :
    meaning.act (.set x e) s = .ok (s.set x v) := by
  simp only [meaning, he]
  rfl

theorem toInt_ofNat (hn : n < 2 ^ 31) : (BitVec.ofNat 32 n).toInt = n := by
  have hnat : (BitVec.ofNat 32 n).toNat = n := by
    rw [BitVec.toNat_ofNat]
    exact Nat.mod_eq_of_lt (by omega)
  rw [BitVec.toInt_eq_toNat_of_lt (by omega), hnat]

/-- The test compares the counter with the bound. -/
theorem test_counting (hn : n < 2 ^ 31) (hk : k < 2 ^ 31)
    (hx : s.vars x = some (BitVec.ofNat 32 k)) :
    meaning.test ⟨.lt, .var x, .lit (BitVec.ofNat 32 n)⟩ s = .ok (decide (k < n)) := by
  have hslt : (BitVec.ofNat 32 k).slt (BitVec.ofNat 32 n) = decide (k < n) := by
    rw [BitVec.slt, toInt_ofNat hk, toInt_ofNat hn]
    simp
  have hvalue : Test.eval s ⟨.lt, .var x, .lit (BitVec.ofNat 32 n)⟩ =
      .ok (ofBool (decide (k < n))) := by
    simp only [Test.eval, Expr.eval, hx, Op.apply, ← hslt]
    rfl
  simp only [meaning, hvalue]
  by_cases hlt : k < n
  · simp only [hlt, decide_true]
    rfl
  · simp only [hlt, decide_false]
    rfl

theorem eval_succ (hx : s.vars x = some (BitVec.ofNat 32 k)) :
    (Expr.op .add (.var x) (.lit 1)).eval s = .ok (BitVec.ofNat 32 (k + 1)) := by
  simp only [Expr.eval, hx]
  exact congrArg Except.ok (BitVec.ofNat_add k 1).symm

/-- The rule for counting loops: the body takes what holds for a number to what holds for the
next, and leaves the counter alone. -/
theorem triple_counting (inv : ℕ → Env → Prop) (hn : n < 2 ^ 31)
    (hset : ∀ k s v, inv k s → inv k (s.set x v))
    (hbody : ∀ k < n, Triple meaning (fun s => inv k s ∧ s.vars x = some (BitVec.ofNat 32 k))
      body fun e s => e = .done ∧ inv (k + 1) s ∧ s.vars x = some (BitVec.ofNat 32 k)) :
    Triple meaning (inv 0) (counting x n body)
      fun e s => e = .done ∧ inv n s ∧ s.vars x = some (BitVec.ofNat 32 n) := by
  let counted : Env → Prop := fun s =>
    ∃ k ≤ n, inv k s ∧ s.vars x = some (BitVec.ofNat 32 k)
  let counter : Env → ℕ := fun s => n - ((s.vars x).getD 0).toNat
  have hcounter : ∀ k ≤ n, ∀ s : Env, s.vars x = some (BitVec.ofNat 32 k) →
      counter s = n - k := by
    intro k hk s hx
    have hmod : k % 2 ^ 32 = k := Nat.mod_eq_of_lt (by omega)
    simp only [counter, hx, Option.getD_some, BitVec.toNat_ofNat, hmod]
  refine Triple.seq (Triple.act fun s hs => ⟨s.set x 0, act_set rfl, fun _ => ?_, ?_⟩)
    (Triple.loop counter counted ?_ fun m => ?_)
  · exact ⟨0, Nat.zero_le n, hset 0 s 0 hs, vars_set s x 0⟩
  · exact fun hne => absurd rfl hne
  · rintro s ⟨k, hk, hinv, hx⟩
    refine ⟨decide (k < n), test_counting hn (by omega) hx, fun hge => ?_⟩
    obtain rfl : k = n := Nat.le_antisymm hk (Nat.not_lt.mp (of_decide_eq_false hge))
    exact ⟨rfl, hinv, hx⟩
  · rintro s ⟨⟨k, hk, hinv, hx⟩, htest, hm⟩
    rw [test_counting hn (by omega) hx] at htest
    have hlt : k < n := of_decide_eq_true (Except.ok.inj htest)
    obtain ⟨e, s', hexec, rfl, hnext, hx'⟩ := hbody k hlt s ⟨hinv, hx⟩
    refine ⟨.done, s'.set x (BitVec.ofNat 32 (k + 1)), .seq hexec (.act (act_set (eval_succ hx'))),
      fun _ => ?_, nofun, nofun⟩
    have hagain : (s'.set x (BitVec.ofNat 32 (k + 1))).vars x = some (BitVec.ofNat 32 (k + 1)) :=
      vars_set s' x _
    refine ⟨⟨k + 1, hlt, hset _ s' _ hnext, hagain⟩, ?_⟩
    rw [hcounter (k + 1) hlt _ hagain, ← hm, hcounter k hk s hx]
    omega

/-- What the rules show of a program holds of its script: it returns, and behind it the
postcondition holds. -/
theorem eval_of_triple (htriple : Triple meaning pre p post) (hs : Agrees s i) (hpre : pre s) :
    ∃ x s' j, post x s' ∧ Agrees s' j ∧
      ∃ depth, picolEval depth i (script p) = some (.ok (codeOf x, j)) := by
  obtain ⟨x, s', hexec, hpost⟩ := htriple s hpre
  obtain ⟨j, ⟨hj, -⟩, depth, hsome⟩ := (simulates hexec).1.runs i hs
  exact ⟨x, s', j, hpost, hj, depth, hsome⟩

/-- The script of a counting loop returns, with what the rule says of its body. -/
theorem eval_counting (inv : ℕ → Env → Prop) (hn : n < 2 ^ 31)
    (hset : ∀ k s v, inv k s → inv k (s.set x v))
    (hbody : ∀ k < n, Triple meaning (fun s => inv k s ∧ s.vars x = some (BitVec.ofNat 32 k))
      body fun e s => e = .done ∧ inv (k + 1) s ∧ s.vars x = some (BitVec.ofNat 32 k))
    (hs : Agrees s i) (hinv : inv 0 s) :
    ∃ s' j depth, picolEval depth i (script (counting x n body)) = some (.ok (.ok, j)) ∧
      Agrees s' j ∧ inv n s' ∧ s'.vars x = some (BitVec.ofNat 32 n) := by
  obtain ⟨e, s', j, ⟨rfl, hn', hx⟩, hj, depth, hsome⟩ :=
    eval_of_triple (triple_counting inv hn hset hbody) hs hinv
  exact ⟨s', j, depth, hsome, hj, hn', hx⟩

/-- The variable `i`. -/
def counter : Name := ⟨['i'], by decide, List.all_eq_true.mp rfl⟩

/-- The numbers below five are printed. -/
theorem eval_counting_puts :
    ∃ j depth, picolEval depth started (script (counting counter 5
      (.act (.puts (.var counter))))) = some (.ok (.ok, j)) ∧
        j.out = "0\n1\n2\n3\n4\n".toList := by
  let printed : ℕ → List Char := fun k =>
    (List.range k).flatMap fun m => showLong (BitVec.ofNat 32 m) ++ ['\n']
  have hbody : ∀ k < 5, Triple meaning (fun s => s.out = printed k ∧
      s.vars counter = some (BitVec.ofNat 32 k))
      (.act (.puts (.var counter))) fun e s => e = .done ∧
        s.out = printed (k + 1) ∧
          s.vars counter = some (BitVec.ofNat 32 k) := by
    rintro k - s ⟨hout, hx⟩
    refine ⟨.done, { s with out := s.out ++ showLong (BitVec.ofNat 32 k) ++ ['\n'] }, .act ?_,
      rfl, ?_, hx⟩
    · simp only [meaning, Expr.eval, hx]
      rfl
    · change s.out ++ showLong (BitVec.ofNat 32 k) ++ ['\n'] = printed (k + 1)
      rw [hout]
      simp only [printed, List.range_succ, List.flatMap_append, List.flatMap_singleton,
        List.append_assoc]
  obtain ⟨s', j, depth, hsome, hj, hout, -⟩ := eval_counting (fun k s => s.out = printed k)
    (by decide) (fun _ _ _ hinv => hinv) hbody agrees_started rfl
  have hprinted : printed 5 = "0\n1\n2\n3\n4\n".toList := by decide +kernel
  exact ⟨j, depth, hsome, (hj.out.trans hout).trans hprinted⟩

end Fip.Picol
