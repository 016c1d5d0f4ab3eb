import Fip.Picol.Simulation

/-!
# What the interpreter returns is what the program does

The other direction: if the interpreter returns from a script, the program ends.  The
induction is on the depth of the calls.
-/

namespace Fip.Picol

open Nesting Structured Unfolding

variable {s s' : Env} {i j : Interp} {request : Request} {code : Code} {reply : Reply}
  {depth : ℕ} {b : Test} {p q : Prog Action Test} {x : Exit Error} {text : List Char}

/-- An answer at a depth is the one that there is at all. -/
theorem unfolded_eq (hreturns : Returns request reply)
    (hnone : unfolded respond depth request ≠ none) :
    unfolded respond depth request = some reply := by
  obtain ⟨reply', hreply'⟩ := Option.ne_none_iff_exists'.mp hnone
  rw [hreply', Unfolding.Returns.unique respond_mono ⟨depth, hreply'⟩ hreturns]

/-- Behind a call that returns `PICOL_OK`, the rest has returned as well. -/
theorem then_of_onOk {next : Interp → Option Reply} (hreturns : Returns request (.ok (.ok, j)))
    (hsome : onOk (unfolded respond depth request) next = some reply) : next j = some reply := by
  have hnone : unfolded respond depth request ≠ none := by
    intro hnone
    rw [hnone] at hsome
    cases hsome
  rw [unfolded_eq hreturns hnone] at hsome
  exact hsome

theorem next_of_onReply {next : Code → Interp → Option Reply}
    (hreturns : Returns request (.ok (code, j)))
    (hsome : onReply (unfolded respond depth request) next = some reply) :
    next code j = some reply := by
  have hnone : unfolded respond depth request ≠ none := by
    intro hnone
    rw [hnone] at hsome
    cases hsome
  rw [unfolded_eq hreturns hnone] at hsome
  exact hsome

/-- Where the interpreter has an answer for the script at this depth, the program ends. -/
def Ended (depth : ℕ) : Prop :=
  ∀ p s i r token reply, Agrees s i → Stops r →
    unfolded respond depth (.tokens i ⟨script p ++ r, token, .eol, false⟩ []) = some reply →
    ∃ x s', Exec meaning p s x s'

theorem ended_eval (hended : ∀ less < depth, Ended less) (hs : Agrees s i)
    (hsome : unfolded respond depth (.eval i (script p)) = some reply) :
    ∃ x s', Exec meaning p s x s' := by
  cases depth with
  | zero => cases hsome
  | succ depth =>
      refine hended depth (Nat.lt_succ_self _) p s _ [] [] reply (hs.setResult []) (.inl rfl) ?_
      rw [List.append_nil]
      exact hsome

/-- A loop: its body has returned each time. -/
theorem ended_loop (hended : ∀ less < depth, Ended less) (hs : Agrees s i)
    (hsome : unfolded respond depth (.loop i ["while".toList, b.text, script p]) = some reply) :
    ∃ x s', Exec meaning (.loop b p) s x s' := by
  induction depth using Nat.strongRecOn generalizing s i reply with
  | ind depth ih =>
      cases depth with
      | zero => cases hsome
      | succ depth =>
          have hbody : ∀ less < depth, Ended less := fun less hless =>
            hended less (hless.trans (Nat.lt_succ_self _))
          change whileBody (unfolded respond depth) i ["while".toList, b.text, script p] = _
            at hsome
          cases htest : meaning.test b s with
          | error err => exact ⟨_, s, .loopFails htest⟩
          | ok c =>
              cases c with
              | false => exact ⟨_, s, .loopEnds htest⟩
              | true =>
                  obtain ⟨j, hj, hiff, hreturns⟩ := hasResult_true hs htest
                  have hafter := then_of_onOk hreturns hsome
                  rw [if_pos hiff] at hafter
                  have hnone : unfolded respond depth (.eval j (script p)) ≠ none := by
                    intro hnone
                    change onReply (unfolded respond depth (.eval j (script p))) _ = _ at hafter
                    rw [hnone] at hafter
                    cases hafter
                  obtain ⟨reply', hreply'⟩ := Option.ne_none_iff_exists'.mp hnone
                  obtain ⟨x, s', hexec⟩ := ended_eval hbody hj hreply'
                  obtain ⟨k, ⟨hk, -⟩, hruns⟩ := (simulates hexec).1.runs j hj
                  have hnext := next_of_onReply hruns hafter
                  cases x with
                  | broke => exact ⟨_, s', .loopBreaks htest hexec⟩
                  | failed err => exact ⟨_, s', .loopExits htest hexec⟩
                  | done =>
                      obtain ⟨y, s'', hloop⟩ := ih depth (Nat.lt_succ_self _) hbody hk
                        ((if_pos (.inr rfl)).symm.trans hnext)
                      exact ⟨y, s'', .loopAgain htest hexec (.inl rfl) hloop⟩
                  | continued =>
                      obtain ⟨y, s'', hloop⟩ := ih depth (Nat.lt_succ_self _) hbody hk
                        ((if_pos (.inl rfl)).symm.trans hnext)
                      exact ⟨y, s'', .loopAgain htest hexec (.inr rfl) hloop⟩

/-- A command in the script has returned, at a smaller depth. -/
theorem exists_callFunc {request : Request} {name : String} {args : List (List Char)} {f : Func}
    {r token : List Char} (hs : Agrees s i) (hr : Stops r) (hcore : (name, f) ∈ coreCommands)
    (hleads : Leads request (.tokens i ⟨r, token, .str, false⟩ (name.toList :: args)))
    (hsome : unfolded respond depth request = some reply) :
    ∃ less < depth, ∃ reply', callFunc (unfolded respond less) i (name.toList :: args) f =
      some reply' := by
  obtain ⟨less, hless, hsome⟩ := hleads.back depth reply hsome
  obtain ⟨token', hp⟩ := getToken_stops token hr (by decide : TokenType.str ≠ .eol ∧ _)
  obtain ⟨least, hleast, hcalls⟩ := exists_calls hp rfl (hs.core name f hcore) hsome
  exact ⟨least, hleast.trans hless, hcalls⟩

theorem ended (depth : ℕ) : Ended depth := by
  induction depth using Nat.strongRecOn with
  | ind depth ih =>
      intro p
      induction p with
      | act a =>
          intro s _ _ _ _ _ _ _
          cases hact : meaning.act a s with
          | ok s' => exact ⟨_, s', .act hact⟩
          | error err => exact ⟨_, s, .actFails hact⟩
      | brk => exact fun s _ _ _ _ _ _ _ => ⟨_, s, .brk⟩
      | cont => exact fun s _ _ _ _ _ _ _ => ⟨_, s, .cont⟩
      | seq p q hp _ =>
          intro s i r token reply hs hr hsome
          rw [script_seq] at hsome
          have hstops : Stops ('\n' :: (script q ++ r)) := .inr ⟨_, rfl⟩
          obtain ⟨x, s', hexec⟩ := hp s i _ token reply hs hstops hsome
          by_cases hx : x = .done
          · subst hx
            obtain ⟨j, ⟨hj, -⟩, hfirst⟩ := (simulates hexec).1 i _ token hs hstops
            obtain ⟨token', hleads⟩ := (if_pos rfl).mp hfirst
            have hnext : nextLine ('\n' :: (script q ++ r)) = script q ++ r :=
              ((solid_script q).append r).dropEnds
            rw [hnext] at hleads
            obtain ⟨less, hless, hrest⟩ := hleads.back depth reply hsome
            obtain ⟨y, s'', hq⟩ := ih less hless q s' j r token' reply hj hr hrest
            exact ⟨y, s'', .seq hexec hq⟩
          · exact ⟨x, s', .seqExits hexec hx⟩
      | when b p _ =>
          intro s i r token reply hs hr hsome
          obtain ⟨less, hless, reply', hcalls⟩ := exists_callFunc hs hr
            (by decide : ("if", Func.if) ∈ coreCommands)
            (leads_control "if" (by decide) (List.all_eq_true.mp (by decide)) i b p r token) hsome
          cases htest : meaning.test b s with
          | error err => exact ⟨_, s, .whenFails htest⟩
          | ok c =>
              cases c with
              | false => exact ⟨_, s, .whenNot htest⟩
              | true =>
                  obtain ⟨j, hj, hiff, hreturns⟩ := hasResult_true hs htest
                  rw [congrFun (callFunc_if i (.inl rfl)) (unfolded respond less)] at hcalls
                  have hbody := then_of_onOk hreturns hcalls
                  rw [if_pos hiff] at hbody
                  obtain ⟨x, s', hexec⟩ :=
                    ended_eval (fun least hleast => ih least (hleast.trans hless)) hj hbody
                  exact ⟨x, s', .when htest hexec⟩
      | cond b p q _ _ =>
          intro s i r token reply hs hr hsome
          obtain ⟨less, hless, reply', hcalls⟩ := exists_callFunc hs hr
            (by decide : ("if", Func.if) ∈ coreCommands) (leads_ifElse i b p q r token) hsome
          have hended : ∀ least < less, Ended least :=
            fun least hleast => ih least (hleast.trans hless)
          rw [congrFun (callFunc_if i (.inr rfl)) (unfolded respond less)] at hcalls
          cases htest : meaning.test b s with
          | error err => exact ⟨_, s, .condFails htest⟩
          | ok c =>
              cases c with
              | false =>
                  obtain ⟨j, hj, hzero, hreturns⟩ := hasResult_false hs htest
                  have hbody := then_of_onOk hreturns hcalls
                  simp only [hzero] at hbody
                  obtain ⟨x, s', hexec⟩ := ended_eval hended hj hbody
                  exact ⟨x, s', .condFalse htest hexec⟩
              | true =>
                  obtain ⟨j, hj, hiff, hreturns⟩ := hasResult_true hs htest
                  have hbody := then_of_onOk hreturns hcalls
                  rw [if_pos hiff] at hbody
                  obtain ⟨x, s', hexec⟩ := ended_eval hended hj hbody
                  exact ⟨x, s', .condTrue htest hexec⟩
      | loop b p _ =>
          intro s i r token reply hs hr hsome
          obtain ⟨less, hless, reply', hcalls⟩ := exists_callFunc hs hr
            (by decide : ("while", Func.while) ∈ coreCommands)
            (leads_control "while" (by decide) (List.all_eq_true.mp (by decide)) i b p r token)
            hsome
          exact ended_loop (fun least hleast => ih least (hleast.trans hless)) hs hcalls

/-- The interpreter returns from the script of a program if and only if the program ends, and
then with the return code of its exit, the values of its variables and its output. -/
theorem eval_script (hs : Agrees s i) (p : Prog Action Test) :
    ((∃ depth reply, picolEval depth i (script p) = some reply) ↔
      ∃ x s', Exec meaning p s x s') ∧
      ∀ x s', Exec meaning p s x s' → ∃ j, Agrees s' j ∧
        (∀ err, x = .failed err → j.result = err.text) ∧
        ∀ depth reply, picolEval depth i (script p) = some reply →
          reply = .ok (codeOf x, j) := by
  refine ⟨⟨?_, ?_⟩, ?_⟩
  · rintro ⟨depth, reply, hsome⟩
    exact ended_eval (fun less _ => ended less) hs hsome
  · rintro ⟨x, s', hexec⟩
    obtain ⟨j, -, depth, hsome⟩ := (simulates hexec).1.runs i hs
    exact ⟨depth, _, hsome⟩
  · intro x s' hexec
    obtain ⟨j, ⟨hj, herr⟩, hreturns⟩ := (simulates hexec).1.runs i hs
    exact ⟨j, hj, herr, fun depth reply hsome =>
      Unfolding.Returns.unique respond_mono ⟨depth, hsome⟩ hreturns⟩

theorem eval_script_when :
    ∃ depth reply, picolEval depth started
      (script (.when ⟨.lt, .lit 1, .lit 2⟩ (.act (.puts (.lit 3))))) = some reply :=
  ((eval_script agrees_started _).1).mpr ⟨.done, ⟨fun _ => none, "3\n".toList⟩,
    .when rfl (.act rfl)⟩

end Fip.Picol
