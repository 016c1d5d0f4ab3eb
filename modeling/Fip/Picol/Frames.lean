import Fip.Picol.Eval
import Mathlib.Data.List.Infix

/-!
# What a script cannot do

Whatever a script evaluates, the call frames of its callers stay as they are, no command
is taken away or given another meaning, and the interpreter only ever stops because its
parser stepped over the end of a text.
-/

namespace Fip.Picol

open Unfolding

section Replies

variable {reply reply' : Option Reply} {next next' : Code → Interp → Option Reply}
  {then' then'' : Interp → Option Reply} {answer : Reply}

theorem onReply_eq_some :
    onReply reply next = some answer ↔
      (∃ stop, reply = some (.error stop) ∧ answer = .error stop) ∨
        ∃ code i, reply = some (.ok (code, i)) ∧ next code i = some answer := by
  rcases reply with _ | stop | ⟨code, i⟩
  · simp [onReply]
  · simp [onReply, eq_comm]
  · simp [onReply]

theorem onReply_mono (hreply : ∀ b, reply = some b → reply' = some b)
    (hnext : ∀ code i b, next code i = some b → next' code i = some b)
    (hsome : onReply reply next = some answer) : onReply reply' next' = some answer := by
  rw [onReply_eq_some] at hsome ⊢
  rcases hsome with ⟨stop, hstop, hanswer⟩ | ⟨code, i, hok, hanswer⟩
  · exact .inl ⟨stop, hreply _ hstop, hanswer⟩
  · exact .inr ⟨code, i, hreply _ hok, hnext code i _ hanswer⟩

theorem onOk_mono (hreply : ∀ b, reply = some b → reply' = some b)
    (hthen : ∀ i b, then' i = some b → then'' i = some b)
    (hsome : onOk reply then' = some answer) : onOk reply' then'' = some answer := by
  refine onReply_mono hreply ?_ hsome
  intro code i b hb
  by_cases hcode : code = .ok
  · rw [if_neg (not_not.mpr hcode)] at hb ⊢
    exact hthen i b hb
  · rw [if_pos hcode] at hb ⊢
    exact hb

end Replies

section Monotone

variable {f g : Request → Option Reply} (hbelow : Below f g) {i : Interp}
  {argv : List (List Char)} {answer : Reply}
include hbelow

theorem picolCommandIf_mono (hsome : picolCommandIf f i argv = some answer) :
    picolCommandIf g i argv = some answer := by
  unfold picolCommandIf at hsome ⊢
  by_cases hargc : argv.length ≠ 3 ∧ argv.length ≠ 5
  · rw [if_pos hargc] at hsome ⊢
    exact hsome
  · rw [if_neg hargc] at hsome ⊢
    refine onOk_mono (hbelow _) ?_ hsome
    intro i b hb
    split_ifs at hb ⊢
    · exact hbelow _ _ hb
    · exact hbelow _ _ hb
    · exact hb

theorem whileBody_mono (hsome : whileBody f i argv = some answer) :
    whileBody g i argv = some answer := by
  refine onOk_mono (hbelow _) ?_ hsome
  intro i b hb
  split_ifs at hb ⊢
  · refine onReply_mono (hbelow _) ?_ hb
    intro retcode i b hb
    split_ifs at hb ⊢
    · exact hbelow _ _ hb
    · exact hb
    · exact hb
  · exact hb

theorem callFunc_mono (func : Func) (hsome : callFunc f i argv func = some answer) :
    callFunc g i argv func = some answer := by
  cases func with
  | «if» => exact picolCommandIf_mono hbelow hsome
  | «while» =>
      rw [callFunc, picolCommandWhile] at hsome ⊢
      split_ifs at hsome ⊢
      · exact hsome
      · exact hbelow _ _ hsome
  | callProc alist body =>
      rw [callFunc, picolCommandCallProc] at hsome ⊢
      rcases hbound : bindArgs (alist.length + 1) (pushCallFrame i) argv.tail alist with
        ⟨bound, arityerr⟩
      rw [hbound] at hsome
      cases arityerr with
      | true => exact hsome
      | false => exact onReply_mono (hbelow _) (fun _ _ _ hb => hb) hsome
  | _ => exact hsome

theorem addToken_mono {prevtype : TokenType} {p : Parser} {t : List Char}
    (hsome : addToken f i prevtype p argv t = some answer) :
    addToken g i prevtype p argv t = some answer := by
  unfold addToken at hsome ⊢
  split_ifs at hsome ⊢
  · exact hbelow _ _ hsome
  · cases hlast : argv.getLast? with
    | none =>
        rw [hlast] at hsome
        exact hsome
    | some arg =>
        rw [hlast] at hsome
        exact hbelow _ _ hsome

theorem runCommand_mono {p : Parser} (hsome : runCommand f i p argv = some answer) :
    runCommand g i p argv = some answer := by
  cases argv with
  | nil => exact hbelow _ _ hsome
  | cons name argv =>
      rw [runCommand] at hsome ⊢
      cases hcommand : picolGetCommand i name with
      | none =>
          rw [hcommand] at hsome
          exact hsome
      | some c =>
          rw [hcommand] at hsome
          exact onOk_mono (fun _ => callFunc_mono hbelow c.func) (fun _ _ => hbelow _ _) hsome

theorem tokenBody_mono {p : Parser} (hsome : tokenBody f i p argv = some answer) :
    tokenBody g i p argv = some answer := by
  unfold tokenBody at hsome ⊢
  dsimp only at hsome ⊢
  cases hp : picolGetToken p with
  | none =>
      rw [hp] at hsome
      exact hsome
  | some p' =>
      rw [hp] at hsome
      dsimp only at hsome ⊢
      cases htype : p'.type with
      | eof =>
          rw [htype] at hsome
          exact hsome
      | var =>
          rw [htype] at hsome
          dsimp only at hsome ⊢
          cases hvar : picolGetVar i p'.token with
          | none =>
              rw [hvar] at hsome
              exact hsome
          | some v =>
              rw [hvar] at hsome
              exact addToken_mono hbelow hsome
      | cmd =>
          rw [htype] at hsome
          exact onOk_mono (hbelow _) (fun _ _ => addToken_mono hbelow) hsome
      | sep =>
          rw [htype] at hsome
          exact hbelow _ _ hsome
      | eol =>
          rw [htype] at hsome
          exact runCommand_mono hbelow hsome
      | esc =>
          rw [htype] at hsome
          exact addToken_mono hbelow hsome
      | str =>
          rw [htype] at hsome
          exact addToken_mono hbelow hsome

end Monotone

theorem respond_mono : Monotonic respond := by
  intro f g hbelow request answer hsome
  cases request with
  | eval i t => exact hbelow _ _ hsome
  | tokens i p argv => exact tokenBody_mono hbelow hsome
  | loop i argv => exact whileBody_mono hbelow hsome

/-- What a call of the interpreter keeps: the call frames of its callers, the commands that
there are, and the variables that are set, though not their values. -/
structure Kept (i j : Interp) : Prop where
  parents : j.parents = i.parents
  commands : ∀ name c, picolGetCommand i name = some c → picolGetCommand j name = some c
  names : i.callframe.vars.map Var.name <:+ j.callframe.vars.map Var.name

theorem Kept.refl (i : Interp) : Kept i i :=
  ⟨rfl, fun _ _ hc => hc, List.suffix_refl _⟩

theorem Kept.trans {i j k : Interp} (hij : Kept i j) (hjk : Kept j k) : Kept i k :=
  ⟨hjk.parents.trans hij.parents, fun name c hc => hjk.commands name c (hij.commands name c hc),
    hij.names.trans hjk.names⟩

theorem kept_setResult (i : Interp) (s : List Char) : Kept i (picolSetResult i s) :=
  ⟨rfl, fun _ _ hc => hc, List.suffix_refl _⟩

theorem map_name_assign (name val : List Char) (vars : List Var) :
    (assign name val vars).map Var.name = vars.map Var.name := by
  induction vars with
  | nil => rfl
  | cons v vars ih =>
      rw [assign]
      split_ifs with hname
      · rfl
      · rw [List.map_cons, ih, List.map_cons]

theorem kept_setVar (i : Interp) (name val : List Char) : Kept i (picolSetVar i name val) := by
  unfold picolSetVar
  cases picolGetVar i name with
  | none => exact ⟨rfl, fun _ _ hc => hc, List.suffix_cons _ _⟩
  | some v =>
      refine ⟨rfl, fun _ _ hc => hc, ?_⟩
      dsimp only
      rw [map_name_assign]

theorem kept_registerCommand (i : Interp) (name : List Char) (f : Func) :
    Kept i (picolRegisterCommand i name f).2 := by
  unfold picolRegisterCommand
  cases hnew : picolGetCommand i name with
  | some c => exact kept_setResult _ _
  | none =>
      refine ⟨rfl, fun name' c hc => ?_, List.suffix_refl _⟩
      have hne : name ≠ name' := by
        rintro rfl
        rw [hnew] at hc
        cases hc
      rw [picolGetCommand, List.find?_cons_of_neg (by simpa using hne)]
      exact hc

/-- A call that begins with this interpreter keeps what it has to, or stops where the
parser stepped over the end of a text. -/
def Sound (i : Interp) : Reply → Prop
  | .ok (_, j) => Kept i j
  | .error stop => stop = .overrun

theorem Sound.of_kept {i j : Interp} {reply : Reply} (hij : Kept i j) (hsound : Sound j reply) :
    Sound i reply := by
  rcases reply with stop | ⟨code, k⟩
  · exact hsound
  · exact hij.trans hsound

/-- The interpreter of a request. -/
def Request.interp : Request → Interp
  | .eval i _ => i
  | .tokens i _ _ => i
  | .loop i _ => i

/-- The loop of `picolEval` is in a word only if there is one. -/
def Request.Begun : Request → Prop
  | .tokens _ p argv => p.type = .sep ∨ p.type = .eol ∨ argv ≠ []
  | _ => True

section Sound

variable {call : Request → Option Reply}
  (hcall : ∀ request reply, call request = some reply → request.Begun →
    Sound request.interp reply)
  {i : Interp} {argv : List (List Char)} {reply : Reply}

theorem sound_onReply {first : Option Reply} {next : Code → Interp → Option Reply}
    (hsome : onReply first next = some reply) (hfirst : ∀ b, first = some b → Sound i b)
    (hnext : ∀ code j b, next code j = some b → Sound j b) : Sound i reply := by
  rcases onReply_eq_some.mp hsome with ⟨stop, hstop, rfl⟩ | ⟨code, j, hok, hreply⟩
  · exact hfirst _ hstop
  · have hij : Kept i j := hfirst _ hok
    exact (hnext code j _ hreply).of_kept hij

theorem sound_onOk {first : Option Reply} {next : Interp → Option Reply}
    (hsome : onOk first next = some reply) (hfirst : ∀ b, first = some b → Sound i b)
    (hnext : ∀ j b, next j = some b → Sound j b) : Sound i reply := by
  refine sound_onReply hsome hfirst ?_
  intro code j b hb
  split_ifs at hb
  · obtain rfl := Option.some.inj hb
    exact Kept.refl j
  · exact hnext j b hb

theorem sound_arityErr (name : List Char) (hsome : some (.ok (picolArityErr i name)) = some reply) :
    Sound i reply := by
  obtain rfl := Option.some.inj hsome
  exact kept_setResult i _

theorem kept_bindArgs (rounds : ℕ) (i : Interp) (args : List (List Char)) (p : List Char) :
    Kept i (bindArgs rounds i args p).1 := by
  induction rounds generalizing i args p with
  | zero => exact Kept.refl i
  | succ rounds ih =>
      unfold bindArgs
      dsimp only
      rcases p.dropWhile (· != ' ') with _ | ⟨c, rest⟩ <;> dsimp only <;> split_ifs
      · exact Kept.refl i
      · cases args with
        | nil => exact Kept.refl i
        | cons arg args => exact kept_setVar i _ arg
      · exact ih i args rest
      · cases args with
        | nil => exact Kept.refl i
        | cons arg args => exact (kept_setVar i _ arg).trans (ih _ args rest)

/-- Behind a procedure the frame of its caller is as it was. -/
theorem dropped_eq {bound j : Interp} (hbound : Kept (pushCallFrame i) bound) (hj : Kept bound j)
    (code : Code) :
    dropped code j = .ok (code, { j with callframe := i.callframe, parents := i.parents }) := by
  have hparents : j.parents = i.callframe :: i.parents := hj.parents.trans hbound.parents
  rw [dropped, picolDropCallFrame, hparents]

theorem kept_dropped {bound j : Interp} (hbound : Kept (pushCallFrame i) bound)
    (hj : Kept bound j) :
    Kept i { j with callframe := i.callframe, parents := i.parents } :=
  ⟨rfl, fun name c hc => hj.commands name c (hbound.commands name c hc), List.suffix_refl _⟩

include hcall

theorem sound_callProc {alist body : List Char}
    (hsome : picolCommandCallProc call i argv alist body = some reply) : Sound i reply := by
  rw [picolCommandCallProc] at hsome
  have hbound := kept_bindArgs (alist.length + 1) (pushCallFrame i) argv.tail alist
  rcases hargs : bindArgs (alist.length + 1) (pushCallFrame i) argv.tail alist with
    ⟨bound, arityerr⟩
  rw [hargs] at hsome hbound
  cases arityerr with
  | true =>
      have hj := kept_setResult bound
        (errbuf ("Proc '".toList ++ argv.headD [] ++ "' called with wrong arg num".toList))
      obtain rfl := Option.some.inj hsome
      rw [dropped_eq hbound hj]
      exact kept_dropped hbound hj
  | false =>
      rcases onReply_eq_some.mp hsome with ⟨stop, hstop, rfl⟩ | ⟨code, j, hok, hdropped⟩
      · exact hcall _ _ hstop trivial
      · have hj : Kept bound j := hcall _ _ hok trivial
        obtain rfl := Option.some.inj hdropped
        rw [dropped_eq hbound hj]
        exact kept_dropped hbound hj

theorem sound_if (hsome : picolCommandIf call i argv = some reply) : Sound i reply := by
  unfold picolCommandIf at hsome
  by_cases hargc : argv.length ≠ 3 ∧ argv.length ≠ 5
  · rw [if_pos hargc] at hsome
    exact sound_arityErr _ hsome
  · rw [if_neg hargc] at hsome
    refine sound_onOk hsome (fun b hb => hcall _ b hb trivial) ?_
    intro j b hb
    split_ifs at hb
    · exact hcall _ b hb trivial
    · exact hcall _ b hb trivial
    · obtain rfl := Option.some.inj hb
      exact Kept.refl j

theorem sound_whileBody (hsome : whileBody call i argv = some reply) : Sound i reply := by
  refine sound_onOk hsome (fun b hb => hcall _ b hb trivial) ?_
  intro j b hb
  split_ifs at hb
  · refine sound_onReply hb (fun b hb => hcall _ b hb trivial) ?_
    intro retcode k b hb
    split_ifs at hb
    · exact hcall _ b hb trivial
    · obtain rfl := Option.some.inj hb
      exact Kept.refl k
    · obtain rfl := Option.some.inj hb
      exact Kept.refl k
  · obtain rfl := Option.some.inj hb
    exact Kept.refl j

theorem sound_callFunc (func : Func) (hsome : callFunc call i argv func = some reply) :
    Sound i reply := by
  cases func with
  | «if» => exact sound_if hcall hsome
  | «while» =>
      rw [callFunc, picolCommandWhile] at hsome
      split_ifs at hsome
      · exact sound_arityErr _ hsome
      · exact hcall _ _ hsome trivial
  | callProc alist body => exact sound_callProc hcall hsome
  | math =>
      obtain rfl := Option.some.inj hsome
      unfold picolCommandMath
      split
      · dsimp only
        split_ifs <;> exact kept_setResult i _
      · exact kept_setResult i _
  | set =>
      obtain rfl := Option.some.inj hsome
      unfold picolCommandSet
      split
      · exact (kept_setVar i _ _).trans (kept_setResult _ _)
      · exact kept_setResult i _
  | puts =>
      obtain rfl := Option.some.inj hsome
      unfold picolCommandPuts
      split
      · exact ⟨rfl, fun _ _ hc => hc, List.suffix_refl _⟩
      · exact kept_setResult i _
  | retCodes =>
      obtain rfl := Option.some.inj hsome
      unfold picolCommandRetCodes
      split
      · split_ifs <;> exact Kept.refl i
      · exact kept_setResult i _
  | proc =>
      obtain rfl := Option.some.inj hsome
      unfold picolCommandProc
      split
      · exact kept_registerCommand i _ _
      · exact kept_setResult i _
  | ret =>
      obtain rfl := Option.some.inj hsome
      unfold picolCommandReturn
      split <;> exact kept_setResult i _

theorem sound_addToken {prevtype : TokenType} {p : Parser} {t : List Char}
    (hbegun : prevtype = .sep ∨ prevtype = .eol ∨ argv ≠ [])
    (hsome : addToken call i prevtype p argv t = some reply) : Sound i reply := by
  unfold addToken at hsome
  split_ifs at hsome with hprev
  · exact hcall _ _ hsome (.inr (.inr (by simp)))
  · rcases hlast : argv.getLast? with _ | arg
    · have hne : argv ≠ [] := (or_assoc.mpr hbegun).resolve_left hprev
      exact absurd (List.getLast?_eq_none_iff.mp hlast) hne
    · rw [hlast] at hsome
      exact hcall _ _ hsome (.inr (.inr (by simp)))

theorem sound_runCommand {p : Parser} (hp : p.type = .eol)
    (hsome : runCommand call i p argv = some reply) : Sound i reply := by
  cases argv with
  | nil => exact hcall _ _ hsome (.inr (.inl hp))
  | cons name argv =>
      rw [runCommand] at hsome
      cases hcommand : picolGetCommand i name with
      | none =>
          rw [hcommand] at hsome
          obtain rfl := Option.some.inj hsome
          exact kept_setResult i _
      | some c =>
          rw [hcommand] at hsome
          exact sound_onOk hsome (fun _ => sound_callFunc hcall c.func)
            fun _ b hb => hcall _ b hb (.inr (.inl hp))

theorem sound_tokenBody {p : Parser} (hbegun : p.type = .sep ∨ p.type = .eol ∨ argv ≠ [])
    (hsome : tokenBody call i p argv = some reply) : Sound i reply := by
  unfold tokenBody at hsome
  dsimp only at hsome
  cases hp : picolGetToken p with
  | none =>
      rw [hp] at hsome
      obtain rfl := Option.some.inj hsome
      rfl
  | some p' =>
      rw [hp] at hsome
      dsimp only at hsome
      cases htype : p'.type with
      | eof =>
          rw [htype] at hsome
          obtain rfl := Option.some.inj hsome
          exact Kept.refl i
      | var =>
          rw [htype] at hsome
          dsimp only at hsome
          cases hvar : picolGetVar i p'.token with
          | none =>
              rw [hvar] at hsome
              obtain rfl := Option.some.inj hsome
              exact kept_setResult i _
          | some v =>
              rw [hvar] at hsome
              exact sound_addToken hcall hbegun hsome
      | cmd =>
          rw [htype] at hsome
          exact sound_onOk hsome (fun b hb => hcall _ b hb trivial)
            fun _ _ => sound_addToken hcall hbegun
      | sep =>
          rw [htype] at hsome
          exact hcall _ _ hsome (.inl htype)
      | eol =>
          rw [htype] at hsome
          exact sound_runCommand hcall htype hsome
      | esc =>
          rw [htype] at hsome
          exact sound_addToken hcall hbegun hsome
      | str =>
          rw [htype] at hsome
          exact sound_addToken hcall hbegun hsome

end Sound

/-- The step lemma: a request is answered soundly if those that it makes are. -/
theorem sound_respond {call : Request → Option Reply}
    (hcall : ∀ request reply, call request = some reply → request.Begun →
      Sound request.interp reply)
    (request : Request) (reply : Reply) (hsome : respond call request = some reply)
    (hbegun : request.Begun) : Sound request.interp reply := by
  cases request with
  | eval i t =>
      exact (hcall _ _ hsome (.inr (.inl rfl))).of_kept (kept_setResult i [])
  | tokens i p argv => exact sound_tokenBody hcall hbegun hsome
  | loop i argv => exact sound_whileBody hcall hsome

theorem Returns.sound {request : Request} {reply : Reply} (hreturns : Returns request reply)
    (hbegun : request.Begun) : Sound request.interp reply :=
  Unfolding.Returns.rule (fun request reply => request.Begun → Sound request.interp reply)
    (fun _ hcall => sound_respond hcall) hreturns hbegun

/-- A variable that is set stays set. -/
theorem Kept.getVar {i j : Interp} (hij : Kept i j) {name : List Char}
    (hname : (picolGetVar i name).isSome) : (picolGetVar j name).isSome := by
  rw [picolGetVar, List.find?_isSome] at hname ⊢
  obtain ⟨v, hv, heq⟩ := hname
  have hmem := hij.names.subset (List.mem_map_of_mem hv)
  obtain ⟨v', hv', hsame⟩ := List.mem_map.mp hmem
  refine ⟨v', hv', ?_⟩
  rw [hsame]
  exact heq

/-- Behind any script the call frames of the callers are as they were, the commands are still
there with the same functions, and so are the variables; and a parser that stepped over the
end of a text is all that can stop the interpreter. -/
theorem eval_keeps {depth : ℕ} {i : Interp} {text : List Char} {reply : Reply}
    (hsome : picolEval depth i text = some reply) :
    (∀ stop, reply = .error stop → stop = .overrun) ∧
      ∀ code j, reply = .ok (code, j) →
        j.parents = i.parents ∧
          (∀ name c, picolGetCommand i name = some c → picolGetCommand j name = some c) ∧
          ∀ name, (picolGetVar i name).isSome → (picolGetVar j name).isSome := by
  have hreturns : Returns (.eval i text) reply := ⟨depth, hsome⟩
  have hsound := hreturns.sound trivial
  constructor
  · rintro stop rfl
    exact hsound
  · rintro code j rfl
    have hkept : Kept i j := hsound
    exact ⟨hkept.parents, hkept.commands, fun _ => hkept.getVar⟩

theorem eval_keeps_twice :
    ∃ code j, picolEval 40 started "proc twice {x} {* $x 2}\nset y [twice 21]".toList =
        some (.ok (code, j)) ∧ j.parents = started.parents := by
  have hok : (picolEval 40 started "proc twice {x} {* $x 2}\nset y [twice 21]".toList).map
      Except.isOk = some true := by decide +kernel
  obtain ⟨reply, hreply, hok⟩ := Option.map_eq_some_iff.mp hok
  rcases reply with stop | ⟨code, j⟩
  · cases hok
  · exact ⟨code, j, hreply, ((eval_keeps hreply).2 code j rfl).1⟩

end Fip.Picol
