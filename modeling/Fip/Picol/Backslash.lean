import Fip.Picol.Numbers
import Fip.Picol.Quoting

/-!
# Scripts without backslashes

The parser steps over the end of a text only behind a backslash.  Where there is none in a
script and none in what it can get hold of, none comes up, and nothing stops the
interpreter.
-/

namespace Fip.Picol

open Unfolding

abbrev NoSlash (text : List Char) : Prop := '\\' ∉ text

/-- There are no backslashes in the result, in the values of the variables and in the bodies
of procedures. -/
structure Clean (i : Interp) : Prop where
  result : NoSlash i.result
  vals : ∀ frame ∈ i.callframe :: i.parents, ∀ v ∈ frame.vars, NoSlash v.val
  bodies : ∀ c ∈ i.commands, ∀ alist body, c.func = .callProc alist body → NoSlash body

def Request.Clean : Request → Prop
  | .eval i t => Picol.Clean i ∧ NoSlash t
  | .tokens i p argv =>
      Picol.Clean i ∧ NoSlash p.rest ∧ NoSlash p.token ∧ ∀ arg ∈ argv, NoSlash arg
  | .loop i argv => Picol.Clean i ∧ ∀ arg ∈ argv, NoSlash arg

/-- The interpreter is not stopped, and there are still no backslashes. -/
def CleanReply : Reply → Prop
  | .ok (_, j) => Clean j
  | .error stop => stop ≠ .overrun

variable {i : Interp} {p p' : Parser} {text name val : List Char} {argv : List (List Char)}
  {reply : Reply}

section Parsing

theorem getToken_clean (hrest : NoSlash p.rest) (htoken : NoSlash p.token) :
    ∃ p', picolGetToken p = some p' ∧ NoSlash p'.rest ∧ NoSlash p'.token := by
  obtain ⟨p', hp⟩ := Option.isSome_iff_exists.mp
    (getToken_isSome fun hlast => hrest (List.mem_of_getLast? hlast))
  refine ⟨p', hp, ?_⟩
  obtain ⟨comment, rest, heq, -, -, ⟨taken, rfl, htakes⟩ | ⟨-, hnil, hsame, -⟩⟩ :=
    getToken_found hp
  · rw [heq] at hrest
    simp only [NoSlash, List.mem_append, not_or] at hrest
    exact ⟨hrest.2.2, fun hmem => hrest.2.1 (htakes.isInfix.subset hmem)⟩
  · rw [hnil, hsame]
    exact ⟨List.not_mem_nil, htoken⟩

end Parsing

section Operations

theorem Clean.setResult (hi : Clean i) (htext : NoSlash text) : Clean (picolSetResult i text) :=
  ⟨htext, hi.vals, hi.bodies⟩

/-- A message has a word of the script in it. -/
theorem Clean.message {front back : List Char} (hi : Clean i) (hfront : NoSlash front)
    (htext : NoSlash text) (hback : NoSlash back) :
    Clean (picolSetResult i (errbuf (front ++ text ++ back))) := by
  refine hi.setResult fun hmem => ?_
  have hmem := List.mem_of_mem_take hmem
  simp only [List.mem_append] at hmem
  tauto

theorem Clean.arityErr (hi : Clean i) (hname : NoSlash name) : Clean (picolArityErr i name).2 := by
  have hmessage : Clean (picolSetResult i
      (errbuf ("Wrong number of args for ".toList ++ name ++ []))) :=
    hi.message (by decide) hname List.not_mem_nil
  rwa [List.append_nil] at hmessage

theorem noSlash_headD (hargv : ∀ arg ∈ argv, NoSlash arg) : NoSlash (argv.headD []) := by
  cases argv with
  | nil => exact List.not_mem_nil
  | cons arg argv => exact hargv arg List.mem_cons_self

theorem noSlash_getD (hargv : ∀ arg ∈ argv, NoSlash arg) (n : ℕ) : NoSlash (argv.getD n []) := by
  rw [List.getD_eq_getElem?_getD]
  rcases hget : argv[n]? with _ | arg
  · exact List.not_mem_nil
  · exact hargv arg (List.mem_of_getElem? hget)

theorem noSlash_assign {vars : List Var} (hvars : ∀ v ∈ vars, NoSlash v.val)
    (hval : NoSlash val) : ∀ v ∈ assign name val vars, NoSlash v.val := by
  induction vars with
  | nil => exact hvars
  | cons v vars ih =>
      obtain ⟨hv, hvars⟩ := List.forall_mem_cons.mp hvars
      rw [assign]
      split_ifs
      · exact List.forall_mem_cons.mpr ⟨hval, hvars⟩
      · exact List.forall_mem_cons.mpr ⟨hv, ih hvars⟩

theorem Clean.setVar (hi : Clean i) (hval : NoSlash val) : Clean (picolSetVar i name val) := by
  obtain ⟨hframe, hparents⟩ := List.forall_mem_cons.mp hi.vals
  unfold picolSetVar
  cases picolGetVar i name with
  | none =>
      exact ⟨hi.result, List.forall_mem_cons.mpr
        ⟨List.forall_mem_cons.mpr ⟨hval, hframe⟩, hparents⟩, hi.bodies⟩
  | some v =>
      exact ⟨hi.result, List.forall_mem_cons.mpr ⟨noSlash_assign hframe hval, hparents⟩,
        hi.bodies⟩

theorem Clean.getVar {v : Var} (hi : Clean i) (hv : picolGetVar i name = some v) :
    NoSlash v.val :=
  hi.vals i.callframe List.mem_cons_self v (List.mem_of_find?_eq_some hv)

theorem Clean.registerCommand {f : Func} (hi : Clean i) (hname : NoSlash name)
    (hf : ∀ alist body, f = .callProc alist body → NoSlash body) :
    Clean (picolRegisterCommand i name f).2 := by
  unfold picolRegisterCommand
  cases picolGetCommand i name with
  | some c => exact hi.message (by decide) hname (by decide)
  | none => exact ⟨hi.result, hi.vals, List.forall_mem_cons.mpr ⟨hf, hi.bodies⟩⟩

theorem noSlash_showLong (v : Long) : NoSlash (showLong v) := by
  intro hmem
  have hnumeral := isNumeral_of_mem hmem
  cases hnumeral

theorem Clean.bindArgs {args : List (List Char)} (hi : Clean i)
    (hargs : ∀ arg ∈ args, NoSlash arg) (rounds : ℕ) (p : List Char) :
    Clean (bindArgs rounds i args p).1 := by
  induction rounds generalizing i args p with
  | zero => exact hi
  | succ rounds ih =>
      unfold Picol.bindArgs
      dsimp only
      rcases p.dropWhile (· != ' ') with _ | ⟨c, rest⟩ <;> dsimp only <;> split_ifs
      · exact hi
      · cases args with
        | nil => exact hi
        | cons arg args => exact hi.setVar (hargs arg List.mem_cons_self)
      · exact ih hi hargs rest
      · cases args with
        | nil => exact hi
        | cons arg args =>
            obtain ⟨harg, hargs⟩ := List.forall_mem_cons.mp hargs
            exact ih (hi.setVar harg) hargs rest

theorem Clean.pushCallFrame (hi : Clean i) : Clean (pushCallFrame i) :=
  ⟨hi.result, List.forall_mem_cons.mpr ⟨List.forall_mem_nil _, hi.vals⟩, hi.bodies⟩

theorem Clean.dropped (hi : Clean i) (code : Code) : CleanReply (dropped code i) := by
  unfold Picol.dropped picolDropCallFrame
  rcases hparents : i.parents with _ | ⟨parent, parents⟩
  · exact fun heq => Stop.noConfusion heq
  · have hvals := hi.vals
    rw [hparents] at hvals
    exact ⟨hi.result, (List.forall_mem_cons.mp hvals).2, hi.bodies⟩

end Operations

section Replies

variable {call : Request → Option Reply}
  (hcall : ∀ request reply, call request = some reply → request.Clean → CleanReply reply)

theorem cleanReply_onReply {first : Option Reply} {next : Code → Interp → Option Reply}
    (hsome : onReply first next = some reply) (hfirst : ∀ b, first = some b → CleanReply b)
    (hnext : ∀ code j b, Clean j → next code j = some b → CleanReply b) : CleanReply reply := by
  rcases onReply_eq_some.mp hsome with ⟨stop, hstop, rfl⟩ | ⟨code, j, hok, hreply⟩
  · exact hfirst _ hstop
  · exact hnext code j _ (hfirst _ hok) hreply

theorem cleanReply_onOk {first : Option Reply} {next : Interp → Option Reply}
    (hsome : onOk first next = some reply) (hfirst : ∀ b, first = some b → CleanReply b)
    (hnext : ∀ j b, Clean j → next j = some b → CleanReply b) : CleanReply reply := by
  refine cleanReply_onReply hsome hfirst ?_
  intro code j b hj hb
  split_ifs at hb
  · obtain rfl := Option.some.inj hb
    exact hj
  · exact hnext j b hj hb

theorem cleanReply_of_eq {answer : Code × Interp} (hanswer : Clean answer.2)
    (hsome : some (.ok answer) = some reply) : CleanReply reply := by
  obtain rfl := Option.some.inj hsome
  exact hanswer

variable (hi : Clean i) (hargv : ∀ arg ∈ argv, NoSlash arg)
include hi hargv

theorem clean_math : Clean (picolCommandMath i argv).2 := by
  unfold picolCommandMath
  split
  · dsimp only
    split_ifs
    · exact hi.setResult (by decide)
    · exact hi.setResult (noSlash_showLong _)
  · exact hi.arityErr (noSlash_headD hargv)

theorem clean_set : Clean (picolCommandSet i argv).2 := by
  unfold picolCommandSet
  split
  · have hval := hargv _ (List.mem_cons_of_mem _ (List.mem_cons_of_mem _ List.mem_cons_self))
    exact (hi.setVar hval).setResult hval
  · exact hi.arityErr (noSlash_headD hargv)

theorem clean_puts : Clean (picolCommandPuts i argv).2 := by
  unfold picolCommandPuts
  split
  · exact ⟨hi.result, hi.vals, hi.bodies⟩
  · exact hi.arityErr (noSlash_headD hargv)

theorem clean_retCodes : Clean (picolCommandRetCodes i argv).2 := by
  unfold picolCommandRetCodes
  split
  · split_ifs <;> exact hi
  · exact hi.arityErr (noSlash_headD hargv)

theorem clean_proc : Clean (picolCommandProc i argv).2 := by
  unfold picolCommandProc
  split
  · simp only [List.forall_mem_cons] at hargv
    obtain ⟨-, hname, -, hbody, -⟩ := hargv
    refine hi.registerCommand hname ?_
    rintro _ _ ⟨⟩
    exact hbody
  · exact hi.arityErr (noSlash_headD hargv)

theorem clean_return : Clean (picolCommandReturn i argv).2 := by
  unfold picolCommandReturn
  split
  · exact hi.setResult List.not_mem_nil
  · exact hi.setResult (hargv _ (List.mem_cons_of_mem _ List.mem_cons_self))
  · exact hi.arityErr (noSlash_headD hargv)

include hcall

theorem cleanReply_if (hsome : picolCommandIf call i argv = some reply) : CleanReply reply := by
  unfold picolCommandIf at hsome
  by_cases hargc : argv.length ≠ 3 ∧ argv.length ≠ 5
  · rw [if_pos hargc] at hsome
    exact cleanReply_of_eq (hi.arityErr (noSlash_headD hargv)) hsome
  · rw [if_neg hargc] at hsome
    refine cleanReply_onOk hsome (fun b hb => hcall _ b hb ⟨hi, noSlash_getD hargv 1⟩) ?_
    intro j b hj hb
    split_ifs at hb
    · exact hcall _ b hb ⟨hj, noSlash_getD hargv 2⟩
    · exact hcall _ b hb ⟨hj, noSlash_getD hargv 4⟩
    · obtain rfl := Option.some.inj hb
      exact hj

theorem cleanReply_whileBody (hsome : whileBody call i argv = some reply) :
    CleanReply reply := by
  refine cleanReply_onOk hsome (fun b hb => hcall _ b hb ⟨hi, noSlash_getD hargv 1⟩) ?_
  intro j b hj hb
  split_ifs at hb
  · refine cleanReply_onReply hb (fun b hb => hcall _ b hb ⟨hj, noSlash_getD hargv 2⟩) ?_
    intro retcode k b hk hb
    split_ifs at hb
    · exact hcall _ b hb ⟨hk, hargv⟩
    · obtain rfl := Option.some.inj hb
      exact hk
    · obtain rfl := Option.some.inj hb
      exact hk
  · obtain rfl := Option.some.inj hb
    exact hj

theorem cleanReply_callProc {alist body : List Char} (hbody : NoSlash body)
    (hsome : picolCommandCallProc call i argv alist body = some reply) : CleanReply reply := by
  rw [picolCommandCallProc] at hsome
  have hbound := hi.pushCallFrame.bindArgs (fun arg harg => hargv arg (List.mem_of_mem_tail harg))
    (alist.length + 1) alist
  rcases hargs : bindArgs (alist.length + 1) (pushCallFrame i) argv.tail alist with
    ⟨bound, arityerr⟩
  rw [hargs] at hsome hbound
  cases arityerr with
  | true =>
      obtain rfl := Option.some.inj hsome
      exact (hbound.message (by decide) (noSlash_headD hargv) (by decide)).dropped _
  | false =>
      refine cleanReply_onReply hsome (fun b hb => hcall _ b hb ⟨hbound, hbody⟩) ?_
      intro code j b hj hb
      obtain rfl := Option.some.inj hb
      exact hj.dropped _

theorem cleanReply_callFunc {c : Cmd} (hc : c ∈ i.commands)
    (hsome : callFunc call i argv c.func = some reply) : CleanReply reply := by
  cases hfunc : c.func with
  | «if» =>
      rw [hfunc] at hsome
      exact cleanReply_if hcall hi hargv hsome
  | «while» =>
      rw [hfunc, callFunc, picolCommandWhile] at hsome
      split_ifs at hsome
      · exact cleanReply_of_eq (hi.arityErr (noSlash_headD hargv)) hsome
      · exact hcall _ _ hsome ⟨hi, hargv⟩
  | callProc alist body =>
      rw [hfunc] at hsome
      exact cleanReply_callProc hcall hi hargv (hi.bodies c hc alist body hfunc) hsome
  | math =>
      rw [hfunc] at hsome
      exact cleanReply_of_eq (clean_math hi hargv) hsome
  | set =>
      rw [hfunc] at hsome
      exact cleanReply_of_eq (clean_set hi hargv) hsome
  | puts =>
      rw [hfunc] at hsome
      exact cleanReply_of_eq (clean_puts hi hargv) hsome
  | retCodes =>
      rw [hfunc] at hsome
      exact cleanReply_of_eq (clean_retCodes hi hargv) hsome
  | proc =>
      rw [hfunc] at hsome
      exact cleanReply_of_eq (clean_proc hi hargv) hsome
  | ret =>
      rw [hfunc] at hsome
      exact cleanReply_of_eq (clean_return hi hargv) hsome

variable (hrest : NoSlash p.rest) (htoken : NoSlash p.token)
include hrest htoken

theorem cleanReply_addToken {prevtype : TokenType} (htext : NoSlash text)
    (hsome : addToken call i prevtype p argv text = some reply) : CleanReply reply := by
  unfold addToken at hsome
  split_ifs at hsome
  · refine hcall _ _ hsome ⟨hi, hrest, htoken, fun arg harg => ?_⟩
    rcases List.mem_append.mp harg with harg | harg
    · exact hargv arg harg
    · rwa [List.mem_singleton.mp harg]
  · rcases hlast : argv.getLast? with _ | last
    · rw [hlast] at hsome
      obtain rfl := Option.some.inj hsome
      exact fun heq => Stop.noConfusion heq
    · rw [hlast] at hsome
      refine hcall _ _ hsome ⟨hi, hrest, htoken, fun arg harg => ?_⟩
      rcases List.mem_append.mp harg with harg | harg
      · exact hargv arg (List.dropLast_subset argv harg)
      · rw [List.mem_singleton.mp harg, NoSlash, List.mem_append, not_or]
        exact ⟨hargv last (List.mem_of_getLast? hlast), htext⟩

theorem cleanReply_runCommand (hsome : runCommand call i p argv = some reply) :
    CleanReply reply := by
  have hnext : ∀ j b, Clean j → call (.tokens j p []) = some b → CleanReply b :=
    fun j b hj hb => hcall _ b hb ⟨hj, hrest, htoken, List.forall_mem_nil _⟩
  cases argv with
  | nil => exact hnext i _ hi hsome
  | cons name argv =>
      rw [runCommand] at hsome
      cases hcommand : picolGetCommand i name with
      | none =>
          rw [hcommand] at hsome
          exact cleanReply_of_eq
            (hi.message (by decide) (hargv name List.mem_cons_self) (by decide)) hsome
      | some c =>
          rw [hcommand] at hsome
          have hc : c ∈ i.commands := List.mem_of_find?_eq_some hcommand
          exact cleanReply_onOk hsome (fun _ => cleanReply_callFunc hcall hi hargv hc) hnext

theorem cleanReply_tokenBody (hsome : tokenBody call i p argv = some reply) :
    CleanReply reply := by
  obtain ⟨p', hp, hrest', htoken'⟩ := getToken_clean hrest htoken
  unfold tokenBody at hsome
  rw [hp] at hsome
  dsimp only at hsome
  cases htype : p'.type with
  | eof =>
      rw [htype] at hsome
      exact cleanReply_of_eq hi hsome
  | var =>
      rw [htype] at hsome
      dsimp only at hsome
      cases hvar : picolGetVar i p'.token with
      | none =>
          rw [hvar] at hsome
          exact cleanReply_of_eq (hi.message (by decide) htoken' (by decide)) hsome
      | some v =>
          rw [hvar] at hsome
          exact cleanReply_addToken hcall hi hargv hrest' htoken' (hi.getVar hvar) hsome
  | cmd =>
      rw [htype] at hsome
      exact cleanReply_onOk hsome (fun b hb => hcall _ b hb ⟨hi, htoken'⟩)
        fun j b hj => cleanReply_addToken hcall hj hargv hrest' htoken' hj.result
  | sep =>
      rw [htype] at hsome
      exact hcall _ _ hsome ⟨hi, hrest', htoken', hargv⟩
  | eol =>
      rw [htype] at hsome
      exact cleanReply_runCommand hcall hi hargv hrest' htoken' hsome
  | esc =>
      rw [htype] at hsome
      exact cleanReply_addToken hcall hi hargv hrest' htoken' htoken' hsome
  | str =>
      rw [htype] at hsome
      exact cleanReply_addToken hcall hi hargv hrest' htoken' htoken' hsome

end Replies

/-- The step lemma: without backslashes in a request there are none in its answer. -/
theorem cleanReply_respond {call : Request → Option Reply}
    (hcall : ∀ request reply, call request = some reply → request.Clean → CleanReply reply)
    (request : Request) (reply : Reply) (hsome : respond call request = some reply)
    (hclean : request.Clean) : CleanReply reply := by
  cases request with
  | eval i t =>
      obtain ⟨hi, ht⟩ := hclean
      exact hcall _ _ hsome ⟨hi.setResult List.not_mem_nil, ht, List.not_mem_nil,
        List.forall_mem_nil _⟩
  | tokens i p argv =>
      obtain ⟨hi, hrest, htoken, hargv⟩ := hclean
      exact cleanReply_tokenBody hcall hi hargv hrest htoken hsome
  | loop i argv =>
      obtain ⟨hi, hargv⟩ := hclean
      exact cleanReply_whileBody hcall hi hargv hsome

/-- A script without backslashes never stops the interpreter. -/
theorem eval_clean {depth : ℕ} (hi : Clean i) (htext : NoSlash text)
    (hsome : picolEval depth i text = some reply) : ∃ code j, reply = .ok (code, j) ∧ Clean j := by
  have hreturns : Returns (.eval i text) reply := ⟨depth, hsome⟩
  have hclean : (Request.eval i text).Clean → CleanReply reply :=
    Unfolding.Returns.rule (fun request reply => request.Clean → CleanReply reply)
      (fun _ => cleanReply_respond) hreturns
  have hsound := hreturns.sound trivial
  rcases reply with stop | ⟨code, j⟩
  · exact absurd hsound (hclean ⟨hi, htext⟩)
  · exact ⟨code, j, rfl, hclean ⟨hi, htext⟩⟩

theorem clean_started : Clean started where
  result := by decide
  vals := by decide
  bodies := by
    have hcore : ∀ c ∈ started.commands, c.func ∈ coreCommands.map Prod.snd := by decide
    intro c hc alist body hfunc
    have hmem := hcore c hc
    rw [hfunc] at hmem
    simp [coreCommands] at hmem

theorem eval_clean_set : ∃ code j, picolEval 20 started "set x {[}".toList =
    some (.ok (code, j)) ∧ Clean j := by
  have hsome : (picolEval 20 started "set x {[}".toList).isSome = true := by decide +kernel
  obtain ⟨reply, hreply⟩ := Option.isSome_iff_exists.mp hsome
  obtain ⟨code, j, rfl, hj⟩ := eval_clean clean_started (by decide) hreply
  exact ⟨code, j, hreply, hj⟩

end Fip.Picol
