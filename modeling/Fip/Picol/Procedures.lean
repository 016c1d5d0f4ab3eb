import Fip.Core.Words
import Fip.Picol.Simulation

/-!
# Procedures

A procedure is called with an argument for each word of its list.  Its body is evaluated in
a call frame with these and nothing else, and behind it the frame of the caller is back.
-/

namespace Fip.Picol

open Unfolding

variable {i j : Interp} {args : List (List Char)} {name alist body p : List Char} {reply : Reply}

/-- The call frame of a procedure, with its arguments set one after the other. -/
def bindAll (i : Interp) (params args : List (List Char)) : Interp :=
  (params.zip args).foldl (fun i arg => picolSetVar i arg.1 arg.2) i

/-- The value of the last argument of a name. -/
def lastArg (params args : List (List Char)) (name : List Char) : Option (List Char) :=
  ((params.zip args).reverse.find? (·.1 = name)).map Prod.snd

/-- What the caller gets: `PICOL_RETURN` is `PICOL_OK` to it, and its call frame is back. -/
def leave (i : Interp) : Reply → Reply
  | .error stop => .error stop
  | .ok (code, j) =>
      .ok (if code = .ret then .ok else code,
        { j with callframe := i.callframe, parents := i.parents })

theorem exists_split (p : List Char) :
    (p.dropWhile (· != ' ') = [] ∧ p.takeWhile (· != ' ') = p) ∨
      ∃ rest, p.dropWhile (· != ' ') = ' ' :: rest ∧
        p = p.takeWhile (· != ' ') ++ ' ' :: rest := by
  have hsplit : p.takeWhile (· != ' ') ++ p.dropWhile (· != ' ') = p :=
    List.takeWhile_append_dropWhile
  rcases hrest : p.dropWhile (· != ' ') with _ | ⟨c, rest⟩
  · rw [hrest, List.append_nil] at hsplit
    exact .inl ⟨rfl, hsplit⟩
  · have hnot := List.head?_dropWhile_not (· != ' ') p
    rw [hrest] at hnot
    obtain rfl : c = ' ' := by simpa using hnot
    rw [hrest] at hsplit
    exact .inr ⟨rest, rfl, hsplit.symm⟩

theorem blank_not_mem_takeWhile (p : List Char) : ' ' ∉ p.takeWhile (· != ' ') := by
  intro hmem
  have hkept := List.mem_takeWhile_imp hmem
  cases hkept

/-- The loop over the list of arguments sets one for each word, and goes to `arityerr` if
there are more or less of them. -/
theorem bindArgs_eq {rounds : ℕ} (hrounds : p.length < rounds) (i : Interp)
    (args : List (List Char)) :
    bindArgs rounds i args p =
      (bindAll i (words ' ' p) args, decide ((words ' ' p).length ≠ args.length)) := by
  induction rounds generalizing i args p with
  | zero => exact absurd hrounds (Nat.not_lt_zero _)
  | succ rounds ih =>
      have hblank := blank_not_mem_takeWhile p
      unfold bindArgs
      dsimp only
      rcases exists_split p with ⟨hdrop, htake⟩ | ⟨rest, hdrop, hp⟩
      · rw [hdrop, htake]
        rw [htake] at hblank
        dsimp only
        by_cases hnil : p = []
        · subst hnil
          rw [if_pos rfl]
          cases args <;> simp [words, bindAll]
        · have hwords : words ' ' p = [p] := by
            have happend : words ' ' (p ++ []) = p :: words ' ' [] :=
              words_append hnil hblank (by simp)
            rwa [List.append_nil] at happend
          rw [if_neg hnil, hwords]
          cases args with
          | nil => simp [bindAll]
          | cons arg args => cases args <;> simp [bindAll]
      · have hlength : rest.length < rounds := by
          have hlen := congrArg List.length hp
          rw [List.length_append, List.length_cons] at hlen
          omega
        rw [hdrop]
        dsimp only
        by_cases hnil : p.takeWhile (· != ' ') = []
        · rw [if_pos hnil, ih hlength]
          rw [hnil, List.nil_append] at hp
          rw [hp, words_sep]
        · have hwords : words ' ' p = p.takeWhile (· != ' ') :: words ' ' rest := by
            conv_lhs => rw [hp]
            exact words_append_sep hnil hblank rest
          rw [if_neg hnil, hwords]
          cases args with
          | nil => simp [bindAll]
          | cons arg args =>
              dsimp only
              rw [ih hlength]
              simp [bindAll]

/-- In the frame of a procedure there are its arguments and nothing else. -/
theorem getVar_bindAll (i : Interp) (params args : List (List Char)) (name : List Char) :
    (picolGetVar (bindAll i params args) name).map Var.val =
      (lastArg params args name).or ((picolGetVar i name).map Var.val) := by
  rw [bindAll, lastArg]
  generalize params.zip args = bindings
  induction bindings generalizing i with
  | nil => rfl
  | cons arg bindings ih =>
      rw [List.foldl_cons, ih, getVar_setVar, List.reverse_cons, List.find?_append]
      by_cases hname : name = arg.1
      · rw [if_pos hname, List.find?_cons_of_pos (by simp [hname])]
        cases bindings.reverse.find? (·.1 = name) <;> rfl
      · rw [if_neg hname, List.find?_cons_of_neg (by simpa using Ne.symm hname)]
        cases bindings.reverse.find? (·.1 = name) <;> rfl

theorem bindAll_frame (i : Interp) (params args : List (List Char)) :
    (bindAll i params args).parents = i.parents ∧
      (bindAll i params args).commands = i.commands ∧ (bindAll i params args).out = i.out := by
  rw [bindAll]
  generalize params.zip args = bindings
  induction bindings generalizing i with
  | nil => exact ⟨rfl, rfl, rfl⟩
  | cons arg bindings ih =>
      obtain ⟨hparents, hcommands, hout⟩ := ih (picolSetVar i arg.1 arg.2)
      obtain ⟨hcommands', hout'⟩ := commands_setVar i arg.1 arg.2
      exact ⟨hparents.trans (kept_setVar i arg.1 arg.2).parents, hcommands.trans hcommands',
        hout.trans hout'⟩

theorem dropped_leave (hparents : j.parents = i.callframe :: i.parents) (code : Code) :
    dropped (if code = .ret then .ok else code) j = leave i (.ok (code, j)) := by
  rw [dropped, picolDropCallFrame, hparents]
  rfl

/-- The interpreter in which the body of a procedure is evaluated. -/
def entered (i : Interp) (alist : List Char) (args : List (List Char)) : Interp :=
  bindAll (pushCallFrame i) (words ' ' alist) args

theorem callFunc_callProc (call : Request → Option Reply)
    (harity : (words ' ' alist).length = args.length) :
    callFunc call i (name :: args) (.callProc alist body) =
      onReply (call (.eval (entered i alist args) body)) fun errcode j =>
        some (dropped (if errcode = .ret then .ok else errcode) j) := by
  have hbound := bindArgs_eq (Nat.lt_succ_self alist.length) (pushCallFrame i) args
  rw [decide_eq_false (by simpa)] at hbound
  rw [callFunc, picolCommandCallProc, List.tail_cons, hbound]
  rfl

theorem callFunc_arityErr (call : Request → Option Reply)
    (harity : (words ' ' alist).length ≠ args.length) :
    callFunc call i (name :: args) (.callProc alist body) =
      some (.ok (.err, picolSetResult i
        (errbuf ("Proc '".toList ++ name ++ "' called with wrong arg num".toList)))) := by
  have hbound := bindArgs_eq (Nat.lt_succ_self alist.length) (pushCallFrame i) args
  obtain ⟨hparents, hcommands, hout⟩ := bindAll_frame (pushCallFrame i) (words ' ' alist) args
  rw [decide_eq_true harity] at hbound
  rw [callFunc, picolCommandCallProc, List.tail_cons, hbound]
  dsimp only [List.headD_cons]
  rw [dropped, picolDropCallFrame, picolSetResult, hparents, hcommands, hout]
  rfl

/-- The frame of the caller is back behind the body. -/
theorem calls_leave (harity : (words ' ' alist).length = args.length)
    (hreply : Returns (.eval (entered i alist args) body) reply) :
    Calls i (name :: args) (.callProc alist body) (leave i reply) := by
  have hsound := hreply.sound trivial
  obtain ⟨depth, hdepth⟩ := hreply
  refine ⟨depth, ?_⟩
  dsimp only
  rw [callFunc_callProc _ harity, hdepth]
  rcases reply with stop | ⟨code, j⟩
  · rfl
  · have hkept : Kept (entered i alist args) j := hsound
    have hframe := bindAll_frame (pushCallFrame i) (words ' ' alist) args
    exact congrArg some (dropped_leave (hkept.parents.trans hframe.1) code)

theorem Calls.unique {argv : List (List Char)} {func : Func} {reply' : Reply}
    (hfirst : Calls i argv func reply) (hsecond : Calls i argv func reply') : reply = reply' := by
  obtain ⟨depth, hdepth⟩ := hfirst
  obtain ⟨more, hmore⟩ := hsecond
  have hdepth' := callFunc_mono
    (unfolded_mono respond_mono (Nat.le_max_left depth more)) _ hdepth
  have hmore' := callFunc_mono (unfolded_mono respond_mono (Nat.le_max_right depth more)) _ hmore
  exact Option.some.inj (hdepth'.symm.trans hmore')

/-- A procedure evaluates its body for as many arguments as its list has words, in a frame
with these arguments and nothing else, and fails for any other number of them. -/
theorem calls_callProc (i : Interp) (name : List Char) (args : List (List Char))
    (alist body : List Char) (reply : Reply) :
    (∀ x, (picolGetVar (entered i alist args) x).map Var.val =
        lastArg (words ' ' alist) args x) ∧
      (Calls i (name :: args) (.callProc alist body) reply ↔
        if (words ' ' alist).length = args.length then
          ∃ reply', Returns (.eval (entered i alist args) body) reply' ∧ reply = leave i reply'
        else
          reply = .ok (.err, picolSetResult i
            (errbuf ("Proc '".toList ++ name ++ "' called with wrong arg num".toList)))) := by
  refine ⟨fun x => ?_, ?_⟩
  · rw [entered, getVar_bindAll]
    exact Option.or_none
  split_ifs with harity
  · constructor
    · intro hcalls
      obtain ⟨depth, hdepth⟩ := hcalls
      have hsome : unfolded respond depth (.eval (entered i alist args) body) ≠ none := by
        intro hnone
        dsimp only at hdepth
        rw [callFunc_callProc _ harity, hnone] at hdepth
        cases hdepth
      obtain ⟨reply', hreply'⟩ := Option.ne_none_iff_exists'.mp hsome
      have hreturns : Returns (.eval (entered i alist args) body) reply' := ⟨depth, hreply'⟩
      exact ⟨reply', hreturns, Calls.unique ⟨depth, hdepth⟩ (calls_leave harity hreturns)⟩
    · rintro ⟨reply', hreply', rfl⟩
      exact calls_leave harity hreply'
  · constructor
    · rintro ⟨depth, hdepth⟩
      dsimp only at hdepth
      rw [callFunc_arityErr _ harity] at hdepth
      exact (Option.some.inj hdepth).symm
    · rintro rfl
      exact ⟨0, callFunc_arityErr _ harity⟩

end Fip.Picol
