import Fip.Core.Nesting
import Fip.Picol.Frames
import Fip.Picol.Tokens

/-!
# Words and quotes

A script is put together from words: as they are, if nothing in them is special, in braces,
if the braces in them are balanced, or as commands in brackets.  The parser finds these
words again, and a command in braces is called with the words that were put there.
-/

namespace Fip.Picol

open Unfolding Nesting

variable {w r token : List Char} {type : TokenType} {insidequote : Bool} {i i' : Interp}
  {argv : List (List Char)} {reply : Reply}

/-- A word may end here. -/
def Ends (r : List Char) : Prop := ∀ c ∈ r.head?, isBlank c = true ∨ c = ';'

/-- A character without a meaning of its own. -/
def isPlain (c : Char) : Bool :=
  !(isBlank c || c == ';' || c == '$' || c == '[' || c == '\\' || c == '"' || c == '{' || c == '#')

/-- Brackets that are balanced, with no braces and backslashes among them. -/
abbrev Bracketed (w : List Char) : Prop :=
  Balanced '[' ']' (fun c => c == '\\' || c == '{' || c == '}') w

/-- Braces that are balanced, with no backslashes among them. -/
abbrev Braced (w : List Char) : Prop := Balanced '{' '}' (· == '\\') w

theorem ends_nil : Ends [] := fun _ hc => nomatch hc

theorem ends_cons {c : Char} (hc : isBlank c = true ∨ c = ';') : Ends (c :: r) := by
  intro c' hc'
  obtain rfl := Option.some.inj hc'
  exact hc

section Scanning

theorem scanString_of_ends (hr : Ends r) : scanString false r = ([], r, false) := by
  cases r with
  | nil => rfl
  | cons c r =>
      have hc := hr c rfl
      have hslash : c ≠ '\\' := by
        rintro rfl
        rcases hc with hc | hc <;> cases hc
      have hcut : (isBlank c ∨ c = ';') ∧ false = false := ⟨hc, rfl⟩
      rw [scanString_cons _ _ hslash, if_pos hcut, ite_self]

theorem scanString_plain (hw : ∀ c ∈ w, isPlain c = true) (hr : Ends r) :
    scanString false (w ++ r) = (w, r, false) := by
  induction w with
  | nil => exact scanString_of_ends hr
  | cons c w ih =>
      obtain ⟨hc, hw⟩ := List.forall_mem_cons.mp hw
      simp only [isPlain, Bool.not_eq_true', Bool.or_eq_false_iff, beq_eq_false_iff_ne] at hc
      obtain ⟨⟨⟨⟨⟨⟨⟨hblank, hsemi⟩, hdollar⟩, hbracket⟩, hslash⟩, -⟩, -⟩, -⟩ := hc
      rw [List.cons_append, scanString_cons _ _ hslash, if_neg (not_or.mpr ⟨hdollar, hbracket⟩),
        if_neg (by simp [hblank, hsemi]), if_neg (by simp), ih hw]
      rfl

theorem scanBrace_append {count final : ℕ} (r : List Char)
    (hw : depth '{' '}' (· == '\\') count w = some final) :
    scanBrace (count + 1) (w ++ r) = (scanBrace (final + 1) r).map (w ++ ·) id := by
  induction w generalizing count with
  | nil =>
      obtain rfl := Option.some.inj hw
      rfl
  | cons c w ih =>
      rw [depth] at hw
      rw [List.cons_append]
      split_ifs at hw with hopen hclose hzero hslash
      · subst hopen
        rw [scanBrace_cons _ _ (by decide), if_neg (by decide), if_pos rfl, ih hw]
        rfl
      · subst hclose
        rw [scanBrace_cons _ _ (by decide), if_pos rfl, if_neg (by simpa using hzero),
          Nat.add_sub_cancel, ← Nat.sub_add_cancel (Nat.pos_of_ne_zero hzero), ih hw]
        rfl
      · rw [scanBrace_cons _ _ (by simpa using hslash), if_neg hclose, if_neg hopen, ih hw]
        rfl

theorem scanBrace_balanced (hw : Braced w) (r : List Char) :
    scanBrace 1 (w ++ '}' :: r) = (w, r) := by
  have hend : scanBrace (0 + 1) ('}' :: r) = ([], r) := by
    rw [scanBrace_cons _ _ (by decide), if_pos rfl, if_pos rfl]
  rw [← Nat.zero_add 1, scanBrace_append _ hw, hend, Prod.map, List.append_nil]
  rfl

theorem scanCommand_append {count final : ℕ} (r : List Char)
    (hw : depth '[' ']' (fun c => c == '\\' || c == '{' || c == '}') count w = some final) :
    scanCommand (count + 1) 0 (w ++ r) =
      (scanCommand (final + 1) 0 r).map (Prod.map (w ++ ·) id) := by
  induction w generalizing count with
  | nil =>
      obtain rfl := Option.some.inj hw
      change scanCommand (count + 1) 0 r = _
      rcases scanCommand (count + 1) 0 r with _ | _ <;> rfl
  | cons c w ih =>
      rw [depth] at hw
      rw [List.cons_append]
      split_ifs at hw with hopen hclose hzero hother
      · subst hopen
        rw [scanCommand_cons _ _ _ (by decide), if_pos ⟨rfl, rfl⟩, ih hw, Option.map_map]
        rfl
      · subst hclose
        rw [scanCommand_cons _ _ _ (by decide), if_neg (by simp), if_pos ⟨rfl, rfl⟩,
          if_neg (by simpa using hzero), Nat.add_sub_cancel,
          ← Nat.sub_add_cancel (Nat.pos_of_ne_zero hzero), ih hw, Option.map_map]
        rfl
      · simp only [Bool.or_eq_true, beq_iff_eq, not_or] at hother
        obtain ⟨⟨hslash, hleft⟩, hright⟩ := hother
        rw [scanCommand_cons _ _ _ hslash, if_neg (by simp [hopen]), if_neg (by simp [hclose]),
          if_neg hleft, if_neg hright, ih hw, Option.map_map]
        rfl

theorem scanCommand_balanced (hw : Bracketed w) (r : List Char) :
    scanCommand 1 0 (w ++ ']' :: r) = some (w, r) := by
  have hend : scanCommand (0 + 1) 0 (']' :: r) = some ([], r) := by
    rw [scanCommand_cons _ _ _ (by decide), if_neg (by decide), if_pos ⟨rfl, rfl⟩, if_pos rfl]
  rw [← Nat.zero_add 1, scanCommand_append _ hw, hend, Option.map_some, Prod.map, List.append_nil]
  rfl

end Scanning

section Tokens

theorem getToken_of_ne {p : Parser} (hp : p.rest.head? ≠ some '#') :
    picolGetToken p = dispatch p :=
  if_neg fun hcomment => hp hcomment.1

theorem getToken_plain (hne : w ≠ []) (hw : ∀ c ∈ w, isPlain c = true) (hr : Ends r) :
    picolGetToken ⟨w ++ r, token, type, false⟩ = some ⟨r, w, .esc, false⟩ := by
  obtain ⟨c, w, rfl⟩ := List.exists_cons_of_ne_nil hne
  have hc := hw c List.mem_cons_self
  simp only [isPlain, isBlank, Bool.not_eq_true', Bool.or_eq_false_iff,
    beq_eq_false_iff_ne] at hc
  obtain ⟨⟨⟨⟨⟨⟨⟨⟨⟨⟨hspace, htab⟩, hnewline⟩, hreturn⟩, hsemi⟩, hdollar⟩, hbracket⟩, -⟩, hquote⟩,
    hbrace⟩, hcomment⟩ := hc
  rw [getToken_of_ne (by simpa using hcomment), dispatch]
  dsimp only [List.cons_append]
  rw [if_neg (by simp [hspace, htab, hreturn]), if_neg (by simp [hnewline, hsemi]),
    if_neg hbracket, if_neg hdollar, picolParseString]
  rw [if_neg (by simp [hbrace]), if_neg (by simp [hquote])]
  change some (_ : Parser) = _
  rw [← List.cons_append, scanString_plain hw hr]

theorem getToken_brace (hw : Braced w) (htype : type.newword = true) :
    picolGetToken ⟨'{' :: (w ++ '}' :: r), token, type, insidequote⟩ =
      some ⟨r, w, .str, insidequote⟩ := by
  rw [getToken_of_ne (by simp), dispatch]
  dsimp only
  rw [if_neg (by decide), if_neg (by decide), if_neg (by decide), if_neg (by decide),
    picolParseString, if_pos ⟨htype, rfl⟩, picolParseBrace]
  dsimp only [List.tail_cons]
  rw [scanBrace_balanced hw]

theorem getToken_command (hw : Bracketed w) :
    picolGetToken ⟨'[' :: (w ++ ']' :: r), token, type, insidequote⟩ =
      some ⟨r, w, .cmd, insidequote⟩ := by
  rw [getToken_of_ne (by simp), dispatch]
  dsimp only
  rw [if_neg (by decide), if_neg (by decide), if_pos rfl, picolParseCommand]
  dsimp only [List.tail_cons]
  rw [scanCommand_balanced hw]
  rfl

theorem getToken_var (hne : w ≠ []) (hw : ∀ c ∈ w, isName c = true)
    (hr : ∀ c ∈ r.head?, isName c = false) :
    picolGetToken ⟨'$' :: (w ++ r), token, type, insidequote⟩ =
      some ⟨r, w, .var, insidequote⟩ := by
  have htake : (w ++ r).takeWhile isName = w := by
    rw [List.takeWhile_append_of_pos hw]
    cases r with
    | nil => exact List.append_nil w
    | cons c r => rw [List.takeWhile_cons_of_neg (by simp [hr c rfl]), List.append_nil]
  have hdrop : (w ++ r).dropWhile isName = r := by
    rw [List.dropWhile_append_of_pos hw]
    cases r with
    | nil => rfl
    | cons c r => rw [List.dropWhile_cons_of_neg (by simp [hr c rfl])]
  rw [getToken_of_ne (by simp), dispatch]
  dsimp only
  rw [if_neg (by decide), if_neg (by decide), if_neg (by decide), if_pos rfl, picolParseVar]
  simp only [List.tail_cons, htake, hdrop, if_neg hne]

theorem getToken_sep :
    picolGetToken ⟨' ' :: r, token, type, false⟩ =
      some ⟨r.dropWhile isBlank, ' ' :: r.takeWhile isBlank, .sep, false⟩ := rfl

theorem getToken_eol :
    picolGetToken ⟨'\n' :: r, token, type, false⟩ =
      some ⟨r.dropWhile fun c => isBlank c || c == ';',
        '\n' :: r.takeWhile fun c => isBlank c || c == ';', .eol, false⟩ := rfl

theorem getToken_nil :
    picolGetToken ⟨[], token, type, insidequote⟩ =
      some ⟨[], token, if type ≠ .eol ∧ type ≠ .eof then .eol else .eof, insidequote⟩ := rfl

end Tokens

/-- The first request is answered as the second, which is made after it. -/
abbrev Leads (request request' : Request) : Prop := Unfolding.Leads respond request request'

/-- What a command returns. -/
abbrev Calls (i : Interp) (argv : List (List Char)) (func : Func) (reply : Reply) : Prop :=
  Computes respond (fun call => callFunc call i argv func) reply

section Steps

variable {p p' : Parser} {v : Var} {code : Code} {name : List Char} {args : List (List Char)}
  {c : Cmd} (hp : picolGetToken p = some p')
include hp

theorem leads_word (htype : p'.type = .esc ∨ p'.type = .str)
    (hprev : p.type = .sep ∨ p.type = .eol) :
    Leads (.tokens i p argv) (.tokens i p' (argv ++ [p'.token])) := by
  refine .step fun call => ?_
  simp only [respond, tokenBody, hp]
  rcases htype with htype | htype <;> rw [htype] <;> exact if_pos hprev

theorem leads_var (htype : p'.type = .var) (hv : picolGetVar i p'.token = some v)
    (hprev : p.type = .sep ∨ p.type = .eol) :
    Leads (.tokens i p argv) (.tokens i p' (argv ++ [v.val])) := by
  refine .step fun call => ?_
  simp only [respond, tokenBody, hp, htype, hv]
  exact if_pos hprev

theorem returns_noVar (htype : p'.type = .var) (hv : picolGetVar i p'.token = none) :
    Returns (.tokens i p argv) (.ok (.err, picolSetResult i
      (errbuf ("No such variable '".toList ++ p'.token ++ "'".toList)))) := by
  refine .step fun call => ?_
  simp only [respond, tokenBody, hp, htype, hv]

theorem leads_command (htype : p'.type = .cmd)
    (heval : Returns (.eval i p'.token) (.ok (.ok, i'))) (hprev : p.type = .sep ∨ p.type = .eol) :
    Leads (.tokens i p argv) (.tokens i' p' (argv ++ [i'.result])) := by
  refine .of_computes respond_mono (stable_call _) heval.computes ?_ ?_
  · intro call hnone
    simp only [respond, tokenBody, hp, htype, hnone]
    rfl
  · intro call hsome
    simp only [respond, tokenBody, hp, htype, hsome]
    exact if_pos hprev

theorem returns_command (htype : p'.type = .cmd)
    (heval : Returns (.eval i p'.token) (.ok (code, i'))) (hcode : code ≠ .ok) :
    Returns (.tokens i p argv) (.ok (code, i')) := by
  refine .of_computes heval.computes ?_
  intro call hsome
  simp only [respond, tokenBody, hp, htype, hsome]
  exact if_pos hcode

theorem leads_sep (htype : p'.type = .sep) : Leads (.tokens i p argv) (.tokens i p' argv) := by
  refine .step fun call => ?_
  simp only [respond, tokenBody, hp, htype]

theorem leads_call (htype : p'.type = .eol) (hc : picolGetCommand i name = some c)
    (hcalls : Calls i (name :: args) c.func (.ok (.ok, i'))) :
    Leads (.tokens i p (name :: args)) (.tokens i' p' []) := by
  refine .of_computes respond_mono (fun f g hbelow _ => callFunc_mono hbelow c.func) hcalls ?_ ?_
  · intro call hnone
    simp only [respond, tokenBody, hp, htype, runCommand, hc, hnone]
    rfl
  · intro call hsome
    simp only [respond, tokenBody, hp, htype, runCommand, hc, hsome]
    rfl

theorem returns_call (htype : p'.type = .eol) (hc : picolGetCommand i name = some c)
    (hcalls : Calls i (name :: args) c.func (.ok (code, i'))) (hcode : code ≠ .ok) :
    Returns (.tokens i p (name :: args)) (.ok (code, i')) := by
  refine .of_computes hcalls ?_
  intro call hsome
  simp only [respond, tokenBody, hp, htype, runCommand, hc, hsome]
  exact if_pos hcode

theorem returns_stop {stop : Stop} (htype : p'.type = .eol) (hc : picolGetCommand i name = some c)
    (hcalls : Calls i (name :: args) c.func (.error stop)) :
    Returns (.tokens i p (name :: args)) (.error stop) := by
  refine .of_computes hcalls ?_
  intro call hsome
  simp only [respond, tokenBody, hp, htype, runCommand, hc, hsome]
  rfl

/-- If there is an answer, the command has returned, and at a smaller depth. -/
theorem exists_calls {depth : ℕ} (htype : p'.type = .eol) (hc : picolGetCommand i name = some c)
    (hdepth : unfolded respond depth (.tokens i p (name :: args)) = some reply) :
    ∃ less < depth, ∃ reply', callFunc (unfolded respond less) i (name :: args) c.func =
      some reply' := by
  cases depth with
  | zero => cases hdepth
  | succ depth =>
      refine ⟨depth, Nat.lt_succ_self _, Option.ne_none_iff_exists'.mp ?_⟩
      intro hnone
      simp only [unfolded, respond, tokenBody, hp, htype, runCommand, hc, hnone] at hdepth
      cases hdepth

theorem returns_eof (htype : p'.type = .eof) : Returns (.tokens i p argv) (.ok (.ok, i)) := by
  refine .step fun call => ?_
  simp only [respond, tokenBody, hp, htype]

end Steps

/-- A word in braces. -/
def braced (w : List Char) : List Char := '{' :: (w ++ ['}'])

/-- Words with a blank between them. -/
def line (words : List (List Char)) : List Char := [' '].intercalate words

theorem line_singleton (w : List Char) : line [w] = w := List.intercalate_singleton

theorem line_cons (w next : List Char) (words : List (List Char)) :
    line (w :: next :: words) = w ++ ' ' :: line (next :: words) := by
  rw [line, List.intercalate_cons_cons, List.append_assoc]
  rfl

theorem leads_braced {words : List (List Char)} (hwords : ∀ word ∈ w :: words, Braced word)
    (htype : type = .sep ∨ type = .eol) :
    ∃ token', Leads (.tokens i ⟨line ((w :: words).map braced), token, type, false⟩ argv)
      (.tokens i ⟨[], token', .str, false⟩ (argv ++ w :: words)) := by
  have hnew : type.newword = true := by
    rcases htype with rfl | rfl <;> rfl
  induction words generalizing w argv token type with
  | nil =>
      obtain ⟨hw, -⟩ := List.forall_mem_cons.mp hwords
      have hp : picolGetToken ⟨line [braced w], token, type, false⟩ =
          some ⟨[], w, .str, false⟩ := by
        rw [line_singleton, braced, getToken_brace hw hnew]
      exact ⟨w, leads_word hp (.inr rfl) htype⟩
  | cons next words ih =>
      obtain ⟨hw, hwords⟩ := List.forall_mem_cons.mp hwords
      have hp : picolGetToken ⟨line ((w :: next :: words).map braced), token, type, false⟩ =
          some ⟨' ' :: line ((next :: words).map braced), w, .str, false⟩ := by
        rw [List.map_cons, List.map_cons, line_cons, braced, List.cons_append, List.append_assoc,
          List.singleton_append, getToken_brace hw hnew]
      have hsep : picolGetToken ⟨' ' :: line ((next :: words).map braced), w, .str, false⟩ =
          some ⟨line ((next :: words).map braced), [' '], .sep, false⟩ := by
        rw [getToken_sep]
        cases words <;> rfl
      obtain ⟨token', hrest⟩ : ∃ token', Leads (.tokens i
          ⟨line ((next :: words).map braced), [' '], .sep, false⟩ (argv ++ [w])) (.tokens i
          ⟨[], token', .str, false⟩ (argv ++ [w] ++ next :: words)) := ih hwords (.inl rfl) rfl
      rw [List.append_assoc] at hrest
      exact ⟨token', (leads_word hp (.inr rfl) htype).trans ((leads_sep hsep rfl).trans hrest)⟩

/-- A command in braces is called with the words that were put there, whatever they are. -/
theorem eval_quoted {name : List Char} {args : List (List Char)} {c : Cmd}
    (hwords : ∀ word ∈ name :: args, Braced word) (hc : picolGetCommand i name = some c) :
    Returns (.eval i (line ((name :: args).map braced))) reply ↔
      Calls (picolSetResult i []) (name :: args) c.func reply := by
  have heval : Leads (.eval i (line ((name :: args).map braced))) (.tokens (picolSetResult i [])
      ⟨line ((name :: args).map braced), [], .eol, false⟩ []) := .step fun _ => rfl
  obtain ⟨token', hargv⟩ : ∃ token', Leads (.tokens (picolSetResult i [])
      ⟨line ((name :: args).map braced), [], .eol, false⟩ []) (.tokens (picolSetResult i [])
      ⟨[], token', .str, false⟩ (name :: args)) := leads_braced hwords (.inr rfl)
  have hbegin := heval.trans hargv
  have hp : picolGetToken ⟨[], token', .str, false⟩ = some ⟨[], token', .eol, false⟩ := rfl
  have hc' : picolGetCommand (picolSetResult i []) name = some c := hc
  have hforth : ∀ reply, Calls (picolSetResult i []) (name :: args) c.func reply →
      Returns (.eval i (line ((name :: args).map braced))) reply := by
    intro reply hcalls
    refine hbegin.forth _ ?_
    rcases reply with stop | ⟨code, j⟩
    · exact returns_stop hp rfl hc' hcalls
    · by_cases hcode : code = .ok
      · subst hcode
        exact (leads_call hp rfl hc' hcalls).forth _ (returns_eof getToken_nil rfl)
      · exact returns_call hp rfl hc' hcalls hcode
  refine ⟨fun hreturns => ?_, hforth reply⟩
  obtain ⟨depth, hdepth⟩ := (hbegin.returns_iff reply).mp hreturns
  obtain ⟨less, -, reply', hcalls⟩ := exists_calls hp rfl hc' hdepth
  have hcalls' : Calls (picolSetResult i []) (name :: args) c.func reply' := ⟨less, hcalls⟩
  rwa [Unfolding.Returns.unique respond_mono hreturns (hforth _ hcalls')]

theorem eval_quoted_puts :
    Returns (.eval started (line (["puts".toList, "[a] $b; \"c".toList].map braced)))
      (.ok (.ok, ⟨started.callframe, [], started.commands, [], "[a] $b; \"c\n".toList⟩)) := by
  have hc : picolGetCommand started "puts".toList = some ⟨"puts".toList, .puts⟩ := by decide
  refine (eval_quoted (by decide) hc).mpr ⟨0, ?_⟩
  rfl

end Fip.Picol
