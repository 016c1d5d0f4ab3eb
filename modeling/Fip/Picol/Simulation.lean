import Fip.Picol.Programs

/-!
# The interpreter runs structured programs

Where the variables and the output of the interpreter agree with a state, its script does
what the program does: the same output and the same values, the same exit as a return code,
the message of the failure as its result; and it returns only if the program ends.
-/

namespace Fip.Picol

open Nesting Structured Unfolding

/-- The interpreter has the core commands, and the variables and the output of the state. -/
structure Agrees (s : Env) (i : Interp) : Prop where
  core : ∀ name f, (name, f) ∈ coreCommands →
    picolGetCommand i name.toList = some ⟨name.toList, f⟩
  vars : ∀ x : Name, (picolGetVar i x.text).map Var.val = (s.vars x).map showLong
  out : i.out = s.out

theorem agrees_started : Agrees ⟨fun _ => none, []⟩ started where
  core := by
    have hcore : ∀ c ∈ coreCommands,
        picolGetCommand started c.1.toList = some ⟨c.1.toList, c.2⟩ := by decide
    exact fun name f hmem => hcore (name, f) hmem
  vars _ := rfl
  out := rfl

variable {s s' : Env} {i j : Interp} {w r rest token : List Char} {type : TokenType}
  {argv args : List (List Char)} {request request' : Request} {code : Code} {reply : Reply}
  {e : Expr} {x : Exit Error}

section State

theorem find_assign (name name' val : List Char) (vars : List Var)
    (hname : (vars.find? (·.name = name)).isSome) :
    ((assign name val vars).find? (·.name = name')).map Var.val =
      if name' = name then some val else (vars.find? (·.name = name')).map Var.val := by
  induction vars with
  | nil => cases hname
  | cons v vars ih =>
      rw [assign]
      by_cases hv : v.name = name
      · rw [if_pos hv]
        by_cases hname' : name' = name
        · rw [if_pos hname', List.find?_cons_of_pos (by simp [hv, hname'])]
          rfl
        · have hne : v.name ≠ name' := fun heq => hname' (heq.symm.trans hv)
          rw [if_neg hname', List.find?_cons_of_neg (by simpa using hne),
            List.find?_cons_of_neg (by simpa using hne)]
      · rw [List.find?_cons_of_neg (by simpa using hv)] at hname
        rw [if_neg hv]
        by_cases hv' : v.name = name'
        · have hne : name' ≠ name := fun heq => hv (hv'.trans heq)
          rw [List.find?_cons_of_pos (by simpa using hv'),
            List.find?_cons_of_pos (by simpa using hv'), if_neg hne]
        · rw [List.find?_cons_of_neg (by simpa using hv'),
            List.find?_cons_of_neg (by simpa using hv'), ih hname]

/-- A variable has the value that it was set to, and the others keep theirs. -/
theorem getVar_setVar (i : Interp) (name val name' : List Char) :
    (picolGetVar (picolSetVar i name val) name').map Var.val =
      if name' = name then some val else (picolGetVar i name').map Var.val := by
  unfold picolSetVar
  cases hv : picolGetVar i name with
  | some v =>
      refine find_assign name name' val _ ?_
      rw [picolGetVar] at hv
      rw [hv]
      rfl
  | none =>
      by_cases hname : name' = name
      · rw [if_pos hname, picolGetVar, List.find?_cons_of_pos (by simp [hname])]
        rfl
      · rw [if_neg hname, picolGetVar, List.find?_cons_of_neg (by simpa using Ne.symm hname)]
        rfl

theorem Agrees.setResult (hs : Agrees s i) (text : List Char) :
    Agrees s (picolSetResult i text) := ⟨hs.core, hs.vars, hs.out⟩

theorem commands_setVar (i : Interp) (name val : List Char) :
    (picolSetVar i name val).commands = i.commands ∧ (picolSetVar i name val).out = i.out := by
  unfold picolSetVar
  cases picolGetVar i name <;> exact ⟨rfl, rfl⟩

theorem Name.text_injective : Function.Injective Name.text := by
  rintro ⟨x, _, _⟩ ⟨y, _, _⟩ hxy
  cases hxy
  rfl

theorem Agrees.setVar (hs : Agrees s i) (x : Name) (v : Long) :
    Agrees { s with vars := Function.update s.vars x (some v) }
      (picolSetVar i x.text (showLong v)) where
  core name f hmem := by
    rw [picolGetCommand, (commands_setVar i x.text (showLong v)).1]
    exact hs.core name f hmem
  vars y := by
    rw [getVar_setVar]
    change _ = (Function.update s.vars x (some v) y).map showLong
    by_cases hxy : y = x
    · subst hxy
      rw [if_pos rfl, Function.update_self]
      rfl
    · rw [if_neg (Name.text_injective.ne hxy), Function.update_of_ne hxy]
      exact hs.vars y
  out := by
    rw [(commands_setVar i x.text (showLong v)).2]
    exact hs.out

end State

section Words

/-- A text that starts with something other than a blank or a semicolon. -/
def Solid (w : List Char) : Prop := ∃ c t, w = c :: t ∧ isBlank c = false ∧ c ≠ ';'

theorem Solid.append (hw : Solid w) (r : List Char) : Solid (w ++ r) := by
  obtain ⟨c, t, rfl, hc⟩ := hw
  exact ⟨c, t ++ r, rfl, hc⟩

theorem Solid.dropBlanks (hw : Solid w) : w.dropWhile isBlank = w := by
  obtain ⟨c, t, rfl, hblank, -⟩ := hw
  rw [List.dropWhile_cons_of_neg (by simp [hblank])]

theorem Solid.dropEnds (hw : Solid w) : (w.dropWhile fun c => isBlank c || c == ';') = w := by
  obtain ⟨c, t, rfl, hblank, hsemi⟩ := hw
  rw [List.dropWhile_cons_of_neg (by simp [hblank, hsemi])]

theorem solid_of_plain (hne : w ≠ []) (hw : ∀ c ∈ w, isPlain c = true) : Solid w := by
  obtain ⟨c, t, rfl⟩ := List.exists_cons_of_ne_nil hne
  have hc := hw c List.mem_cons_self
  simp only [isPlain, Bool.not_eq_true', Bool.or_eq_false_iff, beq_eq_false_iff_ne] at hc
  exact ⟨c, t, rfl, hc.1.1.1.1.1.1.1, hc.1.1.1.1.1.1.2⟩

theorem Name.plain (x : Name) : ∀ c ∈ x.text, isPlain c = true :=
  fun c hc => (ordinary_of_isName (x.valid c hc)).1

theorem plain_showLong (v : Long) : ∀ c ∈ showLong v, isPlain c = true :=
  fun _ hc => (ordinary_of_isNumeral (isNumeral_of_mem hc)).1

theorem solid_text (e : Expr) : Solid e.text := by
  cases e with
  | lit v => exact solid_of_plain (showLong_ne_nil v) (plain_showLong v)
  | var x => exact ⟨'$', x.text, rfl, rfl, by decide⟩
  | op o l r => exact ⟨'[', _, rfl, rfl, by decide⟩

theorem solid_braced (w : List Char) : Solid (braced w) := ⟨'{', _, rfl, rfl, by decide⟩

/-- A plain word and the blank behind it. -/
theorem leads_plain (i : Interp) (argv : List (List Char)) (token : List Char) (hne : w ≠ [])
    (hw : ∀ c ∈ w, isPlain c = true) (hrest : Solid rest) (htype : type = .sep ∨ type = .eol) :
    Leads (.tokens i ⟨w ++ ' ' :: rest, token, type, false⟩ argv)
      (.tokens i ⟨rest, ' ' :: rest.takeWhile isBlank, .sep, false⟩ (argv ++ [w])) := by
  have hp : picolGetToken ⟨w ++ ' ' :: rest, token, type, false⟩ =
      some ⟨' ' :: rest, w, .esc, false⟩ :=
    getToken_plain hne hw (ends_cons (.inl rfl))
  have hsep : picolGetToken ⟨' ' :: rest, w, .esc, false⟩ =
      some ⟨rest, ' ' :: rest.takeWhile isBlank, .sep, false⟩ := by
    rw [getToken_sep, hrest.dropBlanks]
  exact (leads_word hp (.inl rfl) htype).trans (leads_sep hsep rfl)

/-- A word in braces, with anything behind it. -/
theorem leads_brace (i : Interp) (argv : List (List Char)) (token r : List Char) (hw : Braced w)
    (htype : type = .sep ∨ type = .eol) :
    Leads (.tokens i ⟨braced w ++ r, token, type, false⟩ argv)
      (.tokens i ⟨r, w, .str, false⟩ (argv ++ [w])) := by
  have hnew : type.newword = true := by
    rcases htype with rfl | rfl <;> rfl
  have hp : picolGetToken ⟨braced w ++ r, token, type, false⟩ = some ⟨r, w, .str, false⟩ := by
    rw [braced, List.cons_append, List.append_assoc, List.singleton_append,
      getToken_brace hw hnew]
  exact leads_word hp (.inr rfl) htype

theorem leads_brace_sep (i : Interp) (argv : List (List Char)) (token : List Char)
    (hw : Braced w) (hrest : Solid rest) (htype : type = .sep ∨ type = .eol) :
    Leads (.tokens i ⟨braced w ++ ' ' :: rest, token, type, false⟩ argv)
      (.tokens i ⟨rest, ' ' :: rest.takeWhile isBlank, .sep, false⟩ (argv ++ [w])) := by
  have hsep : picolGetToken ⟨' ' :: rest, w, .str, false⟩ =
      some ⟨rest, ' ' :: rest.takeWhile isBlank, .sep, false⟩ := by
    rw [getToken_sep, hrest.dropBlanks]
  exact (leads_brace i argv token _ hw htype).trans (leads_sep hsep rfl)

end Words

section Expressions

/-- The request returns with the failure, and the state is as it was. -/
def Fails (s : Env) (request : Request) (err : Error) : Prop :=
  ∃ j, Agrees s j ∧ j.result = err.text ∧ Returns request (.ok (.err, j))

/-- The value of an expression is the next word of the command. -/
def TakesWord (s : Env) (request : Request) (argv : List (List Char)) (r : List Char) :
    Except Error Long → Prop
  | .ok v => ∃ j token type, Agrees s j ∧ (type ≠ .eol ∧ type ≠ .eof) ∧
      Leads request (.tokens j ⟨r, token, type, false⟩ (argv ++ [showLong v]))
  | .error err => Fails s request err

/-- The value of a command is the result of its script. -/
def HasResult (s : Env) (request : Request) : Except Error Long → Prop
  | .ok v => ∃ j, Agrees s j ∧ j.result = showLong v ∧ Returns request (.ok (.ok, j))
  | .error err => Fails s request err

theorem Fails.of_leads {err : Error} (hleads : Leads request request')
    (hfails : Fails s request' err) : Fails s request err := by
  obtain ⟨j, hj, hresult, hreturns⟩ := hfails
  exact ⟨j, hj, hresult, hleads.forth _ hreturns⟩

theorem HasResult.of_leads {value : Except Error Long} (hleads : Leads request request')
    (hresult : HasResult s request' value) : HasResult s request value := by
  cases value with
  | error err => exact Fails.of_leads hleads hresult
  | ok v =>
      obtain ⟨j, hj, hv, hreturns⟩ := hresult
      exact ⟨j, hj, hv, hleads.forth _ hreturns⟩

/-- What `picolCommandMath` returns for a value or a failure. -/
def mathReply (i : Interp) : Except Error Long → Code × Interp
  | .ok v => (.ok, picolSetResult i (showLong v))
  | .error err => (.err, picolSetResult i err.text)

theorem commandMath_eq (i : Interp) (o : Op) (a b : Long) :
    picolCommandMath i [o.name.toList, showLong a, showLong b] = mathReply i (o.apply a b) := by
  have hcomputes : ∀ c₀ c₁, o.name.toList.getD 0 '\x00' = c₀ → o.name.toList.getD 1 '\x00' = c₁ →
      picolCommandMath i [o.name.toList, showLong a, showLong b] =
        if b = 0 ∧ c₀ = '/' ∨ c₀ = '%' then
          (.err, picolSetResult i "Division by zero".toList)
        else (.ok, picolSetResult i (showLong (mathResult c₀ c₁ a b))) := by
    rintro c₀ c₁ rfl rfl
    rw [picolCommandMath]
    simp only [atol_showLong]
  cases o with
  | div =>
      rw [hcomputes '/' '\x00' rfl rfl]
      by_cases hzero : b = 0
      · rw [if_pos (.inl ⟨hzero, rfl⟩), Op.apply, if_pos hzero]
        rfl
      · rw [if_neg (by simpa using hzero), Op.apply, if_neg hzero]
        rfl
  | add => exact (hcomputes '+' '\x00' rfl rfl).trans (if_neg (by simp))
  | sub => exact (hcomputes '-' '\x00' rfl rfl).trans (if_neg (by simp))
  | mul => exact (hcomputes '*' '\x00' rfl rfl).trans (if_neg (by simp))
  | gt => exact (hcomputes '>' '\x00' rfl rfl).trans (if_neg (by simp))
  | ge => exact (hcomputes '>' '=' rfl rfl).trans (if_neg (by simp))
  | lt => exact (hcomputes '<' '\x00' rfl rfl).trans (if_neg (by simp))
  | le => exact (hcomputes '<' '=' rfl rfl).trans (if_neg (by simp))
  | eq => exact (hcomputes '=' '=' rfl rfl).trans (if_neg (by simp))
  | ne => exact (hcomputes '!' '=' rfl rfl).trans (if_neg (by simp))

theorem mem_coreCommands (o : Op) : (o.name, Func.math) ∈ coreCommands := by
  cases o <;> decide

theorem op_name_ne_nil (o : Op) : o.name.toList ≠ [] := by
  cases o <;> decide

/-- All words of a command on numbers are there. -/
theorem hasResult_math (hs : Agrees s i) (o : Op) (a b : Long) (token : List Char)
    (htype : type ≠ .eol ∧ type ≠ .eof) :
    HasResult s (.tokens i ⟨[], token, type, false⟩
      [o.name.toList, showLong a, showLong b]) (o.apply a b) := by
  have hp : picolGetToken ⟨[], token, type, false⟩ = some ⟨[], token, .eol, false⟩ := by
    rw [getToken_nil, if_pos htype]
  have hc := hs.core o.name .math (mem_coreCommands o)
  have hcalls : Calls i [o.name.toList, showLong a, showLong b] .math
      (.ok (mathReply i (o.apply a b))) := ⟨0, congrArg (some ∘ Except.ok) (commandMath_eq i o a b)⟩
  cases hvalue : o.apply a b with
  | ok v =>
      rw [hvalue] at hcalls
      have hleads := leads_call hp rfl hc hcalls
      exact ⟨_, hs.setResult _, rfl, hleads.forth _ (returns_eof getToken_nil rfl)⟩
  | error err =>
      rw [hvalue] at hcalls
      exact ⟨_, hs.setResult _, rfl, returns_call hp rfl hc hcalls (by decide)⟩

/-- What is known of the words of an expression. -/
def Evaluates (s : Env) (e : Expr) : Prop :=
  ∀ i r token type argv, Agrees s i → Ends r → (type = .sep ∨ type = .eol) →
    TakesWord s (.tokens i ⟨e.text ++ r, token, type, false⟩ argv) argv r (e.eval s)

/-- A command on two expressions, from left to right. -/
theorem hasResult_op {l e : Expr} (o : Op) (hl : Evaluates s l) (he : Evaluates s e)
    (hs : Agrees s i) :
    HasResult s (.eval i (line [o.name.toList, l.text, e.text])) ((Expr.op o l e).eval s) := by
  have hbegin : Leads (.eval i (line [o.name.toList, l.text, e.text]))
      (.tokens (picolSetResult i []) ⟨line [o.name.toList, l.text, e.text], [], .eol, false⟩ []) :=
    .step fun _ => rfl
  have hline : line [o.name.toList, l.text, e.text] =
      o.name.toList ++ ' ' :: (l.text ++ ' ' :: e.text) := by
    rw [line_cons, line_cons, line_singleton]
  have hname := leads_plain (picolSetResult i []) [] [] (op_name_ne_nil o)
    (fun c hc => (ordinary_op o c hc).1) ((solid_text l).append (' ' :: e.text))
    (.inr (Eq.refl TokenType.eol))
  rw [hline] at hbegin ⊢
  refine HasResult.of_leads (hbegin.trans hname) ?_
  have hfirst := hl _ (' ' :: e.text) (' ' :: (l.text ++ ' ' :: e.text).takeWhile isBlank) .sep
    ([] ++ [o.name.toList]) (hs.setResult []) (ends_cons (.inl rfl)) (.inl rfl)
  cases ha : l.eval s with
  | error err =>
      rw [ha] at hfirst
      have hvalue : (Expr.op o l e).eval s = .error err := by
        rw [Expr.eval, ha]
        rfl
      rw [hvalue]
      exact hfirst
  | ok a =>
      rw [ha] at hfirst
      obtain ⟨j, token, type, hj, -, hleads⟩ := hfirst
      have hsep : picolGetToken ⟨' ' :: e.text, token, type, false⟩ =
          some ⟨e.text, ' ' :: e.text.takeWhile isBlank, .sep, false⟩ := by
        rw [getToken_sep, (solid_text e).dropBlanks]
      refine HasResult.of_leads (hleads.trans (leads_sep hsep rfl)) ?_
      have hsecond := he j [] (' ' :: e.text.takeWhile isBlank) .sep
        ([] ++ [o.name.toList] ++ [showLong a]) hj ends_nil (.inl rfl)
      rw [List.append_nil] at hsecond
      cases hb : e.eval s with
      | error err =>
          rw [hb] at hsecond
          have hvalue : (Expr.op o l e).eval s = .error err := by
            rw [Expr.eval, ha, hb]
            rfl
          rw [hvalue]
          exact hsecond
      | ok b =>
          rw [hb] at hsecond
          obtain ⟨k, token, type, hk, htype, hleads⟩ := hsecond
          have hvalue : (Expr.op o l e).eval s = o.apply a b := by
            rw [Expr.eval, ha, hb]
            rfl
          rw [hvalue]
          exact HasResult.of_leads hleads (hasResult_math hk o a b token htype)

/-- Induction over expressions: the word of an expression is its value. -/
theorem evaluates (s : Env) (e : Expr) : Evaluates s e := by
  induction e with
  | lit v =>
      intro i r token type argv hs hr htype
      have hp : picolGetToken ⟨showLong v ++ r, token, type, false⟩ =
          some ⟨r, showLong v, .esc, false⟩ :=
        getToken_plain (showLong_ne_nil v) (plain_showLong v) hr
      exact ⟨i, _, _, hs, by decide, leads_word hp (.inl rfl) htype⟩
  | var x =>
      intro i r token type argv hs hr htype
      have hends : ∀ c ∈ r.head?, isName c = false := by
        intro c hc
        rcases hr c hc with hblank | rfl
        · by_contra hname
          rw [Bool.not_eq_false] at hname
          have hplain := (ordinary_of_isName hname).1
          rw [isPlain, hblank] at hplain
          cases hplain
        · rfl
      have hp : picolGetToken ⟨'$' :: (x.text ++ r), token, type, false⟩ =
          some ⟨r, x.text, .var, false⟩ := getToken_var x.ne_nil x.valid hends
      have hvars := hs.vars x
      cases hv : s.vars x with
      | none =>
          rw [hv] at hvars
          have hvalue : (Expr.var x).eval s = .error (.noVar x) := by rw [Expr.eval, hv]
          rw [hvalue]
          exact ⟨_, hs.setResult _, rfl,
            returns_noVar hp rfl (Option.map_eq_none_iff.mp hvars)⟩
      | some v =>
          rw [hv] at hvars
          obtain ⟨var, hvar, hval⟩ := Option.map_eq_some_iff.mp hvars
          have hvalue : (Expr.var x).eval s = .ok v := by rw [Expr.eval, hv]
          have hleads : Leads (.tokens i _ argv) _ := leads_var hp rfl hvar htype
          rw [hval] at hleads
          rw [hvalue]
          exact ⟨i, _, _, hs, by decide, hleads⟩
  | op o l e hl he =>
      intro i r token type argv hs hr htype
      have hinner : Bracketed (line [o.name.toList, l.text, e.text]) := by
        have ho : Bracketed o.name.toList :=
          bracketed_of_ordinary fun c hc => (ordinary_op o c hc).2
        exact bracketed_line (by simp [ho, bracketed_text])
      have hp : picolGetToken ⟨(Expr.op o l e).text ++ r, token, type, false⟩ =
          some ⟨r, line [o.name.toList, l.text, e.text], .cmd, false⟩ := by
        rw [Expr.text, List.cons_append, List.append_assoc, List.singleton_append,
          getToken_command hinner]
      have hresult := hasResult_op o hl he hs
      cases hvalue : (Expr.op o l e).eval s with
      | error err =>
          rw [hvalue] at hresult
          obtain ⟨j, hj, htext, hreturns⟩ := hresult
          exact ⟨j, hj, htext, returns_command hp rfl hreturns (by decide)⟩
      | ok v =>
          rw [hvalue] at hresult
          obtain ⟨j, hj, hv, hreturns⟩ := hresult
          have hleads : Leads (.tokens i _ argv) _ := leads_command hp rfl hreturns htype
          rw [hv] at hleads
          exact ⟨j, _, _, hj, by decide, hleads⟩

theorem hasResult_test (b : Test) (hs : Agrees s i) :
    HasResult s (.eval i b.text) (b.eval s) :=
  hasResult_op b.o (evaluates s b.l) (evaluates s b.r) hs

end Expressions

section Commands

/-- The end of a text, or of a line. -/
def Stops (r : List Char) : Prop := r = [] ∨ ∃ next, r = '\n' :: next

/-- What is left behind the end of a line. -/
def nextLine (r : List Char) : List Char := r.dropWhile fun c => isBlank c || c == ';'

/-- The return code for an exit. -/
def codeOf : Exit Error → Code
  | .done => .ok
  | .broke => .brk
  | .continued => .cont
  | .failed _ => .err

/-- The state behind a program, and the message if it failed. -/
def Reflects (s : Env) (x : Exit Error) (i : Interp) : Prop :=
  Agrees s i ∧ ∀ err, x = .failed err → i.result = err.text

/-- A command goes on with the next line if it returns `PICOL_OK`, and ends the script
otherwise. -/
def Concludes (request : Request) (r : List Char) (code : Code) (i : Interp) : Prop :=
  if code = .ok then ∃ token, Leads request (.tokens i ⟨nextLine r, token, .eol, false⟩ [])
  else Returns request (.ok (code, i))

theorem Stops.ends (hr : Stops r) : Ends r := by
  rcases hr with rfl | ⟨next, rfl⟩
  · exact ends_nil
  · exact ends_cons (.inl rfl)

theorem Reflects.of_agrees (hs : Agrees s i) (hx : ∀ err, x ≠ .failed err) : Reflects s x i :=
  ⟨hs, fun err herr => absurd herr (hx err)⟩

theorem Concludes.of_leads (hleads : Leads request request')
    (hconcludes : Concludes request' r code i) : Concludes request r code i := by
  unfold Concludes at hconcludes ⊢
  split_ifs at hconcludes ⊢
  · obtain ⟨token, hnext⟩ := hconcludes
    exact ⟨token, hleads.trans hnext⟩
  · exact hleads.forth _ hconcludes

theorem getToken_stops (token : List Char) (hr : Stops r) (htype : type ≠ .eol ∧ type ≠ .eof) :
    ∃ token', picolGetToken ⟨r, token, type, false⟩ =
      some ⟨nextLine r, token', .eol, false⟩ := by
  rcases hr with rfl | ⟨next, rfl⟩
  · exact ⟨token, by rw [getToken_nil, if_pos htype]; rfl⟩
  · exact ⟨_, getToken_eol⟩

/-- The last word of a command is there, and the command is called. -/
theorem concludes_call {name : String} {f : Func} (hs : Agrees s i) (hr : Stops r)
    (htype : type ≠ .eol ∧ type ≠ .eof) (hcore : (name, f) ∈ coreCommands)
    (hcalls : Calls i (name.toList :: args) f (.ok (code, j))) (token : List Char) :
    Concludes (.tokens i ⟨r, token, type, false⟩ (name.toList :: args)) r code j := by
  obtain ⟨token', hp⟩ := getToken_stops token hr htype
  have hc := hs.core name f hcore
  unfold Concludes
  split_ifs with hcode
  · subst hcode
    exact ⟨token', leads_call hp rfl hc hcalls⟩
  · exact returns_call hp rfl hc hcalls hcode

section Computations

variable {first : Request} {next : (Request → Option Reply) → Code → Interp → Option Reply}
  {then' : (Request → Option Reply) → Interp → Option Reply}

theorem computes_onReply (hfirst : Returns first (.ok (code, j)))
    (hstable : Stable fun call => next call code j)
    (hnext : Computes respond (fun call => next call code j) reply) :
    Computes respond (fun call => onReply (call first) (next call)) reply := by
  obtain ⟨depth, hdepth⟩ := hfirst
  obtain ⟨more, hmore⟩ := hnext
  refine ⟨max depth more, ?_⟩
  have hfirst := unfolded_mono respond_mono (Nat.le_max_left depth more) _ _ hdepth
  have hmax := unfolded_mono respond_mono (Nat.le_max_right depth more)
  dsimp only
  rw [hfirst]
  exact hstable _ _ hmax _ hmore

theorem computes_onOk (hfirst : Returns first (.ok (.ok, j)))
    (hstable : Stable fun call => then' call j)
    (hthen : Computes respond (fun call => then' call j) reply) :
    Computes respond (fun call => onOk (call first) (then' call)) reply :=
  computes_onReply hfirst hstable hthen

theorem computes_exits (hfirst : Returns first (.ok (code, j))) (hcode : code ≠ .ok) :
    Computes respond (fun call => onOk (call first) (then' call)) (.ok (code, j)) := by
  obtain ⟨depth, hdepth⟩ := hfirst
  refine ⟨depth, ?_⟩
  dsimp only
  rw [hdepth]
  exact if_pos hcode

end Computations

/-- The script of a part returns what the part does. -/
def Runs (s : Env) (text : List Char) (x : Exit Error) (s' : Env) : Prop :=
  ∀ i, Agrees s i → ∃ j, Reflects s' x j ∧ Returns (.eval i text) (.ok (codeOf x, j))

/-- What a test says, as the exit of its script and as its result. -/
theorem test_cases {b : Test} (hs : Agrees s i) :
    (∃ c j, meaning.test b s = .ok c ∧ Agrees s j ∧ (atol j.result ≠ 0 ↔ c = true) ∧
      Returns (.eval i b.text) (.ok (.ok, j))) ∨
      ∃ err j, meaning.test b s = .error err ∧ Reflects s (.failed err) j ∧
        Returns (.eval i b.text) (.ok (.err, j)) := by
  have hresult := hasResult_test b hs
  have hmeaning : meaning.test b s = (b.eval s).map fun v => decide (v ≠ 0) := by
    cases hvalue : b.eval s <;> simp [meaning, hvalue] <;> rfl
  cases hvalue : b.eval s with
  | ok v =>
      rw [hvalue] at hresult hmeaning
      obtain ⟨j, hj, htext, hreturns⟩ := hresult
      refine .inl ⟨decide (v ≠ 0), j, hmeaning, hj, ?_, hreturns⟩
      rw [htext, atol_showLong, decide_eq_true_iff]
  | error err =>
      rw [hvalue] at hresult hmeaning
      obtain ⟨j, hj, htext, hreturns⟩ := hresult
      refine .inr ⟨err, j, hmeaning, ⟨hj, ?_⟩, hreturns⟩
      rintro _ ⟨⟩
      exact htext

theorem hasResult_true {b : Test} (hs : Agrees s i) (htest : meaning.test b s = .ok true) :
    ∃ j, Agrees s j ∧ atol j.result ≠ 0 ∧ Returns (.eval i b.text) (.ok (.ok, j)) := by
  rcases test_cases hs with ⟨c, j, hc, hj, hiff, hreturns⟩ | ⟨err, j, hfails, -⟩
  · obtain rfl : true = c := Except.ok.inj (htest.symm.trans hc)
    exact ⟨j, hj, hiff.mpr rfl, hreturns⟩
  · rw [htest] at hfails
    cases hfails

theorem hasResult_false {b : Test} (hs : Agrees s i) (htest : meaning.test b s = .ok false) :
    ∃ j, Agrees s j ∧ (atol j.result ≠ 0) = False ∧ Returns (.eval i b.text) (.ok (.ok, j)) := by
  rcases test_cases hs with ⟨c, j, hc, hj, hiff, hreturns⟩ | ⟨err, j, hfails, -⟩
  · obtain rfl : false = c := Except.ok.inj (htest.symm.trans hc)
    exact ⟨j, hj, eq_false fun hne => Bool.noConfusion (hiff.mp hne), hreturns⟩
  · rw [htest] at hfails
    cases hfails

theorem hasResult_fails {b : Test} {err : Error} (hs : Agrees s i)
    (htest : meaning.test b s = .error err) :
    ∃ j, Reflects s (.failed err) j ∧ Returns (.eval i b.text) (.ok (.err, j)) := by
  rcases test_cases hs with ⟨c, j, hc, -⟩ | ⟨err', j, hfails, hj, hreturns⟩
  · rw [htest] at hc
    cases hc
  · obtain rfl : err = err' := Except.error.inj (htest.symm.trans hfails)
    exact ⟨j, hj, hreturns⟩

variable {b : Test} {body other : List Char}

/-- `picolCommandIf` for a number of words that it takes. -/
theorem callFunc_if (i : Interp) (hargs : args.length = 0 ∨ args.length = 2) :
    (fun call => callFunc call i ("if".toList :: b.text :: body :: args) .if) =
      fun call => onOk (call (.eval i b.text)) fun i =>
        if atol i.result ≠ 0 then call (.eval i body)
        else if args.length = 2 then call (.eval i (args.getD 1 []))
        else some (.ok (.ok, i)) := by
  funext call
  have hargc : ¬ (("if".toList :: b.text :: body :: args).length ≠ 3 ∧
      ("if".toList :: b.text :: body :: args).length ≠ 5) := by
    simp only [List.length_cons]
    omega
  have hfive : ("if".toList :: b.text :: body :: args).length = 5 ↔ args.length = 2 := by
    simp only [List.length_cons]
    omega
  rw [callFunc, picolCommandIf, if_neg hargc]
  simp only [hfive]
  rfl

theorem calls_if_true (hs : Agrees s i) (hargs : args.length = 0 ∨ args.length = 2)
    (htest : meaning.test b s = .ok true) (hbody : Runs s body x s') :
    ∃ j, Reflects s' x j ∧
      Calls i ("if".toList :: b.text :: body :: args) .if (.ok (codeOf x, j)) := by
  obtain ⟨j, hj, hiff, hreturns⟩ := hasResult_true hs htest
  obtain ⟨k, hk, hthen⟩ := hbody j hj
  refine ⟨k, hk, ?_⟩
  rw [Calls, callFunc_if i hargs]
  refine computes_onOk hreturns ?_ ?_
  · simp only [if_pos hiff]
    exact stable_call _
  · simp only [if_pos hiff]
    exact hthen.computes

theorem calls_if_not (hs : Agrees s i) (htest : meaning.test b s = .ok false) :
    ∃ j, Agrees s j ∧ Calls i ["if".toList, b.text, body] .if (.ok (.ok, j)) := by
  obtain ⟨j, hj, hzero, hreturns⟩ := hasResult_false hs htest
  refine ⟨j, hj, ?_⟩
  rw [Calls, callFunc_if i (.inl rfl)]
  refine computes_onOk hreturns ?_ ?_
  · simp only [hzero]
    exact fun _ _ _ _ hsome => hsome
  · simp only [hzero]
    exact ⟨0, rfl⟩

theorem calls_if_else (hs : Agrees s i) (htest : meaning.test b s = .ok false)
    (hother : Runs s other x s') :
    ∃ j, Reflects s' x j ∧
      Calls i ["if".toList, b.text, body, "else".toList, other] .if (.ok (codeOf x, j)) := by
  obtain ⟨j, hj, hzero, hreturns⟩ := hasResult_false hs htest
  obtain ⟨k, hk, helse⟩ := hother j hj
  refine ⟨k, hk, ?_⟩
  rw [Calls, callFunc_if i (.inr rfl)]
  refine computes_onOk hreturns ?_ ?_
  · simp only [hzero]
    exact stable_call _
  · simp only [hzero]
    exact helse.computes

theorem calls_if_fails {err : Error} (hs : Agrees s i)
    (hargs : args.length = 0 ∨ args.length = 2) (htest : meaning.test b s = .error err) :
    ∃ j, Reflects s (.failed err) j ∧
      Calls i ("if".toList :: b.text :: body :: args) .if (.ok (.err, j)) := by
  obtain ⟨j, hj, hreturns⟩ := hasResult_fails hs htest
  refine ⟨j, hj, ?_⟩
  rw [Calls, callFunc_if i hargs]
  exact computes_exits hreturns (by decide)

/-- The loop of `picolCommandWhile` does what the loop of a program does. -/
def LoopRuns (s : Env) (b : Test) (body : List Char) (x : Exit Error) (s' : Env) : Prop :=
  ∀ i, Agrees s i → ∃ j, Reflects s' x j ∧
    Returns (.loop i ["while".toList, b.text, body]) (.ok (codeOf x, j))

theorem returns_loop (hbody : Computes respond
    (fun call => whileBody call i ["while".toList, b.text, body]) reply) :
    Returns (.loop i ["while".toList, b.text, body]) reply :=
  .of_computes hbody fun _ hsome => hsome

theorem loopRuns_ends (htest : meaning.test b s = .ok false) : LoopRuns s b body .done s := by
  intro i hs
  obtain ⟨j, hj, hzero, hreturns⟩ := hasResult_false hs htest
  refine ⟨j, .of_agrees hj (by simp), returns_loop (computes_onOk hreturns ?_ ?_)⟩
  · simp only [hzero]
    exact fun _ _ _ _ hsome => hsome
  · simp only [hzero]
    exact ⟨0, rfl⟩

theorem loopRuns_fails {err : Error} (htest : meaning.test b s = .error err) :
    LoopRuns s b body (.failed err) s := by
  intro i hs
  obtain ⟨j, hj, hreturns⟩ := hasResult_fails hs htest
  have hcode : Code.err ≠ .ok := by decide
  exact ⟨j, hj, returns_loop (computes_exits hreturns hcode)⟩

/-- What is done with the return code of the body. -/
def afterBody (argv : List (List Char)) (call : Request → Option Reply) (retcode : Code)
    (i : Interp) : Option Reply :=
  if retcode = .cont ∨ retcode = .ok then call (.loop i argv)
  else if retcode = .brk then some (.ok (.ok, i))
  else some (.ok (retcode, i))

theorem stable_afterBody (argv : List (List Char)) (retcode : Code) (i : Interp) :
    Stable fun call => afterBody argv call retcode i := by
  intro f g hbelow reply hsome
  unfold afterBody at hsome ⊢
  split_ifs at hsome ⊢
  · exact hbelow _ _ hsome
  · exact hsome
  · exact hsome

/-- A loop whose test succeeds. -/
theorem returns_loop_body (hs : Agrees s i) (htest : meaning.test b s = .ok true)
    (hbody : Runs s body x s') :
    ∃ j, Reflects s' x j ∧ ∀ reply,
      Computes respond (fun call => afterBody ["while".toList, b.text, body] call (codeOf x) j)
        reply → Returns (.loop i ["while".toList, b.text, body]) reply := by
  obtain ⟨j, hj, hiff, hreturns⟩ := hasResult_true hs htest
  obtain ⟨k, hk, hthen⟩ := hbody j hj
  refine ⟨k, hk, fun reply hafter => ?_⟩
  refine returns_loop (computes_onOk hreturns ?_ ?_)
  · simp only [if_pos hiff]
    intro f g hbelow reply hsome
    exact onReply_mono (hbelow _)
      (fun retcode i b => stable_afterBody ["while".toList, _, body] retcode i f g hbelow b) hsome
  · simp only [if_pos hiff]
    exact computes_onReply hthen (stable_afterBody ["while".toList, _, body] _ _) hafter

theorem loopRuns_again {s'' : Env} {y : Exit Error} (htest : meaning.test b s = .ok true)
    (hbody : Runs s body x s') (hx : x.GoesOn) (hloop : LoopRuns s' b body y s'') :
    LoopRuns s b body y s'' := by
  intro i hs
  obtain ⟨j, ⟨hj, -⟩, hafter⟩ := returns_loop_body hs htest hbody
  obtain ⟨k, hk, hreturns⟩ := hloop j hj
  refine ⟨k, hk, hafter _ ?_⟩
  have hcode : codeOf x = .cont ∨ codeOf x = .ok := by
    rcases hx with rfl | rfl
    · exact .inr rfl
    · exact .inl rfl
  simp only [afterBody, if_pos hcode]
  exact hreturns.computes

theorem loopRuns_breaks (htest : meaning.test b s = .ok true) (hbody : Runs s body .broke s') :
    LoopRuns s b body .done s' := by
  intro i hs
  obtain ⟨j, ⟨hj, -⟩, hafter⟩ := returns_loop_body hs htest hbody
  exact ⟨j, .of_agrees hj (by simp), hafter _ ⟨0, rfl⟩⟩

theorem loopRuns_exits {err : Error} (htest : meaning.test b s = .ok true)
    (hbody : Runs s body (.failed err) s') : LoopRuns s b body (.failed err) s' := by
  intro i hs
  obtain ⟨j, hj, hafter⟩ := returns_loop_body hs htest hbody
  exact ⟨j, hj, hafter _ ⟨0, rfl⟩⟩

end Commands

section Programs

variable {p q : Prog Action Test} {b : Test}

/-- A script does what its program does, with more lines behind it or at its end. -/
def Simulates (p : Prog Action Test) (s : Env) (x : Exit Error) (s' : Env) : Prop :=
  ∀ i r token, Agrees s i → Stops r → ∃ j, Reflects s' x j ∧
    Concludes (.tokens i ⟨script p ++ r, token, .eol, false⟩ []) r (codeOf x) j

theorem codeOf_eq_ok : codeOf x = .ok ↔ x = .done := by
  cases x <;> simp [codeOf]

theorem Simulates.runs (hp : Simulates p s x s') : Runs s (script p) x s' := by
  intro i hs
  have hbegin : Leads (.eval i (script p))
      (.tokens (picolSetResult i []) ⟨script p ++ [], [], .eol, false⟩ []) := by
    rw [List.append_nil]
    exact .step fun _ => rfl
  obtain ⟨j, hj, hconcludes⟩ := hp _ [] [] (hs.setResult []) (.inl rfl)
  refine ⟨j, hj, hbegin.forth _ ?_⟩
  unfold Concludes at hconcludes
  split_ifs at hconcludes with hcode
  · obtain ⟨token, hleads⟩ := hconcludes
    rw [hcode]
    exact hleads.forth _ (returns_eof getToken_nil rfl)
  · exact hconcludes

theorem solid_script (p : Prog Action Test) : Solid (script p) := by
  induction p with
  | act a => cases a <;> exact ⟨_, _, rfl, rfl, by decide⟩
  | seq p q hp _ => exact hp.append _
  | when b p => exact ⟨'i', _, rfl, rfl, by decide⟩
  | cond b p q => exact ⟨'i', _, rfl, rfl, by decide⟩
  | loop b p => exact ⟨'w', _, rfl, rfl, by decide⟩
  | brk => exact ⟨'b', _, rfl, rfl, by decide⟩
  | cont => exact ⟨'c', _, rfl, rfl, by decide⟩

/-- The words of `if` and `while` up to the body. -/
theorem leads_control (keyword : String) (hne : keyword.toList ≠ [])
    (hplain : ∀ c ∈ keyword.toList, isPlain c = true) (i : Interp) (b : Test)
    (p : Prog Action Test) (r token : List Char) :
    Leads (.tokens i
        ⟨line [keyword.toList, braced b.text, braced (script p)] ++ r, token, .eol, false⟩ [])
      (.tokens i ⟨r, script p, .str, false⟩ [keyword.toList, b.text, script p]) := by
  have htext : line [keyword.toList, braced b.text, braced (script p)] ++ r =
      keyword.toList ++ ' ' :: (braced b.text ++ ' ' :: (braced (script p) ++ r)) := by
    rw [line_cons, line_cons, line_singleton]
    simp only [List.append_assoc, List.cons_append]
  rw [htext]
  exact (leads_plain i [] token hne hplain ((solid_braced _).append _) (.inr rfl)).trans
    ((leads_brace_sep i _ _ (braced_test b) ((solid_braced _).append _) (.inl rfl)).trans
      (leads_brace i _ _ r (braced_script p) (.inl rfl)))

theorem line_append (w₁ w₂ w₃ w₄ w₅ r : List Char) :
    line [w₁, w₂, w₃, w₄, w₅] ++ r = line [w₁, w₂, w₃] ++ ' ' :: (w₄ ++ ' ' :: (w₅ ++ r)) := by
  simp only [line_cons, line_singleton, List.append_assoc, List.cons_append]

/-- The words of `if` with `else`. -/
theorem leads_ifElse (i : Interp) (b : Test) (p q : Prog Action Test) (r token : List Char) :
    Leads (.tokens i ⟨script (.cond b p q) ++ r, token, .eol, false⟩ [])
      (.tokens i ⟨r, script q, .str, false⟩
        ["if".toList, b.text, script p, "else".toList, script q]) := by
  have helse : Solid ("else".toList ++ ' ' :: (braced (script q) ++ r)) :=
    (solid_of_plain (by decide) (List.all_eq_true.mp (by decide))).append _
  have hsep : ∀ token, picolGetToken ⟨' ' :: ("else".toList ++ ' ' :: (braced (script q) ++ r)),
      token, .str, false⟩ = some ⟨"else".toList ++ ' ' :: (braced (script q) ++ r),
        ' ' :: ("else".toList ++ ' ' :: (braced (script q) ++ r)).takeWhile isBlank, .sep,
        false⟩ := by
    intro token
    rw [getToken_sep, helse.dropBlanks]
  have htext : script (.cond b p q) ++ r = line ["if".toList, braced b.text, braced (script p)] ++
      ' ' :: ("else".toList ++ ' ' :: (braced (script q) ++ r)) := line_append _ _ _ _ _ r
  rw [htext]
  have hif := leads_control "if" (by decide) (List.all_eq_true.mp (by decide)) i b p
    (' ' :: ("else".toList ++ ' ' :: (braced (script q) ++ r))) token
  exact hif.trans ((leads_sep (hsep _) rfl).trans
      ((leads_plain i _ _ (by decide) (List.all_eq_true.mp (by decide))
        ((solid_braced _).append r) (.inl rfl)).trans
        (leads_brace i _ _ r (braced_script q) (.inl rfl))))

/-- A command of three words with two in braces, behind its last word. -/
theorem simulates_control {keyword : String} {f : Func} (hcore : (keyword, f) ∈ coreCommands)
    (hne : keyword.toList ≠ []) (hplain : ∀ c ∈ keyword.toList, isPlain c = true)
    (hs : Agrees s i) (hr : Stops r)
    (hcalls : ∃ j, Reflects s' x j ∧
      Calls i [keyword.toList, b.text, script p] f (.ok (codeOf x, j))) (token : List Char) :
    ∃ j, Reflects s' x j ∧ Concludes (.tokens i
        ⟨line [keyword.toList, braced b.text, braced (script p)] ++ r, token, .eol, false⟩ [])
      r (codeOf x) j := by
  obtain ⟨j, hj, hcalls⟩ := hcalls
  have hconcludes := concludes_call hs hr (by decide : TokenType.str ≠ .eol ∧ _) hcore hcalls
    (script p)
  exact ⟨j, hj, hconcludes.of_leads (leads_control keyword hne hplain i b p r token)⟩

theorem simulates_if (hcalls : ∀ i, Agrees s i → ∃ j, Reflects s' x j ∧
      Calls i ["if".toList, b.text, script p] .if (.ok (codeOf x, j))) :
    Simulates (.when b p) s x s' :=
  fun i _ token hs hr =>
    simulates_control (by decide) (by decide) (List.all_eq_true.mp (by decide)) hs hr
      (hcalls i hs) token

theorem simulates_ifElse (hcalls : ∀ i, Agrees s i → ∃ j, Reflects s' x j ∧
      Calls i ["if".toList, b.text, script p, "else".toList, script q] .if
        (.ok (codeOf x, j))) :
    Simulates (.cond b p q) s x s' := by
  intro i r token hs hr
  obtain ⟨j, hj, hcalls⟩ := hcalls i hs
  have hconcludes := concludes_call hs hr (by decide : TokenType.str ≠ .eol ∧ _)
    (by decide : ("if", Func.if) ∈ coreCommands) hcalls (script q)
  exact ⟨j, hj, hconcludes.of_leads (leads_ifElse i b p q r token)⟩

theorem simulates_loop (hloop : LoopRuns s b (script p) x s') :
    Simulates (.loop b p) s x s' := by
  intro i r token hs hr
  obtain ⟨j, hj, hreturns⟩ := hloop i hs
  have hcalls : Calls i ["while".toList, b.text, script p] .while (.ok (codeOf x, j)) :=
    hreturns.computes
  exact simulates_control (by decide : ("while", Func.while) ∈ coreCommands) (by decide)
    (List.all_eq_true.mp (by decide)) hs hr ⟨j, hj, hcalls⟩ token

/-- A command that is a word of its own. -/
theorem simulates_word {keyword : String} {f : Func} (hcore : (keyword, f) ∈ coreCommands)
    (hne : keyword.toList ≠ []) (hplain : ∀ c ∈ keyword.toList, isPlain c = true)
    (hs : Agrees s i) (hr : Stops r) (hcalls : Calls i [keyword.toList] f (.ok (code, i)))
    (token : List Char) :
    Concludes (.tokens i ⟨keyword.toList ++ r, token, .eol, false⟩ []) r code i := by
  have hp : picolGetToken ⟨keyword.toList ++ r, token, .eol, false⟩ =
      some ⟨r, keyword.toList, .esc, false⟩ := getToken_plain hne hplain hr.ends
  have hword : Leads (.tokens i ⟨keyword.toList ++ r, token, .eol, false⟩ []) _ :=
    leads_word hp (.inl rfl) (.inr rfl)
  exact (concludes_call hs hr (by decide : TokenType.esc ≠ .eol ∧ _) hcore hcalls _).of_leads
    hword

/-- The words of an action up to the expression. -/
def Fronts (front : List Char) (words : List (List Char)) : Prop :=
  ∀ i rest token, Solid rest → Leads (.tokens i ⟨front ++ rest, token, .eol, false⟩ [])
    (.tokens i ⟨rest, ' ' :: rest.takeWhile isBlank, .sep, false⟩ words)

theorem fronts_set (v : Name) : Fronts ("set".toList ++ ' ' :: (v.text ++ [' ']))
    ["set".toList, v.text] := by
  intro i rest token hrest
  have htext : "set".toList ++ ' ' :: (v.text ++ [' ']) ++ rest =
      "set".toList ++ ' ' :: (v.text ++ ' ' :: rest) := by
    simp only [List.append_assoc, List.cons_append, List.nil_append]
  have hsolid : Solid (v.text ++ ' ' :: rest) := (solid_of_plain v.ne_nil v.plain).append _
  rw [htext]
  exact (leads_plain i [] token (by decide) (List.all_eq_true.mp (by decide)) hsolid
    (.inr rfl)).trans (leads_plain i _ _ v.ne_nil v.plain hrest (.inl rfl))

theorem fronts_puts : Fronts ("puts".toList ++ [' ']) ["puts".toList] := by
  intro i rest token hrest
  have htext : "puts".toList ++ [' '] ++ rest = "puts".toList ++ ' ' :: rest := by
    rw [List.append_assoc, List.singleton_append]
  rw [htext]
  exact leads_plain i [] token (by decide) (List.all_eq_true.mp (by decide)) hrest (.inr rfl)

variable {front : List Char} {words : List (List Char)} {name : String} {f : Func} {v : Long}

/-- An action whose last word is an expression with a value. -/
theorem action_done (hfront : Fronts front (name.toList :: words))
    (hcore : (name, f) ∈ coreCommands) (hvalue : e.eval s = .ok v)
    (hact : ∀ j, Agrees s j → ∃ k, Agrees s' k ∧
      Calls j (name.toList :: (words ++ [showLong v])) f (.ok (.ok, k)))
    (hs : Agrees s i) (hr : Stops r) (token : List Char) :
    ∃ j, Agrees s' j ∧
      Concludes (.tokens i ⟨front ++ (e.text ++ r), token, .eol, false⟩ []) r .ok j := by
  have hword := evaluates s e i r (' ' :: (e.text ++ r).takeWhile isBlank) .sep
    (name.toList :: words) hs hr.ends (.inl rfl)
  rw [hvalue] at hword
  obtain ⟨j, token', type, hj, htype, hleads⟩ := hword
  obtain ⟨k, hk, hcalls⟩ := hact j hj
  have hbegin := hfront i (e.text ++ r) token ((solid_text e).append r)
  exact ⟨k, hk, (concludes_call hj hr htype hcore hcalls token').of_leads (hbegin.trans hleads)⟩

theorem action_fails {err : Error} (hfront : Fronts front words)
    (hvalue : e.eval s = .error err) (hs : Agrees s i) (hr : Stops r) (token : List Char) :
    ∃ j, Reflects s (.failed err) j ∧
      Concludes (.tokens i ⟨front ++ (e.text ++ r), token, .eol, false⟩ []) r .err j := by
  have hword := evaluates s e i r (' ' :: (e.text ++ r).takeWhile isBlank) .sep words hs hr.ends
    (.inl rfl)
  rw [hvalue] at hword
  obtain ⟨j, hj, htext, hreturns⟩ := hword
  refine ⟨j, ⟨hj, ?_⟩, ?_⟩
  · rintro _ ⟨⟩
    exact htext
  · have hbegin := hfront i (e.text ++ r) token ((solid_text e).append r)
    exact hbegin.forth _ hreturns

theorem text_set (v : Name) (e : Expr) (r : List Char) : (Action.set v e).text ++ r =
    "set".toList ++ ' ' :: (v.text ++ [' ']) ++ (e.text ++ r) := by
  simp only [Action.text, line_cons, line_singleton, List.append_assoc, List.cons_append,
    List.nil_append]

theorem text_puts (e : Expr) (r : List Char) : (Action.puts e).text ++ r =
    "puts".toList ++ [' '] ++ (e.text ++ r) := by
  simp only [Action.text, line_cons, line_singleton, List.append_assoc, List.cons_append,
    List.nil_append]

theorem simulates_act {a : Action} (hact : meaning.act a s = .ok s') :
    Simulates (.act a) s .done s' := by
  intro i r token hs hr
  cases a with
  | set y e =>
      cases hvalue : e.eval s with
      | error err =>
          simp only [meaning, hvalue] at hact
          cases hact
      | ok v =>
          simp only [meaning, hvalue] at hact
          obtain rfl := Except.ok.inj hact
          have hset : ∀ j, Agrees s j → ∃ k,
              Agrees { s with vars := Function.update s.vars y (some v) } k ∧
              Calls j ("set".toList :: ([y.text] ++ [showLong v])) .set (.ok (.ok, k)) :=
            fun j hj => ⟨_, (hj.setVar y v).setResult _, 0, rfl⟩
          obtain ⟨j, hj, hconcludes⟩ := action_done (fronts_set y) (by decide) hvalue hset hs hr
            token
          rw [← text_set] at hconcludes
          exact ⟨j, .of_agrees hj (by simp), hconcludes⟩
  | puts e =>
      cases hvalue : e.eval s with
      | error err =>
          simp only [meaning, hvalue] at hact
          cases hact
      | ok v =>
          simp only [meaning, hvalue] at hact
          obtain rfl := Except.ok.inj hact
          have hputs : ∀ j, Agrees s j → ∃ k,
              Agrees { s with out := s.out ++ showLong v ++ ['\n'] } k ∧
              Calls j ("puts".toList :: ([] ++ [showLong v])) .puts (.ok (.ok, k)) := by
            intro j hj
            refine ⟨{ j with out := j.out ++ showLong v ++ ['\n'] }, ⟨hj.core, hj.vars, ?_⟩, 0, rfl⟩
            rw [hj.out]
          obtain ⟨j, hj, hconcludes⟩ := action_done fronts_puts (by decide) hvalue hputs hs hr
            token
          rw [← text_puts] at hconcludes
          exact ⟨j, .of_agrees hj (by simp), hconcludes⟩

theorem simulates_actFails {a : Action} {err : Error} (hact : meaning.act a s = .error err) :
    Simulates (.act a) s (.failed err) s := by
  intro i r token hs hr
  cases a with
  | set y e =>
      cases hvalue : e.eval s with
      | ok v =>
          simp only [meaning, hvalue] at hact
          cases hact
      | error err' =>
          simp only [meaning, hvalue] at hact
          obtain rfl := Except.error.inj hact
          have hfails := action_fails (fronts_set y) hvalue hs hr token
          rw [← text_set] at hfails
          exact hfails
  | puts e =>
      cases hvalue : e.eval s with
      | ok v =>
          simp only [meaning, hvalue] at hact
          cases hact
      | error err' =>
          simp only [meaning, hvalue] at hact
          obtain rfl := Except.error.inj hact
          have hfails := action_fails fronts_puts hvalue hs hr token
          rw [← text_puts] at hfails
          exact hfails

theorem script_seq (p q : Prog Action Test) (r : List Char) :
    script (.seq p q) ++ r = script p ++ '\n' :: (script q ++ r) :=
  List.append_assoc (script p) ('\n' :: script q) r

theorem simulates_seq {s'' : Env} (hp : Simulates p s .done s') (hq : Simulates q s' x s'') :
    Simulates (.seq p q) s x s'' := by
  intro i r token hs hr
  obtain ⟨j, ⟨hj, -⟩, hfirst⟩ := hp i ('\n' :: (script q ++ r)) token hs (.inr ⟨_, rfl⟩)
  obtain ⟨token', hleads⟩ := (if_pos rfl).mp hfirst
  have hnext : nextLine ('\n' :: (script q ++ r)) = script q ++ r :=
    ((solid_script q).append r).dropEnds
  rw [hnext] at hleads
  obtain ⟨k, hk, hconcludes⟩ := hq j r token' hj hr
  refine ⟨k, hk, ?_⟩
  rw [script_seq]
  exact hconcludes.of_leads hleads

theorem simulates_seqExits (hp : Simulates p s x s') (hx : x ≠ .done) :
    Simulates (.seq p q) s x s' := by
  intro i r token hs hr
  obtain ⟨j, hj, hfirst⟩ := hp i ('\n' :: (script q ++ r)) token hs (.inr ⟨_, rfl⟩)
  have hcode : codeOf x ≠ .ok := fun hok => hx (codeOf_eq_ok.mp hok)
  refine ⟨j, hj, ?_⟩
  rw [script_seq]
  unfold Concludes at hfirst ⊢
  rw [if_neg hcode] at hfirst ⊢
  exact hfirst

/-- Induction over the execution: the script does what the program does, and a loop of the
interpreter what the loop does. -/
theorem simulates (hexec : Exec meaning p s x s') :
    Simulates p s x s' ∧ ∀ b q, p = .loop b q → LoopRuns s b (script q) x s' := by
  induction hexec with
  | act hact => exact ⟨simulates_act hact, nofun⟩
  | actFails hact => exact ⟨simulates_actFails hact, nofun⟩
  | seq _ _ hp hq => exact ⟨simulates_seq hp.1 hq.1, nofun⟩
  | seqExits _ hx hp => exact ⟨simulates_seqExits hp.1 hx, nofun⟩
  | when htest _ hp =>
      exact ⟨simulates_if fun i hs => calls_if_true hs (.inl rfl) htest hp.1.runs, nofun⟩
  | whenNot htest =>
      refine ⟨simulates_if fun i hs => ?_, nofun⟩
      obtain ⟨j, hj, hcalls⟩ := calls_if_not hs htest
      exact ⟨j, .of_agrees hj (by simp), hcalls⟩
  | whenFails htest =>
      exact ⟨simulates_if fun i hs => calls_if_fails hs (.inl rfl) htest, nofun⟩
  | condTrue htest _ hp =>
      exact ⟨simulates_ifElse fun i hs => calls_if_true hs (.inr rfl) htest hp.1.runs, nofun⟩
  | condFalse htest _ hq =>
      exact ⟨simulates_ifElse fun i hs => calls_if_else hs htest hq.1.runs, nofun⟩
  | condFails htest =>
      exact ⟨simulates_ifElse fun i hs => calls_if_fails hs (.inr rfl) htest, nofun⟩
  | loopEnds htest =>
      refine ⟨simulates_loop (loopRuns_ends htest), ?_⟩
      rintro _ _ ⟨⟩
      exact loopRuns_ends htest
  | loopFails htest =>
      refine ⟨simulates_loop (loopRuns_fails htest), ?_⟩
      rintro _ _ ⟨⟩
      exact loopRuns_fails htest
  | loopAgain htest _ hx _ hp hloop =>
      have hagain := loopRuns_again htest hp.1.runs hx (hloop.2 _ _ rfl)
      refine ⟨simulates_loop hagain, ?_⟩
      rintro _ _ ⟨⟩
      exact hagain
  | loopBreaks htest _ hp =>
      have hbreaks := loopRuns_breaks htest hp.1.runs
      refine ⟨simulates_loop hbreaks, ?_⟩
      rintro _ _ ⟨⟩
      exact hbreaks
  | loopExits htest _ hp =>
      have hexits := loopRuns_exits htest hp.1.runs
      refine ⟨simulates_loop hexits, ?_⟩
      rintro _ _ ⟨⟩
      exact hexits
  | brk =>
      refine ⟨fun i r token hs hr => ⟨i, .of_agrees hs (by simp), ?_⟩, nofun⟩
      exact simulates_word (by decide : ("break", Func.retCodes) ∈ coreCommands) (by decide)
        (List.all_eq_true.mp (by decide)) hs hr ⟨0, rfl⟩ token
  | cont =>
      refine ⟨fun i r token hs hr => ⟨i, .of_agrees hs (by simp), ?_⟩, nofun⟩
      exact simulates_word (by decide : ("continue", Func.retCodes) ∈ coreCommands) (by decide)
        (List.all_eq_true.mp (by decide)) hs hr ⟨0, rfl⟩ token

end Programs

end Fip.Picol
