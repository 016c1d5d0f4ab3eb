import Fip.Picol.Parser
import Mathlib.Data.List.Infix

/-!
# The tokens of a text

Each call of `picolGetToken` takes the next piece of the text, perhaps with a comment in
front: a token with its delimiters.  It takes a character at least, or is one of the two
calls at the end of the text.
-/

namespace Fip.Picol

/-- What is taken from the text for a token of a type, in front of the rest of the text. -/
inductive Takes : TokenType → List Char → List Char → List Char → Prop where
  | sep {token rest : List Char} (hne : token ≠ [])
      (hblank : ∀ c ∈ token, isBlank c = true)
      (hend : ∀ c ∈ rest.head?, ¬ isBlank c = true) : Takes .sep token token rest
  | eol {token rest : List Char} (hne : token ≠ [])
      (hblank : ∀ c ∈ token, isBlank c = true ∨ c = ';')
      (hend : ∀ c ∈ rest.head?, ¬ (isBlank c = true ∨ c = ';')) : Takes .eol token token rest
  | command {token rest : List Char} : Takes .cmd token ('[' :: token ++ [']']) rest
  | openCommand {token : List Char} : Takes .cmd token ('[' :: token) []
  | var {token rest : List Char} (hne : token ≠ []) (hname : ∀ c ∈ token, isName c = true)
      (hend : ∀ c ∈ rest.head?, ¬ isName c = true) : Takes .var token ('$' :: token) rest
  | dollar {rest : List Char} (hend : ∀ c ∈ rest.head?, ¬ isName c = true) :
      Takes .str ['$'] ['$'] rest
  | brace {token rest : List Char} : Takes .str token ('{' :: token ++ ['}']) rest
  | openBrace {token : List Char} : Takes .str token ('{' :: token) []
  | word {token rest opening closing : List Char}
      (hopening : opening = [] ∨ opening = ['"'])
      (hclosing : closing = ['"'] ∨ closing = [] ∧
        ∀ c ∈ rest.head?, c = '$' ∨ c = '[' ∨ isBlank c = true ∨ c = ';')
      (hne : opening ++ token ++ closing ≠ []) :
      Takes .esc token (opening ++ token ++ closing) rest

/-- A comment in front of a line end or of the end of the text, or none. -/
def IsComment (comment rest : List Char) : Prop :=
  comment = [] ∨ (∃ text, comment = '#' :: text ∧ '\n' ∉ text) ∧ ∀ c ∈ rest.head?, c = '\n'

/-- The text is cut into the pieces of the tokens, up to `PT_EOF`. -/
inductive Cut : List Char → List Parser → Prop where
  | eof {comment : List Char} {p : Parser} (hcomment : IsComment comment [])
      (hrest : p.rest = []) (htype : p.type = .eof) : Cut comment [p]
  /-- The end of a text ends its last line, too. -/
  | eol {p : Parser} {tokens : List Parser} (hrest : p.rest = []) (htype : p.type = .eol)
      (hcut : Cut [] tokens) : Cut [] (p :: tokens)
  | next {comment taken : List Char} {p : Parser} {tokens : List Parser}
      (hcomment : IsComment comment (taken ++ p.rest)) (htakes : Takes p.type p.token taken p.rest)
      (hcut : Cut p.rest tokens) : Cut (comment ++ (taken ++ p.rest)) (p :: tokens)

variable {text token rest taken : List Char} {c : Char} {p p' : Parser}

/-! ## What the parsers find -/

/-- A character other than a backslash in brackets. -/
theorem scanCommand_cons (level blevel : ℕ) (text : List Char) (hslash : c ≠ '\\') :
    scanCommand level blevel (c :: text) =
      if c = '[' ∧ blevel = 0 then
        (scanCommand (level + 1) blevel text).map (Prod.map (c :: ·) id)
      else if c = ']' ∧ blevel = 0 then
        if level = 1 then some ([], text)
        else (scanCommand (level - 1) blevel text).map (Prod.map (c :: ·) id)
      else if c = '{' then (scanCommand level (blevel + 1) text).map (Prod.map (c :: ·) id)
      else if c = '}' then (scanCommand level (blevel - 1) text).map (Prod.map (c :: ·) id)
      else (scanCommand level blevel text).map (Prod.map (c :: ·) id) := by
  rw [scanCommand.eq_def]
  simp only [if_neg hslash]

/-- In braces. -/
theorem scanBrace_cons (level : ℕ) (text : List Char) (hslash : c ≠ '\\') :
    scanBrace level (c :: text) =
      if c = '}' then
        if level = 1 then ([], text) else (scanBrace (level - 1) text).map (c :: ·) id
      else if c = '{' then (scanBrace (level + 1) text).map (c :: ·) id
      else (scanBrace level text).map (c :: ·) id := by
  rw [scanBrace.eq_def]
  exact if_neg hslash

/-- In a word. -/
theorem scanString_cons (insidequote : Bool) (text : List Char) (hslash : c ≠ '\\') :
    scanString insidequote (c :: text) =
      if c = '$' ∨ c = '[' then ([], c :: text, insidequote)
      else if (isBlank c ∨ c = ';') ∧ insidequote = false then ([], c :: text, insidequote)
      else if c = '"' ∧ insidequote = true then ([], text, false)
      else (scanString insidequote text).map (c :: ·) id := by
  rw [scanString.eq_def]
  exact if_neg hslash

/-- The token goes up to a character that closes it, or to the end of the text. -/
def Closes (close : Char) (text token rest : List Char) : Prop :=
  text = token ++ close :: rest ∨ text = token ∧ rest = []

theorem Closes.append {close : Char} (front : List Char) (hcloses : Closes close text token rest) :
    Closes close (front ++ text) (front ++ token) rest := by
  rcases hcloses with rfl | ⟨rfl, hrest⟩
  · exact .inl (List.append_assoc _ _ _).symm
  · exact .inr ⟨rfl, hrest⟩

theorem closes_map {close : Char} {scanned : Option (List Char × List Char)} (front : List Char)
    (hscanned : ∀ token rest, scanned = some (token, rest) → Closes close text token rest)
    (hmap : scanned.map (Prod.map (front ++ ·) id) = some (token, rest)) :
    Closes close (front ++ text) token rest := by
  obtain ⟨⟨token', rest'⟩, hsome, heq⟩ := Option.map_eq_some_iff.mp hmap
  obtain ⟨rfl, rfl⟩ := Prod.mk.inj heq
  exact (hscanned token' rest' hsome).append front

theorem scanCommand_closes (level blevel : ℕ) (text : List Char) :
    ∀ token rest, scanCommand level blevel text = some (token, rest) →
      Closes ']' text token rest := by
  fun_induction scanCommand level blevel text with
  | case1 =>
      rintro token rest ⟨⟩
      exact .inr ⟨rfl, rfl⟩
  | case3 blevel c text _ hclose =>
      rintro token rest ⟨⟩
      exact .inl (by rw [hclose.1, List.nil_append])
  | case5 => exact fun _ _ => nofun
  | case6 level blevel c' text _ _ ih => exact fun _ _ => closes_map ['\\', c'] ih
  | case2 level blevel c text _ ih => exact fun _ _ => closes_map [c] ih
  | case4 level blevel c text _ _ _ ih => exact fun _ _ => closes_map [c] ih
  | case7 level blevel text _ _ _ ih => exact fun _ _ => closes_map ['{'] ih
  | case8 level blevel text _ _ _ _ ih => exact fun _ _ => closes_map ['}'] ih
  | case9 level blevel c text _ _ _ _ _ ih => exact fun _ _ => closes_map [c] ih

theorem scanBrace_closes (level : ℕ) (text : List Char) :
    Closes '}' text (scanBrace level text).1 (scanBrace level text).2 := by
  fun_induction scanBrace level text with
  | case1 => exact .inr ⟨rfl, rfl⟩
  | case2 => exact .inr ⟨rfl, rfl⟩
  | case3 level c' text ih => exact ih.append ['\\', c']
  | case4 text => exact .inl rfl
  | case5 level text _ _ ih => exact ih.append ['}']
  | case6 level text _ _ ih => exact ih.append ['{']
  | case7 level c text _ _ _ ih => exact ih.append [c]

/-- A character that a word ends in front of. -/
def EndsWord (insidequote : Bool) (c : Char) : Prop :=
  c = '$' ∨ c = '[' ∨ (isBlank c = true ∨ c = ';') ∧ insidequote = false

/-- The word goes up to a quote that closes it, or ends in front of a character or at the
end of the text. -/
def WordEnds (insidequote : Bool) (text token rest : List Char) : Prop :=
  text = token ++ '"' :: rest ∨ text = token ++ rest ∧ ∀ c ∈ rest.head?, EndsWord insidequote c

theorem WordEnds.append {insidequote : Bool} (front : List Char)
    (hends : WordEnds insidequote text token rest) :
    WordEnds insidequote (front ++ text) (front ++ token) rest := by
  rcases hends with rfl | ⟨rfl, hstops⟩
  · exact .inl (List.append_assoc _ _ _).symm
  · exact .inr ⟨(List.append_assoc _ _ _).symm, hstops⟩

theorem scanString_ends (insidequote : Bool) (text : List Char) :
    WordEnds insidequote text (scanString insidequote text).1
      (scanString insidequote text).2.1 := by
  fun_induction scanString insidequote text with
  | case1 => exact .inr ⟨rfl, nofun⟩
  | case2 => exact .inr ⟨rfl, nofun⟩
  | case3 c' text ih => exact ih.append ['\\', c']
  | case4 c text _ hc =>
      refine .inr ⟨rfl, fun x hx => ?_⟩
      cases hx
      exact hc.imp_right .inl
  | case5 c text _ _ hc =>
      refine .inr ⟨rfl, fun x hx => ?_⟩
      cases hx
      exact .inr (.inr hc)
  | case6 c text _ _ _ hc => exact .inl (by rw [hc.1, List.nil_append])
  | case7 c text _ _ _ _ ih => exact ih.append [c]

/-! ## What a call takes -/

/-- What is left behind a call, and what it took for the token. -/
def Found (p p' : Parser) : Prop :=
  ∃ taken, p.rest = taken ++ p'.rest ∧ Takes p'.type p'.token taken p'.rest

theorem head_dropWhile {test : Char → Bool} :
    ∀ c ∈ (text.dropWhile test).head?, ¬ test c = true := by
  intro c hc
  have hnot := List.head?_dropWhile_not test text
  rw [Option.mem_def.mp hc] at hnot
  exact Bool.eq_false_iff.mp hnot

/-- A run of characters with the one that the parser looks at. -/
theorem takeWhile_ne_nil {test : Char → Bool} (hrest : p.rest = c :: text)
    (htest : test c = true) : p.rest.takeWhile test ≠ [] := by
  rw [hrest, List.takeWhile_cons_of_pos htest]
  exact List.cons_ne_nil _ _

theorem parseBrace_found (hrest : p.rest = '{' :: text) : Found p (picolParseBrace p) := by
  rw [picolParseBrace, hrest, List.tail_cons]
  rcases hscan : scanBrace 1 text with ⟨token, rest⟩
  have hcloses := scanBrace_closes 1 text
  rw [hscan] at hcloses
  rcases hcloses with htext | ⟨htext, hnil⟩
  · refine ⟨'{' :: token ++ ['}'], ?_, .brace⟩
    rw [hrest, htext]
    simp
  · dsimp only at htext hnil
    subst hnil
    exact ⟨'{' :: token, by rw [hrest, htext, List.append_nil], .openBrace⟩

/-- A word with the quote that may open it. -/
theorem word_found {insidequote : Bool} {opening word : List Char}
    (hopening : opening = [] ∨ opening = ['"']) (hrest : p.rest = opening ++ word)
    (hfirst : opening = [] → ∀ c ∈ word.head?, ¬ EndsWord insidequote c) (hne : p.rest ≠ []) :
    Found p ⟨(scanString insidequote word).2.1, (scanString insidequote word).1, .esc,
      (scanString insidequote word).2.2⟩ := by
  rcases hscan : scanString insidequote word with ⟨token, rest, inside⟩
  have hends := scanString_ends insidequote word
  rw [hscan] at hends
  rcases hends with hword | ⟨hword, hstops⟩
  · refine ⟨opening ++ token ++ ['"'], ?_, .word hopening (.inl rfl) (by simp)⟩
    rw [hrest, hword]
    simp
  · dsimp only at hword hstops
    refine ⟨opening ++ token ++ [], ?_, .word hopening (.inr ⟨rfl, ?_⟩) ?_⟩
    · rw [hrest, hword]
      simp
    · intro c hc
      rcases hstops c hc with hdollar | hbracket | ⟨hblank, -⟩
      · exact .inl hdollar
      · exact .inr (.inl hbracket)
      · exact .inr (.inr hblank)
    · intro hnil
      simp only [List.append_nil, List.append_eq_nil_iff] at hnil
      obtain ⟨rfl, rfl⟩ := hnil
      rw [List.nil_append] at hword
      rw [hrest, List.nil_append, hword] at hne
      obtain ⟨c, rest, rfl⟩ := List.exists_cons_of_ne_nil hne
      exact hfirst rfl c (hword ▸ rfl) (hstops c rfl)

theorem parseString_found (hrest : p.rest = c :: text)
    (hfirst : ¬ EndsWord p.insidequote c) : Found p (picolParseString p) := by
  have hne : p.rest ≠ [] := hrest ▸ List.cons_ne_nil _ _
  rw [picolParseString]
  split_ifs with hbrace hquote
  · rw [hrest, List.head?_cons] at hbrace
    exact parseBrace_found (Option.some.inj hbrace.2 ▸ hrest)
  · have hc : c = '"' := by
      rw [hrest, List.head?_cons] at hquote
      exact Option.some.inj hquote.2
    exact word_found (.inr rfl) (by rw [hrest, hc]; rfl) (fun hnil => nomatch hnil) hne
  · refine word_found (.inl rfl) rfl (fun _ x hx => ?_) hne
    rw [hrest] at hx
    cases hx
    exact hfirst

theorem parseVar_found (hrest : p.rest = '$' :: text) : Found p (picolParseVar p) := by
  rw [picolParseVar, hrest, List.tail_cons]
  split_ifs with hnil
  · refine ⟨['$'], hrest, .dollar fun c hc hname => ?_⟩
    rw [Option.mem_def, List.head?_eq_some_iff] at hc
    obtain ⟨tail, rfl⟩ := hc
    rw [List.takeWhile_cons_of_pos hname] at hnil
    cases hnil
  · refine ⟨'$' :: text.takeWhile isName, ?_, .var hnil ?_ head_dropWhile⟩
    · rw [hrest, List.cons_append, List.takeWhile_append_dropWhile]
    · exact fun c => List.mem_takeWhile_imp

theorem parseCommand_found (hrest : p.rest = '[' :: text) (hp : picolParseCommand p = some p') :
    Found p p' := by
  rw [picolParseCommand, hrest, List.tail_cons] at hp
  obtain ⟨⟨token, rest⟩, hscan, rfl⟩ := Option.map_eq_some_iff.mp hp
  rcases scanCommand_closes 1 0 text token rest hscan with htext | ⟨htext, rfl⟩
  · refine ⟨'[' :: token ++ [']'], ?_, .command⟩
    rw [hrest, htext]
    simp
  · exact ⟨'[' :: token, by rw [hrest, htext, List.append_nil], .openCommand⟩

/-- In front of the end of the text a call finds a token. -/
theorem dispatch_found (hp : dispatch p = some p') (hne : p.rest ≠ []) : Found p p' := by
  obtain ⟨c, text, hrest⟩ := List.exists_cons_of_ne_nil hne
  rw [dispatch, hrest] at hp
  dsimp only at hp
  by_cases hsep : c = ' ' ∨ c = '\t' ∨ c = '\r'
  · rw [if_pos hsep] at hp
    obtain rfl := Option.some.inj hp
    have hblank : isBlank c = true := by
      rcases hsep with rfl | rfl | rfl <;> rfl
    by_cases hquote : p.insidequote = true
    · rw [if_pos hquote]
      refine parseString_found hrest ?_
      rintro (rfl | rfl | ⟨-, hout⟩)
      · cases hblank
      · cases hblank
      · cases hquote.symm.trans hout
    · rw [if_neg hquote]
      exact ⟨p.rest.takeWhile isBlank, (List.takeWhile_append_dropWhile).symm,
        .sep (takeWhile_ne_nil hrest hblank) (fun c => List.mem_takeWhile_imp) head_dropWhile⟩
  · rw [if_neg hsep] at hp
    by_cases heol : c = '\n' ∨ c = ';'
    · rw [if_pos heol] at hp
      obtain rfl := Option.some.inj hp
      by_cases hquote : p.insidequote = true
      · rw [if_pos hquote]
        refine parseString_found hrest ?_
        rintro (rfl | rfl | ⟨-, hout⟩)
        · rcases heol with heol | heol <;> cases heol
        · rcases heol with heol | heol <;> cases heol
        · cases hquote.symm.trans hout
      · rw [if_neg hquote]
        have hends (c : Char) : (isBlank c || c == ';') = true ↔ isBlank c = true ∨ c = ';' := by
          simp
        have hc : (isBlank c || c == ';') = true := by
          rcases heol with rfl | rfl <;> rfl
        have htoken : ∀ c ∈ p.rest.takeWhile fun c => isBlank c || c == ';',
            isBlank c = true ∨ c = ';' := fun c hc =>
          (hends c).mp (@List.mem_takeWhile_imp _ (fun c => isBlank c || c == ';') _ _ hc)
        exact ⟨_, (List.takeWhile_append_dropWhile).symm,
          .eol (takeWhile_ne_nil hrest hc) htoken
            fun c hc hboth => head_dropWhile c hc ((hends c).mpr hboth)⟩
    · rw [if_neg heol] at hp
      by_cases hcmd : c = '['
      · rw [if_pos hcmd] at hp
        exact parseCommand_found (hcmd ▸ hrest) hp
      · rw [if_neg hcmd] at hp
        by_cases hvar : c = '$'
        · rw [if_pos hvar] at hp
          obtain rfl := Option.some.inj hp
          exact parseVar_found (hvar ▸ hrest)
        · rw [if_neg hvar] at hp
          obtain rfl := Option.some.inj hp
          refine parseString_found hrest ?_
          rintro (hdollar | hbracket | ⟨hblank | hsemi, -⟩)
          · exact hvar hdollar
          · exact hcmd hbracket
          · simp [isBlank] at hblank
            tauto
          · exact heol (.inr hsemi)

/-- A call takes a comment, if it stands at the start of a command, and a token, or it is at
the end of the text. -/
theorem getToken_found (hp : picolGetToken p = some p') :
    ∃ comment rest, p.rest = comment ++ rest ∧ IsComment comment rest ∧
      (p.type ≠ .eol → comment = []) ∧
      ((∃ taken, rest = taken ++ p'.rest ∧ Takes p'.type p'.token taken p'.rest) ∨
        rest = [] ∧ p'.rest = [] ∧ p'.token = p.token ∧
          p'.type = if p.type ≠ .eol ∧ p.type ≠ .eof then .eol else .eof) := by
  have hdispatch : ∀ q : Parser, q.token = p.token → q.type = p.type → dispatch q = some p' →
      (∃ taken, q.rest = taken ++ p'.rest ∧ Takes p'.type p'.token taken p'.rest) ∨
        q.rest = [] ∧ p'.rest = [] ∧ p'.token = p.token ∧
          p'.type = if p.type ≠ .eol ∧ p.type ≠ .eof then .eol else .eof := by
    intro q htoken htype hq
    by_cases hrest : q.rest = []
    · rw [dispatch, hrest] at hq
      obtain rfl := Option.some.inj hq
      exact .inr ⟨hrest, rfl, htoken, by rw [htype]⟩
    · exact .inl (dispatch_found hq hrest)
  rw [picolGetToken] at hp
  split_ifs at hp with hcomment
  · refine ⟨p.rest.takeWhile (· != '\n'), p.rest.dropWhile (· != '\n'),
      List.takeWhile_append_dropWhile.symm, .inr ⟨?_, ?_⟩, fun hne => absurd hcomment.2 hne,
      hdispatch (picolParseComment p) rfl rfl hp⟩
    · obtain ⟨text, hrest⟩ := List.head?_eq_some_iff.mp hcomment.1
      refine ⟨text.takeWhile (· != '\n'), by rw [hrest]; rfl, fun hmem => ?_⟩
      have hnot := @List.mem_takeWhile_imp _ (· != '\n') _ _ hmem
      exact absurd hnot (by decide)
    · intro c hc
      have hnot := head_dropWhile c hc
      simpa using hnot
  · exact ⟨[], p.rest, rfl, .inl rfl, fun _ => rfl, hdispatch p rfl rfl hp⟩

theorem Takes.ne_nil {type : TokenType} (htakes : Takes type token taken rest) : taken ≠ [] := by
  cases htakes with
  | sep hne => exact hne
  | eol hne => exact hne
  | word _ _ hne => exact hne
  | command => exact List.cons_ne_nil _ _
  | openCommand => exact List.cons_ne_nil _ _
  | var => exact List.cons_ne_nil _ _
  | dollar => exact List.cons_ne_nil _ _
  | brace => exact List.cons_ne_nil _ _
  | openBrace => exact List.cons_ne_nil _ _

/-- The token is a part of what is taken for it. -/
theorem Takes.isInfix {type : TokenType} (htakes : Takes type token taken rest) :
    token <:+: taken := by
  cases htakes with
  | sep => exact List.infix_rfl
  | eol => exact List.infix_rfl
  | dollar => exact List.infix_rfl
  | command => exact ⟨['['], [']'], rfl⟩
  | brace => exact ⟨['{'], ['}'], rfl⟩
  | openCommand => exact ⟨['['], [], List.append_nil _⟩
  | var => exact ⟨['$'], [], List.append_nil _⟩
  | openBrace => exact ⟨['{'], [], List.append_nil _⟩
  | @word _ _ opening closing => exact ⟨opening, closing, rfl⟩

/-! ## Stepping over the end -/

/-- Behind a bracket the parser steps over the end only of a text that ends in a backslash. -/
theorem scanCommand_isSome (level blevel : ℕ) (hlast : text.getLast? ≠ some '\\') :
    (scanCommand level blevel text).isSome = true := by
  have htail : ∀ {c : Char} {text : List Char}, (c :: text).getLast? ≠ some '\\' →
      text.getLast? ≠ some '\\' := by
    intro c text hlast heq
    cases text with
    | nil => cases heq
    | cons c' text => exact hlast ((List.getLast?_cons_cons ..).trans heq)
  fun_induction scanCommand level blevel text with
  | case1 => rfl
  | case3 => rfl
  | case5 => exact absurd rfl hlast
  | case6 level blevel c' text _ _ ih =>
      exact (Option.isSome_map ..).trans (ih (htail (htail hlast)))
  | case2 level blevel c text _ ih => exact (Option.isSome_map ..).trans (ih (htail hlast))
  | case4 level blevel c text _ _ _ ih => exact (Option.isSome_map ..).trans (ih (htail hlast))
  | case7 level blevel text _ _ _ ih => exact (Option.isSome_map ..).trans (ih (htail hlast))
  | case8 level blevel text _ _ _ _ ih => exact (Option.isSome_map ..).trans (ih (htail hlast))
  | case9 level blevel c text _ _ _ _ _ ih =>
      exact (Option.isSome_map ..).trans (ih (htail hlast))

theorem getLast_of_suffix (hsuffix : rest <:+ text) (hlast : text.getLast? ≠ some '\\') :
    rest.getLast? ≠ some '\\' := by
  obtain ⟨front, rfl⟩ := hsuffix
  intro heq
  rw [List.getLast?_append, heq] at hlast
  exact hlast rfl

theorem dispatch_isSome (hlast : p.rest.getLast? ≠ some '\\') : (dispatch p).isSome = true := by
  unfold dispatch
  rcases hrest : p.rest with _ | ⟨c, text⟩
  · rfl
  · dsimp only
    split_ifs
    · rfl
    · rfl
    · rfl
    · rfl
    · rw [picolParseCommand, hrest, List.tail_cons, Option.isSome_map]
      exact scanCommand_isSome 1 0 (getLast_of_suffix ⟨[c], hrest.symm⟩ hlast)
    · rfl
    · rfl

theorem getToken_isSome (hlast : p.rest.getLast? ≠ some '\\') :
    (picolGetToken p).isSome = true := by
  rw [picolGetToken]
  split_ifs
  · exact dispatch_isSome (getLast_of_suffix (List.dropWhile_suffix _) hlast)
  · exact dispatch_isSome hlast

/-! ## All tokens -/

/-- The tokens that so many calls of `picolGetToken` find, up to `PT_EOF`. -/
def readTokens : ℕ → Parser → Option (List Parser)
  | 0, _ => none
  | calls + 1, p =>
      match picolGetToken p with
      | none => none
      | some p' => if p'.type = .eof then some [p'] else (readTokens calls p').map (p' :: ·)

/-- The calls that are left: the end of the text takes two, or one behind a line end. -/
def callsLeft (p : Parser) : ℕ :=
  if p.rest ≠ [] then p.rest.length + 2 else if p.type = .eol ∨ p.type = .eof then 1 else 2

theorem callsLeft_pos (p : Parser) : 0 < callsLeft p := by
  unfold callsLeft
  split_ifs <;> omega


theorem callsLeft_lt (hp : picolGetToken p = some p') (heof : p'.type ≠ .eof) :
    callsLeft p' < callsLeft p := by
  obtain ⟨comment, rest, hrest, -, -, ⟨taken, rfl, htakes⟩ | ⟨-, hnil, -, htype⟩⟩ :=
    getToken_found hp
  · have hpos := List.length_pos_iff.mpr htakes.ne_nil
    have hlength : p.rest.length = comment.length + (taken.length + p'.rest.length) := by
      rw [hrest, List.length_append, List.length_append]
    have hne : p.rest ≠ [] := List.ne_nil_of_length_pos (by omega)
    rw [callsLeft, callsLeft, if_pos hne]
    split_ifs <;> omega
  · split_ifs at htype with hboth
    · have heol : p'.type = .eol ∨ p'.type = .eof := .inl htype
      rw [callsLeft, callsLeft, hnil, if_neg (not_not.mpr rfl), if_pos heol,
        if_neg (not_or.mpr hboth)]
      split_ifs <;> omega
    · exact absurd htype heof

/-- The step lemma: the text of a call is cut where the text behind it is. -/
theorem cut_of_getToken {tokens : List Parser} (hp : picolGetToken p = some p')
    (htokens : if p'.type = .eof then tokens = [] else Cut p'.rest tokens) :
    Cut p.rest (p' :: tokens) := by
  obtain ⟨comment, rest, hrest, hcomment, hnone, ⟨taken, rfl, htakes⟩ | ⟨rfl, hnil, -, htype⟩⟩ :=
    getToken_found hp
  · have heof : p'.type ≠ .eof := by
      intro heof
      rw [heof] at htakes
      cases htakes
    rw [if_neg heof] at htokens
    rw [hrest]
    exact .next hcomment htakes htokens
  · rw [hrest, List.append_nil]
    split_ifs at htokens with heof
    · rw [htokens]
      exact .eof hcomment hnil heof
    · split_ifs at htype with hboth
      · rw [hnone hboth.1]
        exact .eol hnil htype (hnil ▸ htokens)
      · exact absurd htype heof

theorem readTokens_cut {calls : ℕ} {p : Parser} {tokens : List Parser}
    (hread : readTokens calls p = some tokens) :
    Cut p.rest tokens ∧ tokens.length ≤ callsLeft p := by
  induction calls generalizing p tokens with
  | zero => cases hread
  | succ calls ih =>
      rw [readTokens] at hread
      rcases hp : picolGetToken p with _ | p'
      · rw [hp] at hread
        cases hread
      · rw [hp] at hread
        dsimp only at hread
        split_ifs at hread with heof
        · cases hread
          exact ⟨cut_of_getToken hp (by rw [if_pos heof]), callsLeft_pos p⟩
        · obtain ⟨rest, hrest, rfl⟩ := Option.map_eq_some_iff.mp hread
          obtain ⟨hcut, hlength⟩ := ih hrest
          refine ⟨cut_of_getToken hp (by rwa [if_neg heof]), ?_⟩
          exact (Nat.succ_le_succ hlength).trans (callsLeft_lt hp heof)

theorem readTokens_isSome {calls : ℕ} {p : Parser} (hlast : p.rest.getLast? ≠ some '\\')
    (hcalls : callsLeft p ≤ calls) : (readTokens calls p).isSome = true := by
  induction calls generalizing p with
  | zero => exact absurd (callsLeft_pos p) (Nat.not_lt_of_ge hcalls)
  | succ calls ih =>
      obtain ⟨p', hp⟩ := Option.isSome_iff_exists.mp (getToken_isSome hlast)
      rw [readTokens, hp]
      dsimp only
      split_ifs with heof
      · rfl
      · have hsuffix : p'.rest <:+ p.rest := by
          obtain ⟨comment, rest, hrest, -, -, ⟨taken, rfl, -⟩ | ⟨-, hnil, -⟩⟩ := getToken_found hp
          · exact ⟨comment ++ taken, by rw [hrest, List.append_assoc]⟩
          · exact hnil ▸ List.nil_suffix
        rw [Option.isSome_map]
        exact ih (getLast_of_suffix hsuffix hlast)
          (Nat.le_of_lt_succ ((callsLeft_lt hp heof).trans_le hcalls))

end Fip.Picol
