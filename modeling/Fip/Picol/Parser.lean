import Mathlib.Data.List.TakeWhile
import Mathlib.Tactic.Common

/-!
# The parser of picol

A parser stands at a place in a text that a NUL ends.  It is kept by what is left of the
text there, which is as long as its `len` says, and by the token that it has found.  Each
call of `picolGetToken` finds the next token.
-/

namespace Fip.Picol

/-- The types of tokens, `PT_ESC` and so on. -/
inductive TokenType
  | esc | str | cmd | var | sep | eol | eof
  deriving DecidableEq, Repr

/-- `struct picolParser`: the text from `p` on, the token from `start` to `end`, its type,
and whether the parser is inside quotes. -/
structure Parser where
  rest : List Char
  token : List Char
  type : TokenType
  insidequote : Bool
  deriving DecidableEq, Repr

def picolInitParser (text : List Char) : Parser := ⟨text, [], .eol, false⟩

def isBlank (c : Char) : Bool := c == ' ' || c == '\t' || c == '\n' || c == '\r'

def picolParseSep (p : Parser) : Parser :=
  { p with rest := p.rest.dropWhile isBlank, token := p.rest.takeWhile isBlank, type := .sep }

def picolParseEol (p : Parser) : Parser :=
  let ends := fun c => isBlank c || c == ';'
  { p with rest := p.rest.dropWhile ends, token := p.rest.takeWhile ends, type := .eol }

/-- The loop of `picolParseCommand`: the token, and what is left behind the bracket that
closes it.  There is none if the parser steps over the NUL. -/
def scanCommand : ℕ → ℕ → List Char → Option (List Char × List Char)
  | _, _, [] => some ([], [])
  | level, blevel, c :: rest =>
      if c = '[' ∧ blevel = 0 then
        (scanCommand (level + 1) blevel rest).map (Prod.map (c :: ·) id)
      else if c = ']' ∧ blevel = 0 then
        if level = 1 then some ([], rest)
        else (scanCommand (level - 1) blevel rest).map (Prod.map (c :: ·) id)
      else if c = '\\' then
        -- the character behind the backslash is stepped over, and be it the NUL
        match rest with
        | [] => none
        | c' :: rest => (scanCommand level blevel rest).map (Prod.map (c :: c' :: ·) id)
      else if c = '{' then
        (scanCommand level (blevel + 1) rest).map (Prod.map (c :: ·) id)
      else if c = '}' then
        (scanCommand level (blevel - 1) rest).map (Prod.map (c :: ·) id)
      else (scanCommand level blevel rest).map (Prod.map (c :: ·) id)

def picolParseCommand (p : Parser) : Option Parser :=
  (scanCommand 1 0 p.rest.tail).map fun (token, rest) =>
    { p with rest := rest, token := token, type := .cmd }

/-- What the name of a variable may consist of. -/
def isName (c : Char) : Bool := c.isAlphanum || c == '_'

def picolParseVar (p : Parser) : Parser :=
  let rest := p.rest.tail
  if rest.takeWhile isName = [] then
    -- It's just a single char string "$"
    { p with rest := rest, token := p.rest.take 1, type := .str }
  else
    { p with rest := rest.dropWhile isName, token := rest.takeWhile isName, type := .var }

/-- The loop of `picolParseBrace`. -/
def scanBrace : ℕ → List Char → List Char × List Char
  | _, [] => ([], [])
  | level, c :: rest =>
      if c = '\\' then
        match rest with
        | [] => ([c], [])
        | c' :: rest => (scanBrace level rest).map (c :: c' :: ·) id
      else if c = '}' then
        if level = 1 then ([], rest) else (scanBrace (level - 1) rest).map (c :: ·) id
      else if c = '{' then (scanBrace (level + 1) rest).map (c :: ·) id
      else (scanBrace level rest).map (c :: ·) id

def picolParseBrace (p : Parser) : Parser :=
  let (token, rest) := scanBrace 1 p.rest.tail
  { p with rest := rest, token := token, type := .str }

/-- The loop of `picolParseString`: the token, what is left behind it, and whether that is
inside quotes. -/
def scanString (insidequote : Bool) : List Char → List Char × List Char × Bool
  | [] => ([], [], insidequote)
  | c :: rest =>
      if c = '\\' then
        match rest with
        | [] => ([c], [], insidequote)
        | c' :: rest => (scanString insidequote rest).map (c :: c' :: ·) id
      else if c = '$' ∨ c = '[' then ([], c :: rest, insidequote)
      else if (isBlank c ∨ c = ';') ∧ insidequote = false then ([], c :: rest, insidequote)
      else if c = '"' ∧ insidequote = true then ([], rest, false)
      else (scanString insidequote rest).map (c :: ·) id

/-- Whether a token of the type has another word behind it. -/
def TokenType.newword (type : TokenType) : Bool := type == .sep || type == .eol || type == .str

def picolParseString (p : Parser) : Parser :=
  if p.type.newword ∧ p.rest.head? = some '{' then picolParseBrace p
  else
    let (token, rest, insidequote) :=
      if p.type.newword ∧ p.rest.head? = some '"' then scanString true p.rest.tail
      else scanString p.insidequote p.rest
    ⟨rest, token, .esc, insidequote⟩

def picolParseComment (p : Parser) : Parser := { p with rest := p.rest.dropWhile (· != '\n') }

/-- The switch of `picolGetToken`, and what stands before it. -/
def dispatch (p : Parser) : Option Parser :=
  match p.rest with
  | [] => some { p with type := if p.type ≠ .eol ∧ p.type ≠ .eof then .eol else .eof }
  | c :: _ =>
      if c = ' ' ∨ c = '\t' ∨ c = '\r' then
        some (if p.insidequote then picolParseString p else picolParseSep p)
      else if c = '\n' ∨ c = ';' then
        some (if p.insidequote then picolParseString p else picolParseEol p)
      else if c = '[' then picolParseCommand p
      else if c = '$' then some (picolParseVar p)
      else some (picolParseString p)

/-- The next token.  Behind a comment stands a newline or nothing, so the loop is not gone
through a third time. -/
def picolGetToken (p : Parser) : Option Parser :=
  if p.rest.head? = some '#' ∧ p.type = .eol then dispatch (picolParseComment p)
  else dispatch p

end Fip.Picol
