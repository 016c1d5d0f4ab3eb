import Fip.Core.ByteFile
import Fip.Core.Fragment
import Mathlib.Data.UInt

/-!
# Detokenizing BASIC programs

`detoken` goes through each tokenised program twice, first without output.  A
file that is not tokenised is copied, which ends the program.
-/

namespace Fip.Decb.Detoken

/-- The primary tokens. -/
def tokens : List String :=
  ["FOR", "GO", "REM", "'", "ELSE", "IF", "DATA", "PRINT", "ON", "INPUT", "END", "NEXT", "DIM",
    "READ", "RUN", "RESTOR", "RETURN", "STOP", "POKE", "CONT", "LIST", "CLEAR", "NEW", "CLOAD",
    "CSAVE", "OPEN", "CLOSE", "LLIST", "SET", "RESET", "CLS", "MOTOR", "SOUND", "AUDIO",
    "EXEC", "SKIPF", "TAB(", "TO", "SUB", "THEN", "NOT", "STEP", "OFF", "+", "-", "*", "/",
    "^", "AND", "OR", ">", "=", "<", "DEL", "EDIT", "TRON", "TROF", "DEF", "LET", "LINE",
    "PCLS", "PSET", "PRESET", "SCREEN", "PCLEAR", "COLOR", "CIRCLE", "PAINT", "GET", "PUT",
    "DRAW", "PCOPY", "PMODE", "PLAY", "DLOAD", "RENUM", "FN", "USING", "DIR", "DRIVE", "FIELD",
    "FILES", "KILL", "LOAD", "LSET", "MERGE", "RENAME", "RSET", "SAVE", "WRITE", "VERIFY",
    "UNLOAD", "DSKINI", "BACKUP", "COPY", "DSKI$", "DSKO$", "DOS", "WIDTH", "PALETTE",
    "HSCREEN", "LPOKE", "HCLS", "HCOLOR", "HPAINT", "HCIRCLE", "HLINE", "HGET", "HPUT",
    "HBUFF", "HPRINT", "ERR", "BRK", "LOCATE", "HSTAT", "HSET", "HRESET", "HDRAW", "CMP",
    "RGB", "ATTR"]

/-- The secondary tokens. -/
def second : List String :=
  ["SGN", "INT", "ABS", "USR", "RND", "SIN", "PEEK", "LEN", "STR$", "VAL", "ASC", "CHR$",
    "EOF", "JOYSTK", "LEFT$", "RIGHT$", "MID$", "POINT", "INKEY$", "MEM", "ATN", "COS", "TAN",
    "EXP", "FIX", "LOG", "POS", "SQR", "HEX$", "VARPTR", "INSTR", "TIMER", "PPOINT", "STRING$",
    "CVN", "FREE", "LOC", "LOF", "MKN$", "AS", "LPEEK", "BUTTON", "HPOINT", "ERRNO", "ERLIN"]

/-- The bytes of a text. -/
def bytesOf (text : String) : List UInt8 :=
  text.toList.map fun c => .ofNat c.toNat

/-- Standard input: the file, how far it has been read, and the buffer with the
position in it. -/
structure Reader where
  file : List UInt8
  offset : ℕ
  buf : List UInt8
  pos : ℕ

namespace Reader

/-- The next part of the file if the buffer is used up. -/
def fill (r : Reader) : Reader :=
  if r.pos = r.buf.length then
    let buf := ByteFile.pread r.file r.offset 256
    { r with offset := r.offset + buf.length, buf := buf, pos := 0 }
  else r

def mygetc (r : Reader) : Option (UInt8 × Reader) :=
  let r := r.fill
  (r.buf[r.pos]?).map fun c => (c, { r with pos := r.pos + 1 })

def mygetw (r : Reader) : Option (ℕ × Reader) := do
  let (high, r) ← r.mygetc
  let (low, r) ← r.mygetc
  some (high.toNat * 256 + low.toNat, r)

def reset (r : Reader) : Reader :=
  { r with offset := 0, buf := [], pos := 0 }

end Reader

/-- Where the program is: at the arguments, at the header, before a line or in a
line of a program, each with `pflag`, in a line also with `flag`; or copying. -/
inductive Loc where
  | args
  | header (pflag : Bool)
  | line (pflag : Bool)
  | body (pflag flag : Bool)
  | copy

structure State where
  argv : List String
  loc : Loc
  unixflg : Bool
  tflag : Bool
  input : Reader
  out : List UInt8

/-- The end of the program, with its exit code and what is in the output. -/
abbrev Result := ℕ × List UInt8

namespace State

/-- `exit`; also `myerror`. -/
def exit (s : State) (code : ℕ) : State ⊕ Option Result :=
  .inr (some (code, s.out))

def myprintf (s : State) (pflag : Bool) (text : List UInt8) : State :=
  { s with out := s.out ++ if pflag then text else [] }

/-- What is read by `mygetc_err` or by `mygetw` is used. -/
def reading {α : Type} (s : State) (got : Option (α × Reader))
    (next : α → State → State ⊕ Option Result) : State ⊕ Option Result :=
  match got with
  | some (value, r) => next value { s with input := r }
  | none => s.exit 1

end State

section

variable (fs : String → Option (List UInt8)) (freopen : Option String → Bool)
  (decimal : ℕ → List UInt8)

/-- The letters of an option; a file for the output is the rest of the argument or
the next one. -/
def options : List Char → State → State ⊕ Option Result
  | [], s => .inl s
  | 'l' :: letters, s => options letters { s with unixflg := true }
  | 'h' :: _, s => s.exit 1
  | 'o' :: letters, s =>
      let name := if letters = [] then s.argv.head? else some (String.ofList letters)
      if freopen name then
        .inl { s with argv := if letters = [] then s.argv.tail else s.argv, out := [] }
      else s.exit 4
  | 't' :: letters, s => options letters { s with tflag := true }
  | _ :: _, s => s.exit 1

/-- The next argument. -/
def nextArg (s : State) : State ⊕ Option Result :=
  match s.argv with
  | [] => s.exit 0
  | arg :: argv =>
      let s := { s with argv := argv }
      match arg.toList with
      | '-' :: letters => options freopen letters s
      | _ =>
          match fs arg with
          | none => s.exit 5
          | some file =>
              .inl { s with loc := .header false, input := { s.input with file := file } }

/-- The beginning of `foo`, and of `copy` if the file is not tokenised. -/
def readHeader (pflag : Bool) (s : State) : State ⊕ Option Result :=
  let s := { s with input := s.input.reset }
  s.reading s.input.mygetc fun c s =>
    if c ≠ 0xff then .inl { s with loc := .copy, input := s.input.reset }
    else s.reading s.input.mygetw fun _ s => .inl { s with loc := .line pflag }

/-- The link of a line, which ends `foo` if it is zero, and the line number. -/
def readLine (pflag : Bool) (s : State) : State ⊕ Option Result :=
  s.reading s.input.mygetw fun link s =>
    if link = 0 then .inl { s with loc := if pflag then .args else .header true }
    else
      s.reading s.input.mygetw fun ln s =>
        .inl { s.myprintf pflag (decimal ln ++ [0x20]) with loc := .body pflag false }

/-- An entry of a table of tokens; beyond it anything can happen. -/
def printToken (table : List String) (pflag : Bool) (c : UInt8) (s : State) :
    State ⊕ Option Result :=
  match table[(c &&& 0x7f).toNat]? with
  | none => .inr none
  | some token => .inl { s.myprintf pflag (bytesOf token) with loc := .body pflag false }

/-- The next byte of a line. -/
def readBody (pflag flag : Bool) (s : State) : State ⊕ Option Result :=
  s.reading s.input.mygetc fun c s =>
    if flag then printToken second pflag c s
    else if c = 0xff then .inl { s with loc := .body pflag true }
    else if c &&& 0x80 ≠ 0 then printToken tokens pflag c s
    else if c = 0 then
      .inl { s.myprintf pflag [if s.unixflg then 0x0a else 0x0d] with loc := .line pflag }
    else .inl (s.myprintf pflag [c])

/-- The next byte of a file that is not tokenised. -/
def copyByte (s : State) : State ⊕ Option Result :=
  match s.input.mygetc with
  | none => s.exit 0
  | some (c, r) =>
      .inl { s with
        input := r
        out := s.out ++ [if s.unixflg ∧ c = 0x0d then 0x0a else c] }

/-- A step of the program; `fs` are the files that can be read, `freopen` says which
output files can be opened and `decimal` is what a line number is printed as, which
depends on the width of an `int`. -/
def step (s : State) : State ⊕ Option Result :=
  match s.loc with
  | .args => nextArg fs freopen s
  | .header pflag => readHeader pflag s
  | .line pflag => readLine decimal pflag s
  | .body pflag flag => readBody pflag flag s
  | .copy => copyByte s

end

def start (argv : List String) : State where
  argv := argv
  loc := .args
  unixflg := false
  tflag := false
  input := ⟨[], 0, [], 0⟩
  out := []

end Fip.Decb.Detoken
