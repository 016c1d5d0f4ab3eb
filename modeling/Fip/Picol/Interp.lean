import Fip.Picol.Parser

/-!
# The interpreter of picol and its simple commands

Strings are kept up to their NUL.  A `long` has 32 bits.  What is printed is kept with the
interpreter.
-/

namespace Fip.Picol

/-- What a script and a command return, `PICOL_OK` and so on. -/
inductive Code
  | ok | err | ret | brk | cont
  deriving DecidableEq, Repr

structure Var where
  name : List Char
  val : List Char
  deriving DecidableEq, Repr

structure CallFrame where
  vars : List Var
  deriving DecidableEq, Repr

/-- The functions of commands; that of a procedure with its private data, the list of
arguments and the body. -/
inductive Func
  | math | set | puts | if | while | retCodes | proc | ret
  | callProc (alist body : List Char)
  deriving DecidableEq, Repr

structure Cmd where
  name : List Char
  func : Func
  deriving DecidableEq, Repr

/-- `struct picolInterp`: the call frame with those behind its `parent`, the commands, the
last one first, and the result; and what has been printed. -/
structure Interp where
  callframe : CallFrame
  parents : List CallFrame
  commands : List Cmd
  result : List Char
  out : List Char
  deriving DecidableEq, Repr

def picolInitInterp : Interp := ⟨⟨[]⟩, [], [], [], []⟩

def picolSetResult (i : Interp) (s : List Char) : Interp := { i with result := s }

/-- What `snprintf` keeps in the 1024 bytes of `errbuf`. -/
def errbuf (text : List Char) : List Char := text.take 1023

def picolGetVar (i : Interp) (name : List Char) : Option Var :=
  i.callframe.vars.find? (·.name = name)

/-- The first variable of the name gets the value. -/
def assign (name val : List Char) : List Var → List Var
  | [] => []
  | v :: vars => if v.name = name then { v with val := val } :: vars else v :: assign name val vars

def picolSetVar (i : Interp) (name val : List Char) : Interp :=
  match picolGetVar i name with
  | some _ => { i with callframe := ⟨assign name val i.callframe.vars⟩ }
  | none => { i with callframe := ⟨⟨name, val⟩ :: i.callframe.vars⟩ }

def picolGetCommand (i : Interp) (name : List Char) : Option Cmd :=
  i.commands.find? (·.name = name)

def picolRegisterCommand (i : Interp) (name : List Char) (f : Func) : Code × Interp :=
  match picolGetCommand i name with
  | some _ =>
      (.err, picolSetResult i
        (errbuf ("Command '".toList ++ name ++ "' already defined".toList)))
  | none => (.ok, { i with commands := ⟨name, f⟩ :: i.commands })

def picolArityErr (i : Interp) (name : List Char) : Code × Interp :=
  (.err, picolSetResult i (errbuf ("Wrong number of args for ".toList ++ name)))

abbrev Long := BitVec 32

def isSpace (c : Char) : Bool := isBlank c || c == '\x0b' || c == '\x0c'

def digits (s : List Char) : ℕ := Nat.ofDigitChars 10 (s.takeWhile Char.isDigit) 0

def atol (s : List Char) : Long :=
  match s.dropWhile isSpace with
  | [] => 0
  | c :: s =>
      if c = '-' then - BitVec.ofNat 32 (digits s)
      else if c = '+' then BitVec.ofNat 32 (digits s)
      else BitVec.ofNat 32 (digits (c :: s))

/-- `snprintf` with `%ld`. -/
def showLong (c : Long) : List Char := (toString c.toInt).toList

def ofBool (b : Bool) : Long := if b then 1 else 0

/-- What `picolCommandMath` computes, by the first two characters of the name. -/
def mathResult (c₀ c₁ : Char) (a b : Long) : Long :=
  if c₀ = '+' then a + b
  else if c₀ = '-' then a - b
  else if c₀ = '*' then a * b
  else if c₀ = '/' then a.sdiv b
  else if c₀ = '>' ∧ c₁ = '\x00' then ofBool (b.slt a)
  else if c₀ = '>' ∧ c₁ = '=' then ofBool (b.sle a)
  else if c₀ = '<' ∧ c₁ = '\x00' then ofBool (a.slt b)
  else if c₀ = '<' ∧ c₁ = '=' then ofBool (a.sle b)
  else if c₀ = '=' ∧ c₁ = '=' then ofBool (a == b)
  else if c₀ = '!' ∧ c₁ = '=' then ofBool (a != b)
  else 0

def picolCommandMath (i : Interp) (argv : List (List Char)) : Code × Interp :=
  match argv with
  | [name, x, y] =>
      let a := atol x
      let b := atol y
      let c₀ := name.getD 0 '\x00'
      if b = 0 ∧ c₀ = '/' ∨ c₀ = '%' then
        (.err, picolSetResult i "Division by zero".toList)
      else (.ok, picolSetResult i (showLong (mathResult c₀ (name.getD 1 '\x00') a b)))
  | _ => picolArityErr i (argv.headD [])

def picolCommandSet (i : Interp) (argv : List (List Char)) : Code × Interp :=
  match argv with
  | [_, name, val] => (.ok, picolSetResult (picolSetVar i name val) val)
  | _ => picolArityErr i (argv.headD [])

def picolCommandPuts (i : Interp) (argv : List (List Char)) : Code × Interp :=
  match argv with
  | [_, text] => (.ok, { i with out := i.out ++ text ++ ['\n'] })
  | _ => picolArityErr i (argv.headD [])

def picolCommandRetCodes (i : Interp) (argv : List (List Char)) : Code × Interp :=
  match argv with
  | [name] =>
      if name = "break".toList then (.brk, i)
      else if name = "continue".toList then (.cont, i)
      else (.ok, i)
  | _ => picolArityErr i (argv.headD [])

def picolCommandProc (i : Interp) (argv : List (List Char)) : Code × Interp :=
  match argv with
  | [_, name, alist, body] => picolRegisterCommand i name (.callProc alist body)
  | _ => picolArityErr i (argv.headD [])

def picolCommandReturn (i : Interp) (argv : List (List Char)) : Code × Interp :=
  match argv with
  | [_] => (.ret, picolSetResult i [])
  | [_, value] => (.ret, picolSetResult i value)
  | _ => picolArityErr i (argv.headD [])

/-- The frame of the caller is the current one again; there is none at the top level. -/
def picolDropCallFrame (i : Interp) : Option Interp :=
  match i.parents with
  | [] => none
  | parent :: parents => some { i with callframe := parent, parents := parents }

/-- The names and functions of `picolRegisterCoreCommands`, in order. -/
def coreCommands : List (String × Func) :=
  [("+", .math), ("-", .math), ("*", .math), ("/", .math), (">", .math), (">=", .math),
    ("<", .math), ("<=", .math), ("==", .math), ("!=", .math), ("set", .set), ("puts", .puts),
    ("if", .if), ("while", .while), ("break", .retCodes), ("continue", .retCodes),
    ("proc", .proc), ("return", .ret)]

def picolRegisterCoreCommands (i : Interp) : Interp :=
  coreCommands.foldl (fun i (name, f) => (picolRegisterCommand i name.toList f).2) i

/-- The interpreter that `main` begins with, without the command `system` that `init_brett`
registers. -/
def started : Interp := picolRegisterCoreCommands picolInitInterp

end Fip.Picol
