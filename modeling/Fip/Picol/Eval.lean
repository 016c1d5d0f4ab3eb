import Fip.Core.Unfolding
import Fip.Picol.Interp

/-!
# `picolEval` and the commands that call it

A script is evaluated token by token.  Commands in brackets, the arguments of `if` and
`while` and the bodies of procedures are scripts again, so all that is called again is one
recursive procedure of requests; the two loops ask for what is left of them.
-/

namespace Fip.Picol

/-- Where the interpreter uses memory that is not its own: the parser stands behind the NUL
of its text, a word is joined to one before the first, or there is no call frame. -/
inductive Stop
  | overrun | noWord | noFrame
  deriving DecidableEq, Repr

abbrev Reply := Except Stop (Code × Interp)

inductive Request
  /-- A call of `picolEval`. -/
  | eval (i : Interp) (t : List Char)
  /-- The loop of `picolEval`. -/
  | tokens (i : Interp) (p : Parser) (argv : List (List Char))
  /-- The loop of `picolCommandWhile`. -/
  | loop (i : Interp) (argv : List (List Char))

/-- What is done with the return code and the interpreter behind a call. -/
def onReply (reply : Option Reply) (next : Code → Interp → Option Reply) : Option Reply :=
  match reply with
  | none => none
  | some (.error stop) => some (.error stop)
  | some (.ok (code, i)) => next code i

/-- Behind a call that returned `PICOL_OK`; any other code is returned at once. -/
def onOk (reply : Option Reply) (next : Interp → Option Reply) : Option Reply :=
  onReply reply fun code i => if code ≠ .ok then some (.ok (code, i)) else next i

section Commands

variable (call : Request → Option Reply)

def picolCommandIf (i : Interp) (argv : List (List Char)) : Option Reply :=
  if argv.length ≠ 3 ∧ argv.length ≠ 5 then some (.ok (picolArityErr i (argv.headD [])))
  else
    onOk (call (.eval i (argv.getD 1 []))) fun i =>
      if atol i.result ≠ 0 then call (.eval i (argv.getD 2 []))
      else if argv.length = 5 then call (.eval i (argv.getD 4 []))
      else some (.ok (.ok, i))

/-- The body of the loop of `picolCommandWhile`. -/
def whileBody (i : Interp) (argv : List (List Char)) : Option Reply :=
  onOk (call (.eval i (argv.getD 1 []))) fun i =>
    if atol i.result ≠ 0 then
      onReply (call (.eval i (argv.getD 2 []))) fun retcode i =>
        if retcode = .cont ∨ retcode = .ok then call (.loop i argv)
        else if retcode = .brk then some (.ok (.ok, i))
        else some (.ok (retcode, i))
    else some (.ok (.ok, i))

def picolCommandWhile (i : Interp) (argv : List (List Char)) : Option Reply :=
  if argv.length ≠ 3 then some (.ok (picolArityErr i (argv.headD [])))
  else call (.loop i argv)

/-- The loop of `picolCommandCallProc` over the list of arguments, and whether it goes to
`arityerr`.  Each round takes a letter at least, so there are not more than the list is
long, and the last. -/
def bindArgs : ℕ → Interp → List (List Char) → List Char → Interp × Bool
  | 0, i, _, _ => (i, true)
  | rounds + 1, i, args, p =>
      let start := p.takeWhile (· != ' ')
      match p.dropWhile (· != ' ') with
      | [] =>
          if start = [] then (i, args ≠ [])
          else
            match args with
            | [] => (i, true)
            | arg :: args => (picolSetVar i start arg, args ≠ [])
      | _ :: p =>
          if start = [] then bindArgs rounds i args p
          else
            match args with
            | [] => (i, true)
            | arg :: args => bindArgs rounds (picolSetVar i start arg) args p

def pushCallFrame (i : Interp) : Interp :=
  { i with callframe := ⟨[]⟩, parents := i.callframe :: i.parents }

/-- Returns from a procedure, whose call frame is removed. -/
def dropped (code : Code) (i : Interp) : Reply :=
  match picolDropCallFrame i with
  | none => .error .noFrame
  | some i => .ok (code, i)

def picolCommandCallProc (i : Interp) (argv : List (List Char)) (alist body : List Char) :
    Option Reply :=
  match bindArgs (alist.length + 1) (pushCallFrame i) argv.tail alist with
  | (i, true) =>
      some (dropped .err (picolSetResult i
        (errbuf ("Proc '".toList ++ argv.headD [] ++ "' called with wrong arg num".toList))))
  | (i, false) =>
      onReply (call (.eval i body)) fun errcode i =>
        some (dropped (if errcode = .ret then .ok else errcode) i)

/-- `c->func(i,argc,argv,c->privdata)`. -/
def callFunc (i : Interp) (argv : List (List Char)) : Func → Option Reply
  | .math => some (.ok (picolCommandMath i argv))
  | .set => some (.ok (picolCommandSet i argv))
  | .puts => some (.ok (picolCommandPuts i argv))
  | .if => picolCommandIf call i argv
  | .while => picolCommandWhile call i argv
  | .retCodes => some (.ok (picolCommandRetCodes i argv))
  | .proc => some (.ok (picolCommandProc i argv))
  | .ret => some (.ok (picolCommandReturn i argv))
  | .callProc alist body => picolCommandCallProc call i argv alist body

/-- A complete command is called, if there is one, and the next one is begun. -/
def runCommand (i : Interp) (p : Parser) (argv : List (List Char)) : Option Reply :=
  match argv with
  | [] => call (.tokens i p [])
  | name :: _ =>
      match picolGetCommand i name with
      | none =>
          some (.ok (.err, picolSetResult i
            (errbuf ("No such command '".toList ++ name ++ "'".toList))))
      | some c => onOk (callFunc call i argv c.func) fun i => call (.tokens i p [])

/-- A token is a new argument, or appended to the last one. -/
def addToken (i : Interp) (prevtype : TokenType) (p : Parser) (argv : List (List Char))
    (t : List Char) : Option Reply :=
  if prevtype = .sep ∨ prevtype = .eol then call (.tokens i p (argv ++ [t]))
  else
    match argv.getLast? with
    | none => some (.error .noWord)
    | some arg => call (.tokens i p (argv.dropLast ++ [arg ++ t]))

/-- The body of the loop of `picolEval`. -/
def tokenBody (i : Interp) (p : Parser) (argv : List (List Char)) : Option Reply :=
  let prevtype := p.type
  match picolGetToken p with
  | none => some (.error .overrun)
  | some p =>
      match p.type with
      | .eof => some (.ok (.ok, i))
      | .var =>
          match picolGetVar i p.token with
          | none =>
              some (.ok (.err, picolSetResult i
                (errbuf ("No such variable '".toList ++ p.token ++ "'".toList))))
          | some v => addToken call i prevtype p argv v.val
      | .cmd =>
          onOk (call (.eval i p.token)) fun i => addToken call i prevtype p argv i.result
      | .sep => call (.tokens i p argv)
      | .eol => runCommand call i p argv
      | .esc | .str => addToken call i prevtype p argv p.token

/-- What is done for a request, with the requests that it makes. -/
def respond : Request → Option Reply
  | .eval i t => call (.tokens (picolSetResult i []) (picolInitParser t) [])
  | .tokens i p argv => tokenBody call i p argv
  | .loop i argv => whileBody call i argv

end Commands

/-- `picolEval` down to a depth of its calls and loops. -/
def picolEval (depth : ℕ) (i : Interp) (t : List Char) : Option Reply :=
  Unfolding.unfolded respond depth (.eval i t)

/-- `picolEval` returns, or stops. -/
abbrev Returns (request : Request) (reply : Reply) : Prop :=
  Unfolding.Returns respond request reply

end Fip.Picol
