import Fip.Core.Fragment
import Fip.Bfc.Compiler

/-!
# The machine behind the compiled code

Threaded code is entered by `jsr`, and an address in it is what stands there up
to the end of the definition.  `jsr` leaves the address behind it for the word
it calls.  Most words return there; the primitives take it off the return stack
and use it to find their operand.
-/

namespace Fip.Bfc

abbrev Cell := BitVec 16

/-- The data stack and the return stack, the tops first. -/
structure Stacks where
  data : List Cell
  ret : List Cell
  deriving DecidableEq

/-- The labels of the words that the compiler needs for literals and control
structures. -/
structure Refs where
  lit : ℕ
  zbra : ℕ
  bra : ℕ
  dofor : ℕ
  push : ℕ
  deriving DecidableEq

abbrev Code := List Item

/-- The place where a label stands. -/
def Code.find (l : ℕ) : Code → Option Code
  | [] => none
  | item :: code => if item = .label l then some (item :: code) else Code.find l code

/-- `pulu y`, `pshs y` -/
def push : Stacks → Option Stacks
  | ⟨n :: data, ret⟩ => some ⟨data, n :: ret⟩
  | _ => none

section

variable (code : Code)

/-- `ldx ,x`, `jmp ,x` -/
def jump : Code → Option Code
  | .dwLabel l :: _ => code.find l
  | _ => none

/-- `leax 2,x`, `jmp ,x` -/
def skip : Code → Option Code
  | .dwLabel _ :: x => some x
  | _ => none

/-- What follows `puls x` in the primitive `lit`. -/
def lit : Code → Stacks → Option (Code × Stacks)
  | .dw n :: x, ⟨data, ret⟩ => some (x, ⟨.ofInt 16 n :: data, ret⟩)
  | _, _ => none

def bra (x : Code) (st : Stacks) : Option (Code × Stacks) :=
  (jump code x).map fun x => (x, st)

def zbra (x : Code) : Stacks → Option (Code × Stacks)
  | ⟨d :: data, ret⟩ =>
      (if d = 0 then jump code x else skip x).map fun x => (x, ⟨data, ret⟩)
  | _ => none

def dofor (x : Code) : Stacks → Option (Code × Stacks)
  | ⟨data, counter :: ret⟩ =>
      if counter = 0 then (jump code x).map fun x => (x, ⟨data, ret⟩)
      else (skip x).map fun x => (x, ⟨data, (counter - 1) :: ret⟩)
  | _ => none

variable (refs : Refs) (act : ℕ → Stacks → Option Stacks)

/-- What a call of a word does to the stacks. -/
def call (ref : ℕ) : Stacks → Option Stacks :=
  if ref = refs.push then push else act ref

/-- A subroutine call with the return address `x`. -/
def jsr (ref : ℕ) (x : Code) (st : Stacks) : Option (Code × Stacks) :=
  if ref = refs.lit then lit x st
  else if ref = refs.zbra then zbra code x st
  else if ref = refs.bra then bra code x st
  else if ref = refs.dofor then dofor code x st
  else (call refs act ref st).map fun st => (x, st)

/-- A step of the machine.  It ends with `rts`, and is stuck where a word does
not return. -/
def thread : Code × Stacks → Code × Stacks ⊕ Option Stacks
  | (.label _ :: x, st) => .inl (x, st)
  | (.jsr ref :: x, st) => (jsr code refs act ref x st).elim (.inr none) .inl
  | (.rts :: _, st) => .inr (some st)
  | _ => .inr none

/-- An execution that comes to the end of the definition. -/
def Halts (st st' : Stacks) : Prop :=
  ∃ fuel, Machine.run (thread code refs act) fuel (code, st) = some (some st')

end

end Fip.Bfc
