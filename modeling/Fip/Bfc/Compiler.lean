import Mathlib.Data.Nat.Notation
import Mathlib.Data.List.Basic
import Mathlib.Algebra.Group.Nat.Defs
import Mathlib.Algebra.Group.Int.Defs

/-!
# bfc

The compiler of `bfc.c`: it reads words, puts most of them into the output as
subroutine calls and turns the control words into labels and branches.  A step
is undefined (`none`) where the program stops with an error, or leaves its
tables: sixteen slots on the control stack and on the number stack, 256 entries
in the dictionary, 64 bytes for a word.
-/

namespace Fip.Bfc

/-- `struct entry` -/
structure Entry where
  name : String
  flags : ℕ
  ref : ℕ

/-- The entries the compiler needs for itself, of which it prints the labels
only. -/
structure Pointers where
  lit : Option ℕ
  zbra : Option ℕ
  bra : Option ℕ
  slit : Option ℕ
  dodoes : Option ℕ
  noop : Option ℕ
  dofor : Option ℕ
  push : Option ℕ

/-- What a line of the output stands for. -/
inductive Item where
  | label (l : ℕ)
  | jsr (l : ℕ)
  | dwLabel (l : ℕ)
  | dw (n : Int)
  | db (c : ℕ)
  | ascii (delimiter : Char) (text : String)
  | asciz (delimiter : Char) (text : String)
  | asm (line : String)
  | rts
  deriving DecidableEq

/-- The variables of the compiler.  `labeli` is the number of labels; the `unsigned int` of the
6809 holds it up to 65535. -/
structure State where
  infile : List Char
  outfile : List Item
  labeli : ℕ
  dict : List Entry
  pointers : Pointers
  cstack : List ℕ
  nstack : List Int
  state : Bool
  wordb : String

/-- The compiler when it opens its source. -/
def State.start (infile : List Char) : State where
  infile := infile
  outfile := []
  labeli := 0
  dict := []
  pointers := ⟨none, none, none, none, none, none, none, none⟩
  cstack := []
  nstack := []
  state := false
  wordb := ""

/-- Is a forth blank?  The character is signed. -/
def isfblank (c : Char) : Bool :=
  c.toNat ≤ 32 || 128 ≤ c.toNat

/-- A line of at most `n` characters. -/
def fgets : ℕ → List Char → List Char × List Char
  | 0, infile => ([], infile)
  | _ + 1, [] => ([], [])
  | n + 1, c :: infile =>
      if c = '\n' then ([c], infile)
      else
        let (buff, infile) := fgets n infile
        (c :: buff, infile)

/-- The value of a digit below the base. -/
def digit (base : ℕ) (c : Char) : Option ℕ :=
  let n :=
    if '0' ≤ c ∧ c ≤ '9' then c.toNat - 48
    else if 'a' ≤ c ∧ c ≤ 'z' then c.toNat - 87
    else if 'A' ≤ c ∧ c ≤ 'Z' then c.toNat - 55
    else 36
  if n < base then some n else none

/-- `strtol` in base 0, when it reads all of the word, and the conversion to
`int`. -/
def strtol (word : List Char) : Option Int :=
  let (sign, word) : Int × List Char := match word with
    | '-' :: word => (-1, word)
    | '+' :: word => (1, word)
    | word => (1, word)
  let (base, word) := match word with
    | '0' :: 'x' :: word => (16, word)
    | '0' :: 'X' :: word => (16, word)
    | '0' :: word => (8, '0' :: word)
    | word => (10, word)
  if word = [] then none
  else
    (word.mapM (digit base)).map fun digits =>
      let magnitude : ℕ := digits.foldl (fun n d => n * base + d) 0
      let long := max (-2 ^ 63) (min (2 ^ 63 - 1) (sign * magnitude))
      Int.bmod long (2 ^ 32)

namespace Entry

/-- The name as `strcmp` reads it: one that fills its 32 bytes goes on with the
flags. -/
def cname (e : Entry) : String :=
  if e.name.length < 32 ∨ e.flags = 0 then e.name else e.name.push (Char.ofNat e.flags)

end Entry

/-- The pointer that belongs to the name is set. -/
def Pointers.note (pointers : Pointers) (name : String) (ref : ℕ) : Pointers :=
  if name = "lit" then { pointers with lit := some ref }
  else if name = "0bra" then { pointers with zbra := some ref }
  else if name = "bra" then { pointers with bra := some ref }
  else if name = "slit" then { pointers with slit := some ref }
  else if name = "dodoes" then { pointers with dodoes := some ref }
  else if name = "noop" then { pointers with noop := some ref }
  else if name = "dofor" then { pointers with dofor := some ref }
  else if name = "push" then { pointers with push := some ref }
  else pointers

namespace State

def pushCntl (s : State) (i : ℕ) : Option State :=
  if s.cstack.length < 16 then some { s with cstack := i :: s.cstack } else none

def pullCntl (s : State) : Option (ℕ × State) :=
  match s.cstack with
  | [] => none
  | i :: cstack => some (i, { s with cstack })

def pushNumber (s : State) (i : Int) : Option State :=
  if s.nstack.length < 16 then some { s with nstack := i :: s.nstack } else none

def pullNumber (s : State) : Option (Int × State) :=
  match s.nstack with
  | [] => none
  | i :: nstack => some (i, { s with nstack })

def fprintf (s : State) (items : List Item) : State :=
  { s with outfile := s.outfile ++ items }

/-- Compile the action of an entry. -/
def compEntry (s : State) (e : Option ℕ) : Option State :=
  e.map fun ref => s.fprintf [.jsr ref]

/-- Make an internal dictionary entry. -/
def mkentry (s : State) : Option State :=
  if s.dict.length < 256 then
    some
      { s.fprintf [.label s.labeli] with
        pointers := s.pointers.note s.wordb s.labeli
        dict := s.dict ++ [⟨String.ofList (s.wordb.toList.take 32), 0, s.labeli⟩]
        labeli := s.labeli + 1 }
  else none

/-- The entry at an index.  Those behind `dp` are empty, and what stands in the
memory behind `dict` is read as entries, too. -/
def entryAt (beyond : ℕ → Entry) (s : State) (i : ℕ) : Entry :=
  if i < 256 then s.dict.getD i ⟨"", 0, 0⟩ else beyond (i - 256)

def findentryFrom (beyond : ℕ → Entry) (s : State) (name : String) : ℕ → Option Entry
  | 0 => none
  | i + 1 =>
      let e := s.entryAt beyond i
      if e.cname = name then some e else findentryFrom beyond s name i

/-- Find an entry.  The search starts at `labeli`. -/
def findentry (beyond : ℕ → Entry) (s : State) : Option Entry :=
  s.findentryFrom beyond s.wordb s.labeli

/-- Fills the word buffer from the input; `false` at its end. -/
def word (s : State) : Option (Bool × State) :=
  match s.infile.dropWhile isfblank with
  | [] => some (false, { s with infile := [] })
  | infile =>
      let wordb := infile.takeWhile fun c => !isfblank c
      if wordb.length < 64 then
        some (true,
          { s with
            wordb := String.ofList wordb
            infile := (infile.dropWhile fun c => !isfblank c).tail })
      else none

def doasmLoop : ℕ → State → State
  | 0, s => s
  | fuel + 1, s =>
      match fgets 255 s.infile with
      | ([], _) => s
      | (buff, infile) =>
          let s := { s with infile }
          if buff.take 2 = [';', 'p'] then s
          else
            let line := String.ofList (buff.takeWhile fun c => c ≠ '\x00')
            doasmLoop fuel (s.fprintf [.asm line])

/-- Each line takes a character at least. -/
def doasm (s : State) : State :=
  doasmLoop (s.infile.length + 1) s

def doprim (s : State) : Option State := do
  let (_, s) ← s.word
  let s ← s.mkentry
  some s.doasm

def docolon (s : State) : Option State := do
  let (_, s) ← s.word
  let s ← s.mkentry
  some { s with state := true }

def dosemi (s : State) : Option State :=
  some { s.fprintf [.rts] with state := false }

def doif (s : State) : Option State := do
  let s ← s.compEntry s.pointers.zbra
  let s := s.fprintf [.dwLabel s.labeli]
  { s with labeli := s.labeli + 1 }.pushCntl s.labeli

def dodofor (s : State) : Option State := do
  let i := s.labeli
  let s := { s with labeli := s.labeli + 1 }
  let s ← s.compEntry s.pointers.push
  let s := s.fprintf [.label i]
  let s ← s.compEntry s.pointers.dofor
  let s := s.fprintf [.dwLabel s.labeli]
  let s ← { s with labeli := s.labeli + 1 }.pushCntl s.labeli
  s.pushCntl i

def dothen (s : State) : Option State := do
  let (i, s) ← s.pullCntl
  some (s.fprintf [.label i])

def dobegin (s : State) : Option State :=
  let s := s.fprintf [.label s.labeli]
  { s with labeli := s.labeli + 1 }.pushCntl s.labeli

def doagain (s : State) : Option State := do
  let s ← s.compEntry s.pointers.bra
  let (i, s) ← s.pullCntl
  some (s.fprintf [.dwLabel i])

def donext (s : State) : Option State := do
  let s ← s.doagain
  s.dothen

def dountil (s : State) : Option State := do
  let s ← s.compEntry s.pointers.zbra
  let (i, s) ← s.pullCntl
  some (s.fprintf [.dwLabel i])

def dowhile (s : State) : Option State := do
  let (i, s) ← s.pullCntl
  let s ← s.compEntry s.pointers.zbra
  let s := s.fprintf [.dwLabel s.labeli]
  let s ← { s with labeli := s.labeli + 1 }.pushCntl s.labeli
  s.pushCntl i

def dorepeat (s : State) : Option State := do
  let s ← s.doagain
  let (i, s) ← s.pullCntl
  some (s.fprintf [.label i])

def doelse (s : State) : Option State := do
  let (i, s) ← s.pullCntl
  let s ← s.compEntry s.pointers.bra
  let s := s.fprintf [.dwLabel s.labeli]
  let s ← { s with labeli := s.labeli + 1 }.pushCntl s.labeli
  some (s.fprintf [.label i])

/-- Text up to a delimiter, in `wordb`. -/
def wordbStr (s : State) : Option (Char × State) :=
  match s.infile.dropWhile isfblank with
  | [] => none
  | d :: infile =>
      let text := infile.takeWhile fun c => c ≠ d
      match infile.dropWhile fun c => c ≠ d with
      | [] => none
      | _ :: infile =>
          if text.length < 64 then
            let wordb := String.ofList (text.takeWhile fun c => c ≠ '\x00')
            some (d, { s with wordb, infile })
          else none

def dostring (s : State) : Option State := do
  let (d, s) ← s.wordbStr
  let s ← s.compEntry s.pointers.slit
  some (s.fprintf [.dw s.wordb.length, .ascii d s.wordb])

def docstring (s : State) : Option State := do
  let (d, s) ← s.wordbStr
  let s ← s.compEntry s.pointers.slit
  some (s.fprintf [.dw (s.wordb.length + 1), .asciz d s.wordb])

def dodovar (s : State) : Option State := do
  let (_, s) ← s.word
  let s ← s.mkentry
  let s ← s.compEntry s.pointers.dodoes
  let noop ← s.pointers.noop
  let (i, s) ← s.pullNumber
  some (s.fprintf [.dwLabel noop, .dw i])

def dorbrack (s : State) : Option State :=
  some { s with state := true }

def doallot (s : State) : Option State := do
  let (i, s) ← s.pullNumber
  if i < 0 then none else some (s.fprintf (List.replicate i.toNat (.db 0)))

/-- `F_IMM` is set in the last entry. -/
def doimm (s : State) : Option State := do
  let e ← s.dict.getLast?
  some { s with dict := s.dict.dropLast ++ [{ e with flags := e.flags ||| 0x80 }] }

def dolcom (s : State) : Option State :=
  some { s with infile := (s.infile.dropWhile fun c => c ≠ '\n' ∧ c.toNat ≠ 255).tail }

/-- A word that is none of the compiler's own: an entry or a literal. -/
def compile (beyond : ℕ → Entry) (s : State) : Option State :=
  match s.findentry beyond with
  | some e => s.compEntry (some e.ref)
  | none =>
      match strtol s.wordb.toList with
      | none => none
      | some x =>
          if s.state then do
            let s ← s.compEntry s.pointers.lit
            some (s.fprintf [.dw x])
          else s.pushNumber x

/-- The word in the word buffer is processed. -/
def process (beyond : ℕ → Entry) (s : State) : Option State :=
  if s.wordb = "p:" then s.doprim
  else if s.wordb = "a:" then some s.doasm
  else if s.wordb = ":" then s.docolon
  else if s.wordb = ";" then s.dosemi
  else if s.wordb = "if" then s.doif
  else if s.wordb = "then" then s.dothen
  else if s.wordb = "begin" then s.dobegin
  else if s.wordb = "again" then s.doagain
  else if s.wordb = "until" then s.dountil
  else if s.wordb = "while" then s.dowhile
  else if s.wordb = "repeat" then s.dorepeat
  else if s.wordb = "else" then s.doelse
  else if s.wordb = "$" then s.dostring
  else if s.wordb = "c$" then s.docstring
  else if s.wordb = "var" then s.dodovar
  else if s.wordb = "]" then s.dorbrack
  else if s.wordb = "allot" then s.doallot
  else if s.wordb = "for" then s.dodofor
  else if s.wordb = "next" then s.donext
  else if s.wordb = "imm" then s.doimm
  else if s.wordb = "#" then s.dolcom
  else s.compile beyond

/-- Once round the loop of `process_file`, which ends with the input or where a
step is undefined. -/
def processFile (beyond : ℕ → Entry) (s : State) : State ⊕ Option State :=
  match s.word with
  | none => .inr none
  | some (false, s) => .inr (some s)
  | some (true, s) => (s.process beyond).elim (.inr none) .inl

end State

end Fip.Bfc
