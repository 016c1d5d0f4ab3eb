import Fip.Core.Memory
import Fip.Bfc.Assemble

/-!
# Spiffy's own compiler

The compiler of `spiffy.fs`, which runs on the target: a word that is compiled
stores its code at `here`, and the immediate words keep the addresses of
branches on the data stack and patch them.  A colon definition is the list of
its words, as in the source.
-/

namespace Fip.Bfc

/-- What the compiler works with: the data stack, the memory, `cp` and the
variable `state`. -/
structure Spiffy where
  data : List Cell
  mem : ℕ → UInt8
  cp : Cell
  state : Cell

/-- A word that acts on that; it fails on an empty stack, and where a word it
looks for is not found. -/
abbrev Word := Spiffy → Option Spiffy

/-- The dictionary: where the header of a word is, the execution token and the
flags in a header, and what the word with an execution token does.  The headers
are not in the memory that is compiled to. -/
structure Dict where
  find : String → Option Cell
  xt : Cell → Cell
  flags : Cell → Cell
  exec : Cell → Word

namespace Spiffy

/-- A colon definition. -/
def colon (words : List Word) : Word :=
  fun s => words.foldlM (fun s word => word s) s

def number (n : Cell) : Word :=
  fun s => some { s with data := n :: s.data }

def swap : Word
  | ⟨a :: b :: data, mem, cp, state⟩ => some ⟨b :: a :: data, mem, cp, state⟩
  | _ => none

def plus : Word
  | ⟨a :: b :: data, mem, cp, state⟩ => some ⟨(a + b) :: data, mem, cp, state⟩
  | _ => none

/-- `!` -/
def store : Word
  | ⟨addr :: n :: data, mem, cp, state⟩ =>
      some ⟨data, Memory.wrapWrite 65536 mem addr.toNat (Bfc.word n), cp, state⟩
  | _ => none

/-- `c!` -/
def cstore : Word
  | ⟨addr :: n :: data, mem, cp, state⟩ =>
      some ⟨data, Memory.wrapWrite 65536 mem addr.toNat [.ofNat (n.toNat % 256)], cp, state⟩
  | _ => none

/-- `cp !` -/
def cpStore : Word
  | ⟨n :: data, mem, _, state⟩ => some ⟨data, mem, n, state⟩
  | _ => none

/-- `state !` -/
def stateStore : Word
  | ⟨n :: data, mem, cp, _⟩ => some ⟨data, mem, cp, n⟩
  | _ => none

def here : Word :=
  fun s => some { s with data := s.cp :: s.data }

/-- `c,` -/
def cComma : Word :=
  colon [here, cstore, here, number 1, plus, cpStore]

/-- `,` -/
def comma : Word :=
  colon [here, store, here, number 2, plus, cpStore]

def THEN : Word :=
  colon [here, swap, store]

/-- `ba,` -/
def baComma : Word :=
  colon [here, number 0, comma]

section

variable (dict : Dict)

/-- A string literal with the name of a word, and `find`. -/
def find (name : String) : Word :=
  fun s => (dict.find name).map fun header => { s with data := header :: s.data }

/-- `>xt @` -/
def fetchXt : Word
  | ⟨header :: data, mem, cp, state⟩ => some ⟨dict.xt header :: data, mem, cp, state⟩
  | _ => none

def compile : Word :=
  colon [number 0xbd, cComma, fetchXt dict, comma]

/-- `bra,` -/
def braComma : Word :=
  colon [find dict "bra", compile dict]

/-- `0bra,` -/
def zbraComma : Word :=
  colon [find dict "0bra", compile dict]

def IF : Word :=
  colon [zbraComma dict, baComma]

def AGAIN : Word :=
  colon [braComma dict, comma]

/-- The immediate words of the compiler. -/
def immediate : List (String × Word) :=
  [("if", colon [IF dict]),
    ("then", colon [THEN]),
    ("else", colon [braComma dict, baComma, swap, THEN]),
    ("begin", colon [here]),
    ("until", colon [zbraComma dict, comma]),
    ("again", colon [AGAIN dict]),
    ("while", colon [IF dict]),
    ("repeat", colon [swap, AGAIN dict, THEN]),
    ("for", colon [find dict "push", compile dict, here, find dict "dofor", compile dict,
      here, number 0, comma]),
    ("next", colon [swap, AGAIN dict, THEN]),
    (";", colon [number 0x39, cComma, number 0, stateStore])]

end

/-- A word of the input, as `quit` takes it: one that is looked up, or one that
`find` does not know and `>num` turns into a number. -/
inductive Token where
  | word (name : String)
  | number (n : Cell)

/-- Once round the loop of `quit`. -/
def quit (dict : Dict) : Token → Word
  | .word name => fun s =>
      (dict.find name).bind fun header =>
        if dict.flags header &&& 0x8000 ≠ 0 then dict.exec (dict.xt header) s
        else if s.state ≠ 0 then compile dict { s with data := header :: s.data }
        else dict.exec (dict.xt header) s
  | .number n => fun s =>
      if s.state ≠ 0 then
        colon [find dict "lit", compile dict, comma] { s with data := n :: s.data }
      else some { s with data := n :: s.data }

end Spiffy

end Fip.Bfc
