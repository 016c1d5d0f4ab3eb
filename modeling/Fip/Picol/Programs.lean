import Fip.Core.Structured
import Fip.Picol.Numbers
import Fip.Picol.Quoting
import Mathlib.Logic.Function.Basic

/-!
# Structured programs as scripts

Programs that compute with numbers in variables, with choices and loops, are written as
scripts the way a user writes them: expressions in brackets, the parts of `if` and `while`
in braces, and a command to the line.
-/

namespace Fip.Picol

open Nesting Structured

/-- The names of variables that the parser reads behind a dollar sign. -/
structure Name where
  text : List Char
  ne_nil : text ≠ []
  valid : ∀ c ∈ text, isName c = true
  deriving DecidableEq

/-- The commands of `picolCommandMath`. -/
inductive Op
  | add | sub | mul | div | gt | ge | lt | le | eq | ne
  deriving DecidableEq

def Op.name : Op → String
  | .add => "+"
  | .sub => "-"
  | .mul => "*"
  | .div => "/"
  | .gt => ">"
  | .ge => ">="
  | .lt => "<"
  | .le => "<="
  | .eq => "=="
  | .ne => "!="

/-- Why a program fails. -/
inductive Error
  | noVar (x : Name)
  | divisionByZero
  deriving DecidableEq

def Error.text : Error → List Char
  | .noVar x => errbuf ("No such variable '".toList ++ x.text ++ "'".toList)
  | .divisionByZero => "Division by zero".toList

/-- Arithmetic modulo 2^32; comparisons are of signed numbers. -/
def Op.apply (a b : Long) : Op → Except Error Long
  | .add => .ok (a + b)
  | .sub => .ok (a - b)
  | .mul => .ok (a * b)
  | .div => if b = 0 then .error .divisionByZero else .ok (a.sdiv b)
  | .gt => .ok (ofBool (b.slt a))
  | .ge => .ok (ofBool (b.sle a))
  | .lt => .ok (ofBool (a.slt b))
  | .le => .ok (ofBool (a.sle b))
  | .eq => .ok (ofBool (a == b))
  | .ne => .ok (ofBool (a != b))

inductive Expr
  | lit (v : Long)
  | var (x : Name)
  | op (o : Op) (l r : Expr)

/-- The values of the variables that are set, and what has been printed. -/
structure Env where
  vars : Name → Option Long
  out : List Char

def Expr.eval (s : Env) : Expr → Except Error Long
  | .lit v => .ok v
  | .var x =>
      match s.vars x with
      | none => .error (.noVar x)
      | some v => .ok v
  | .op o l r => do
      let a ← l.eval s
      let b ← r.eval s
      o.apply a b

inductive Action
  | set (x : Name) (e : Expr)
  | puts (e : Expr)

/-- A test is a command whose result is compared with zero. -/
structure Test where
  o : Op
  l : Expr
  r : Expr

def Test.eval (s : Env) (b : Test) : Except Error Long := (Expr.op b.o b.l b.r).eval s

def meaning : Meaning Action Test Env Error where
  act
    | .set x e, s => do
        let v ← e.eval s
        return { s with vars := Function.update s.vars x (some v) }
    | .puts e, s => do
        let v ← e.eval s
        return { s with out := s.out ++ showLong v ++ ['\n'] }
  test b s := do
    let v ← b.eval s
    return decide (v ≠ 0)

def Expr.text : Expr → List Char
  | .lit v => showLong v
  | .var x => '$' :: x.text
  | .op o l r => '[' :: (line [o.name.toList, l.text, r.text] ++ [']'])

def Action.text : Action → List Char
  | .set x e => line ["set".toList, x.text, e.text]
  | .puts e => line ["puts".toList, e.text]

def Test.text (b : Test) : List Char := line [b.o.name.toList, b.l.text, b.r.text]

/-- The script of a program. -/
def script : Prog Action Test → List Char
  | .act a => a.text
  | .seq p q => script p ++ '\n' :: script q
  | .when b p => line ["if".toList, braced b.text, braced (script p)]
  | .cond b p q =>
      line ["if".toList, braced b.text, braced (script p), "else".toList, braced (script q)]
  | .loop b p => line ["while".toList, braced b.text, braced (script p)]
  | .brk => "break".toList
  | .cont => "continue".toList

section Texts

variable {c : Char} {w r : List Char} {words : List (List Char)} {opening closing : Char}
  {other : Char → Bool}

/-- Neither brackets nor braces, nor what a script has a special meaning for. -/
theorem ordinary_of_isName (hc : isName c = true) :
    isPlain c = true ∧ c ∉ ['[', ']', '{', '}', '\\'] := by
  constructor
  · by_contra hplain
    simp only [isPlain, isBlank, Bool.not_eq_true', Bool.not_eq_false, Bool.or_eq_true,
      beq_iff_eq] at hplain
    rcases hplain with ((((((((((rfl | rfl) | rfl) | rfl) | rfl) | rfl) | rfl) | rfl) | rfl) |
      rfl) | rfl) <;> cases hc
  · intro hmem
    simp only [List.mem_cons, List.not_mem_nil, or_false] at hmem
    rcases hmem with rfl | rfl | rfl | rfl | rfl <;> cases hc

theorem ordinary_of_isNumeral (hc : isNumeral c = true) :
    isPlain c = true ∧ c ∉ ['[', ']', '{', '}', '\\'] := by
  rw [isNumeral, Bool.or_eq_true, beq_iff_eq] at hc
  rcases hc with hdigit | rfl
  · exact ordinary_of_isName (by simp [isName, Char.isAlphanum, hdigit])
  · decide

/-- A word of ordinary characters is balanced, whichever brackets are counted. -/
theorem bracketed_of_ordinary (hw : ∀ c ∈ w, c ∉ ['[', ']', '{', '}', '\\']) : Bracketed w := by
  refine balanced_of_forall fun c hc => ?_
  have hordinary := hw c hc
  simp only [List.mem_cons, List.not_mem_nil, or_false, not_or] at hordinary
  simp [hordinary]

theorem braced_of_ordinary (hw : ∀ c ∈ w, c ∉ ['[', ']', '{', '}', '\\']) : Braced w := by
  refine balanced_of_forall fun c hc => ?_
  have hordinary := hw c hc
  simp only [List.mem_cons, List.not_mem_nil, or_false, not_or] at hordinary
  simp [hordinary]

theorem bracketed_line (hwords : ∀ w ∈ words, Bracketed w) : Bracketed (line words) := by
  induction words with
  | nil => rfl
  | cons w words ih =>
      obtain ⟨hw, hwords⟩ := List.forall_mem_cons.mp hwords
      cases words with
      | nil => rwa [line_singleton]
      | cons next words =>
          rw [line_cons]
          exact hw.append ((ih hwords).cons (by decide) (by decide) (by decide))

theorem braced_line (hwords : ∀ w ∈ words, Braced w) : Braced (line words) := by
  induction words with
  | nil => rfl
  | cons w words ih =>
      obtain ⟨hw, hwords⟩ := List.forall_mem_cons.mp hwords
      cases words with
      | nil => rwa [line_singleton]
      | cons next words =>
          rw [line_cons]
          exact hw.append ((ih hwords).cons (by decide) (by decide) (by decide))

theorem braced_braced (hw : Braced w) : Braced (braced w) := hw.enclose (by decide)

theorem ordinary_op (o : Op) : ∀ c ∈ o.name.toList, isPlain c = true ∧
    c ∉ ['[', ']', '{', '}', '\\'] := by
  intro c hc
  have hall : ∀ o : Op, o.name.toList.all (fun c =>
      decide (isPlain c = true ∧ c ∉ ['[', ']', '{', '}', '\\'])) = true := by
    intro o
    cases o <;> decide
  exact of_decide_eq_true (List.all_eq_true.mp (hall o) c hc)

theorem bracketed_text (e : Expr) : Bracketed e.text := by
  induction e with
  | lit v =>
      exact bracketed_of_ordinary fun c hc => (ordinary_of_isNumeral (isNumeral_of_mem hc)).2
  | var x =>
      have hx : Bracketed x.text :=
        bracketed_of_ordinary fun c hc => (ordinary_of_isName (x.valid c hc)).2
      exact hx.cons (by decide) (by decide) (by decide)
  | op o l r hl hr =>
      have ho : Bracketed o.name.toList :=
        bracketed_of_ordinary fun c hc => (ordinary_op o c hc).2
      exact (bracketed_line (by simp [ho, hl, hr])).enclose (by decide)

theorem braced_text (e : Expr) : Braced e.text := by
  induction e with
  | lit v => exact braced_of_ordinary fun c hc => (ordinary_of_isNumeral (isNumeral_of_mem hc)).2
  | var x =>
      have hx : Braced x.text :=
        braced_of_ordinary fun c hc => (ordinary_of_isName (x.valid c hc)).2
      exact hx.cons (by decide) (by decide) (by decide)
  | op o l r hl hr =>
      have ho : Braced o.name.toList := braced_of_ordinary fun c hc => (ordinary_op o c hc).2
      have hinner : Braced (line [o.name.toList, l.text, r.text]) :=
        braced_line (by simp [ho, hl, hr])
      have hend : Braced [']'] := by decide
      exact (hinner.append hend).cons (by decide) (by decide) (by decide)

theorem braced_test (b : Test) : Braced b.text := by
  have ho : Braced b.o.name.toList := braced_of_ordinary fun c hc => (ordinary_op b.o c hc).2
  exact braced_line (by simp [ho, braced_text])

theorem braced_action (a : Action) : Braced a.text := by
  cases a with
  | set x e =>
      have hx : Braced x.text :=
        braced_of_ordinary fun c hc => (ordinary_of_isName (x.valid c hc)).2
      have hset : Braced "set".toList := by decide
      apply braced_line
      simp only [List.forall_mem_cons]
      exact ⟨hset, hx, braced_text e, List.forall_mem_nil _⟩
  | puts e =>
      have hputs : Braced "puts".toList := by decide
      exact braced_line (by simp only [List.forall_mem_cons]; exact ⟨hputs, braced_text e, by simp⟩)

/-- The braces of a script are balanced, so a script can be a part of another. -/
theorem braced_script (p : Prog Action Test) : Braced (script p) := by
  have hif : Braced "if".toList := by decide
  have helse : Braced "else".toList := by decide
  have hwhile : Braced "while".toList := by decide
  induction p with
  | act a => exact braced_action a
  | seq p q hp hq => exact hp.append (hq.cons (by decide) (by decide) (by decide))
  | when b p hp =>
      refine braced_line ?_
      simp only [List.forall_mem_cons]
      exact ⟨hif, braced_braced (braced_test b), braced_braced hp, by simp⟩
  | cond b p q hp hq =>
      refine braced_line ?_
      simp only [List.forall_mem_cons]
      exact ⟨hif, braced_braced (braced_test b), braced_braced hp, helse, braced_braced hq, by simp⟩
  | loop b p hp =>
      refine braced_line ?_
      simp only [List.forall_mem_cons]
      exact ⟨hwhile, braced_braced (braced_test b), braced_braced hp, by simp⟩
  | brk => decide
  | cont => decide

end Texts

end Fip.Picol
