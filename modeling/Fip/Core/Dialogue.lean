import Mathlib.Tactic.Common

/-!
# Programs in conversation

A program that reads a number of cells, writes cells, and at its end gives a
result.  `run` serves a line for ever: whenever the program is done, its body
starts again with the result, and the cells of the input come one by one.
-/

namespace Fip

inductive Dialogue (β α : Type*)
  | done (result : α)
  | write (cells : List β) (next : Dialogue β α)
  | read (count : ℕ) (next : List β → Dialogue β α)

namespace Dialogue

variable {β α : Type*}

/-- Up to the next read: what is written, and where the program waits. -/
def settle : Dialogue β α → List β × Dialogue β α
  | done result => ([], done result)
  | write cells next => (cells ++ (settle next).1, (settle next).2)
  | read 0 next => settle (next [])
  | read (count + 1) next => ([], read (count + 1) next)

@[simp]
theorem settle_done (result : α) :
    (done result : Dialogue β α).settle = ([], done result) := rfl

@[simp]
theorem settle_write (cells : List β) (next : Dialogue β α) :
    (write cells next).settle = (cells ++ next.settle.1, next.settle.2) := rfl

/-- One cell for a program that waits for it. -/
def give (cell : β) : Dialogue β α → List β × Dialogue β α
  | read (count + 1) next => settle (read count fun cells => next (cell :: cells))
  | other => ([], other)

/-- One cell; a program that is done starts again. -/
def hear (body : α → Dialogue β α) (cell : β) : Dialogue β α → List β × Dialogue β α
  | done result =>
      ((settle (body result)).1 ++ (give cell (settle (body result)).2).1,
        (give cell (settle (body result)).2).2)
  | waiting => give cell waiting

def run (body : α → Dialogue β α) : Dialogue β α → List β → List β × Dialogue β α
  | program, [] => ([], program)
  | program, cell :: cells =>
      ((hear body cell program).1 ++ (run body (hear body cell program).2 cells).1,
        (run body (hear body cell program).2 cells).2)

/-- The result of a program that is done. -/
def result? : Dialogue β α → Option α
  | done result => some result
  | _ => none

variable (body : α → Dialogue β α)

@[simp]
theorem run_nil (program : Dialogue β α) : run body program [] = ([], program) := rfl

theorem run_append (program : Dialogue β α) (front back : List β) :
    run body program (front ++ back) =
      ((run body program front).1 ++ (run body (run body program front).2 back).1,
        (run body (run body program front).2 back).2) := by
  induction front generalizing program with
  | nil => rfl
  | cons cell front ih =>
      rw [List.cons_append, run, run, ih]
      simp only [List.append_assoc]

/-- A read that gets what it waits for goes on with it. -/
theorem run_read {count : ℕ} (next : List β → Dialogue β α) {cells : List β}
    (hlength : cells.length = count + 1) :
    run body (read (count + 1) next) cells = settle (next cells) := by
  induction count generalizing next cells with
  | zero =>
      obtain ⟨cell, rfl⟩ := List.length_eq_one_iff.mp hlength
      rw [run, run_nil]
      simp only [List.append_nil]
      rfl
  | succ count ih =>
      obtain ⟨cell, cells, rfl⟩ := List.exists_cons_of_length_eq_add_one hlength
      have hrest : cells.length = count + 1 := Nat.succ.inj hlength
      rw [run]
      exact ih (fun cells => next (cell :: cells)) hrest

/-- A body that begins with a read starts again without a word. -/
theorem run_done {result : α} {count : ℕ} {next : List β → Dialogue β α}
    (hbody : body result = read (count + 1) next) {cells : List β} (hcells : cells ≠ []) :
    run body (done result) cells = run body (read (count + 1) next) cells := by
  cases cells with
  | nil => exact absurd rfl hcells
  | cons cell cells =>
      rw [run, run, hear, hbody]
      rfl

/-- Such a body reads its front and goes on with the rest. -/
theorem run_done_append {result : α} {count : ℕ} {next : List β → Dialogue β α}
    (hbody : body result = read (count + 1) next) {front : List β}
    (hlength : front.length = count + 1) (back : List β) :
    run body (done result) (front ++ back) =
      ((settle (next front)).1 ++ (run body (settle (next front)).2 back).1,
        (run body (settle (next front)).2 back).2) := by
  have hfront : front ≠ [] := List.ne_nil_of_length_eq_add_one hlength
  rw [run_append, run_done body hbody hfront, run_read body next hlength]

end Dialogue

end Fip
