import Fip.Core.Machine
import Fip.Bfc.Threaded

/-!
# Colon definitions

A definition as it reads in the source: words one behind the other, which act on the
stacks, with `if`, `for` and `exit`.  Of the return stack it sees what it has put
there itself; below that is the address it returns to.
-/

namespace Fip.Bfc

/-- What a word comes to: the word behind it, or with `exit` the end of the
definition; nothing on an empty stack, and where an address is taken for a number. -/
abbrev Flow := Stacks → Option (Stacks ⊕ Stacks)

namespace Flow

/-- Words one behind the other. -/
def seq : List Flow → Flow
  | [], st => some (.inl st)
  | word :: words, st => (word st).bind fun
      | .inl st => seq words st
      | .inr st => some (.inr st)

def exit : Flow :=
  fun st => some (.inr st)

/-- `if`, `else` and `then`. -/
def ifElse (yes no : List Flow) : Flow
  | ⟨d :: data, ret⟩ => seq (if d = 0 then no else yes) ⟨data, ret⟩
  | _ => none

/-- What `dofor` does with the counter, and the body behind it. -/
def dofor (body : Flow) : Stacks → Stacks ⊕ Option (Stacks ⊕ Stacks)
  | ⟨data, counter :: ret⟩ =>
      if counter = 0 then .inr (some (.inl ⟨data, ret⟩))
      else match body ⟨data, (counter - 1) :: ret⟩ with
        | none => .inr none
        | some (.inl st) => .inl st
        | some (.inr st) => .inr (some (.inr st))
  | _ => .inr none

/-- `for` and `next`. -/
def forNext (fuel : ℕ) (body : List Flow) : Flow :=
  fun st => (push st).bind fun st => (Machine.run (dofor (seq body)) fuel st).join

/-- A definition returns, at its end or with `exit`, when its return address is on
top again. -/
def colon (words : List Flow) : Flow :=
  fun st => (seq words ⟨st.data, []⟩).bind fun last =>
    match last.elim id id with
    | ⟨data, []⟩ => some (.inl ⟨data, st.ret⟩)
    | _ => none

section

variable {word : Flow} {words yes no : List Flow} {st st' : Stacks}

@[simp]
theorem seq_nil (st : Stacks) : seq [] st = some (.inl st) := rfl

/-- A word that goes on. -/
theorem seq_cons (hword : word st = some (.inl st')) : seq (word :: words) st = seq words st' := by
  rw [seq, hword]
  rfl

theorem seq_exit (hword : word st = some (.inr st')) :
    seq (word :: words) st = some (.inr st') := by
  rw [seq, hword]
  rfl

theorem seq_none (hword : word st = none) : seq (word :: words) st = none := by
  rw [seq, hword]
  rfl

end

end Flow

end Fip.Bfc
