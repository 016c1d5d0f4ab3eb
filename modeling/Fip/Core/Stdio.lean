import Mathlib.Data.List.Basic
import Mathlib.Tactic.Common

/-!
# Output streams that fail

A file is opened for writing, texts are printed to it, and it is closed.  Each of
these calls may fail.  Where a print or the close fails, the end of what was printed
up to then may be missing in the file, be it in the buffer of the stream or on a full
disk.
-/

namespace Fip.Stdio

/-- The calls that fail: whether the file can be opened, and for each print, by its
number, and for the close how many characters are kept if it fails. -/
structure Faults where
  fopen : Bool
  fprintf : ℕ → Option ℕ
  fclose : Option ℕ

/-- An open stream: what it has taken, and the prints so far. -/
structure Stream where
  text : List Char
  calls : ℕ

/-- What is there after a call that may have failed. -/
def keep (fault : Option ℕ) (text : List Char) : List Char :=
  match fault with
  | none => text
  | some kept => text.take kept

/-- `fopen(name, "w")`. -/
def fopen (faults : Faults) : Option Stream :=
  if faults.fopen then none else some ⟨[], 0⟩

def fprintf (faults : Faults) (d : Stream) (text : String) : Stream :=
  ⟨keep (faults.fprintf d.calls) (d.text ++ text.toList), d.calls + 1⟩

/-- Prints one after the other, whether they succeed or not. -/
def fprintfs (faults : Faults) (d : Stream) (texts : List String) : Stream :=
  texts.foldl (fprintf faults) d

/-- The contents of the file after `fclose`. -/
def fclose (faults : Faults) (d : Stream) : List Char :=
  keep faults.fclose d.text

/-- Something fails, where so many texts are printed. -/
def Faults.Occur (faults : Faults) (prints : ℕ) : Prop :=
  faults.fopen = true ∨ (∃ call < prints, faults.fprintf call ≠ none) ∨ faults.fclose ≠ none

variable {faults : Faults} {d : Stream}

theorem fprintfs_append (front texts : List String) :
    fprintfs faults d (front ++ texts) = fprintfs faults (fprintfs faults d front) texts :=
  List.foldl_append

/-- Prints that succeed lose nothing. -/
theorem text_fprintfs {texts : List String}
    (hsucceed : ∀ call < d.calls + texts.length, faults.fprintf call = none) :
    (fprintfs faults d texts).text = d.text ++ texts.flatMap String.toList := by
  induction texts generalizing d with
  | nil => exact (List.append_nil d.text).symm
  | cons text texts ih =>
      have hfirst : (fprintf faults d text).text = d.text ++ text.toList := by
        have hnone := hsucceed d.calls (Nat.lt_add_of_pos_right (Nat.succ_pos texts.length))
        rw [fprintf, hnone]
        rfl
      have hcalls : (fprintf faults d text).calls = d.calls + 1 := rfl
      have hrest := ih (d := fprintf faults d text) (by
        intro call hcall
        apply hsucceed
        rw [hcalls] at hcall
        rw [List.length_cons]
        omega)
      rw [fprintfs, List.foldl_cons, ← fprintfs, hrest, hfirst, List.flatMap_cons,
        List.append_assoc]

/-- Where nothing fails, the file has all that was printed. -/
theorem fclose_fprintfs {texts : List String} (hnever : ¬ faults.Occur texts.length) :
    fopen faults = some ⟨[], 0⟩ ∧
      fclose faults (fprintfs faults ⟨[], 0⟩ texts) = texts.flatMap String.toList := by
  obtain ⟨hopen, hrest⟩ := not_or.mp hnever
  obtain ⟨hprint, hclose⟩ := not_or.mp hrest
  have hsucceed : ∀ call < 0 + texts.length, faults.fprintf call = none := by
    intro call hcall
    by_contra hfault
    exact hprint ⟨call, by omega, hfault⟩
  refine ⟨if_neg hopen, ?_⟩
  rw [fclose, not_not.mp hclose, keep, text_fprintfs hsucceed]
  rfl

end Fip.Stdio
