import Fip.Snazzy.Iterator
import Fip.Core.Machine

/-!
# The walks of `select_first` and `display_widgets`

Both walk a tree with `getnext` and call `nextsib` for a hidden widget.  By then
`getnext` has gone on from it, so that `nextsib` starts where that came to.  There is
one iterator for all walks, and `box_draw` starts a walk of its own.
-/

namespace Fip.Snazzy

variable {ι : Type*} [DecidableEq ι]

/-- The bits of `stat` that the walks read and write. -/
@[ext]
structure Stat where
  focused : Bool
  focusable : Bool
  dirty : Bool
  hidden : Bool

/-- What `draw` points to: nothing, `box_draw`, or a function of the driver, which
leaves the iterator and the flags alone. -/
inductive Draw where
  | null
  | box
  | driver
deriving DecidableEq

/-- Get next sibling.  There is no result where `obj->mom` is read through `NULL`. -/
def nextsib (heap : Heap ι) (it : Iter ι) : Option (Iter ι) :=
  if it.obj = it.iobj then some { it with obj := none }
  else
    it.obj.map fun obj =>
      match (heap obj).mom with
      | some mom => { it with obj := (heap mom).sib }
      | none => it

/-- The entries of `list`. -/
def listz : ℕ := 64

/-- A round of the loop of `select_first`, on the iterator and what is in `list`.
There is no result where a pointer or the index is out of bounds. -/
def selectRound (heap : Heap ι) (stat : ι → Stat) :
    Iter ι × List ι → (Iter ι × List ι) ⊕ Option (List ι)
  | (it, list) =>
      match getnext heap it with
      | (none, _) => .inr (some list)
      | (some i, it) =>
          if (stat i).hidden then
            match nextsib heap it with
            | none => .inr none
            | some it => .inl (it, list)
          else if (stat i).focusable then
            if list.length < listz then .inl (it, list ++ [i]) else .inr none
          else .inl (it, list)

/-- Build a list of selectable widgets and select its first entry.  Where nothing is
selectable that is what the list had there before, which is never `NULL`:
`new_widget` puts each widget into it. -/
def selectFirst (heap : Heap ι) (stat : ι → Stat) (first : ι) (fuel : ℕ) (s : ι) :
    Option (Option (List ι × (ι → Stat))) :=
  (Machine.run (selectRound heap stat) fuel (istart s, [])).map fun final =>
    final.map fun list =>
      let cur := list.headD first
      (list, Function.update stat cur { stat cur with focused := true, dirty := true })

/-- What `display_widgets` works on.  The last field has the widgets whose `draw` was
called, in the order of the calls. -/
structure Screen (ι : Type*) where
  it : Iter ι
  stat : ι → Stat
  drawn : List ι

/-- The loop of `display_widgets`, for so many rounds.  `box_draw` calls it for the
first child. -/
def displayLoop (heap : Heap ι) (draw : ι → Draw) : ℕ → Screen ι → Option (Option (Screen ι))
  | 0, _ => none
  | fuel + 1, screen =>
      match getnext heap screen.it with
      | (none, it) => some (some { screen with it := it })
      | (some i, it) =>
          if (screen.stat i).hidden then
            match nextsib heap it with
            | none => some none
            | some it => displayLoop heap draw fuel { screen with it := it }
          else if (screen.stat i).dirty then
            let stat := Function.update screen.stat i { screen.stat i with dirty := false }
            match draw i with
            | .null => displayLoop heap draw fuel ⟨it, stat, screen.drawn⟩
            | .driver => displayLoop heap draw fuel ⟨it, stat, screen.drawn ++ [i]⟩
            | .box =>
                match displayLoop heap draw fuel
                  ⟨⟨(heap i).child, (heap i).child⟩, stat, screen.drawn ++ [i]⟩ with
                | some (some screen) => displayLoop heap draw fuel screen
                | stopped => stopped
          else displayLoop heap draw fuel { screen with it := it }

def displayWidgets (heap : Heap ι) (draw : ι → Draw) (stat : ι → Stat) (fuel : ℕ) (s : ι) :
    Option (Option (Screen ι)) :=
  displayLoop heap draw fuel ⟨istart s, stat, []⟩

section

variable {heap : Heap ι} {draw : ι → Draw} {fuel more : ℕ} {screen : Screen ι}
  {final : Option (Screen ι)}

/-- More rounds do not change a result. -/
theorem displayLoop_mono (hloop : displayLoop heap draw fuel screen = some final)
    (hle : fuel ≤ more) : displayLoop heap draw more screen = some final := by
  induction fuel generalizing more screen final with
  | zero => cases hloop
  | succ fuel ih =>
      obtain ⟨more, rfl⟩ := Nat.exists_eq_add_of_le' hle
      have hless : fuel ≤ more + fuel := Nat.le_add_left _ _
      rw [← Nat.add_assoc, displayLoop]
      rw [displayLoop] at hloop
      rcases hnext : getnext heap screen.it with ⟨_ | i, it⟩
      · rw [hnext] at hloop
        exact hloop
      · rw [hnext] at hloop
        dsimp only at hloop ⊢
        split_ifs at hloop ⊢ with hhidden hdirty
        · cases hsib : nextsib heap it with
          | none =>
              rw [hsib] at hloop
              exact hloop
          | some it =>
              rw [hsib] at hloop
              exact ih hloop hless
        · cases hdraw : draw i with
          | null =>
              rw [hdraw] at hloop
              exact ih hloop hless
          | driver =>
              rw [hdraw] at hloop
              exact ih hloop hless
          | box =>
              rw [hdraw] at hloop
              dsimp only at hloop ⊢
              rcases hbox : displayLoop heap draw fuel _ with _ | _ | inner
              · rw [hbox] at hloop
                cases hloop
              · rw [hbox] at hloop
                rw [ih hbox hless]
                exact hloop
              · rw [hbox] at hloop
                rw [ih hbox hless]
                exact ih hloop hless
        · exact ih hloop hless

/-- Any two results are the same. -/
theorem displayLoop_unique {final' : Option (Screen ι)}
    (hloop : displayLoop heap draw fuel screen = some final)
    (hloop' : displayLoop heap draw more screen = some final') : final = final' := by
  have hleft := displayLoop_mono hloop (Nat.le_max_left fuel more)
  have hright := displayLoop_mono hloop' (Nat.le_max_right fuel more)
  exact Option.some.inj (hleft.symm.trans hright)

end

end Fip.Snazzy
