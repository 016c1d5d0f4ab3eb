import Fip.Snazzy.Select

/-!
# Where a walk goes on

A place in a tree is a widget with its later siblings, with the same for its mother
and for all that is above.  A walk that leaves out what is hidden has to go on with
the first child, or else with the first of the later siblings at all these levels.
Where the code goes is a function of the place too.
-/

namespace Fip.Snazzy

open Forest

variable {ι : Type*}

/-- A widget and its later siblings, then its mother and hers, up to the root. -/
abbrev Spine (ι : Type*) := List (ι × List ι)

inductive IsSpine (kids : ι → List ι) : Spine ι → Prop where
  | root {s : ι} (hroot : ∀ m, s ∉ kids m) : IsSpine kids [(s, [])]
  | child {m t : ι} {us before ts : List ι} {levels : Spine ι}
      (hspine : IsSpine kids ((m, us) :: levels)) (hkids : kids m = before ++ t :: ts) :
      IsSpine kids ((t, ts) :: (m, us) :: levels)

/-- The later siblings at all levels, the lowest level first. -/
def later (spine : Spine ι) : List ι := spine.flatMap Prod.snd

/-- The children that are not below something hidden. -/
def shownKids (kids : ι → List ι) (hidden : ι → Bool) (w : ι) : List ι :=
  if hidden w then [] else kids w

/-- The place of the next sibling. -/
def aside : Spine ι → Option (Spine ι)
  | (_, t :: ts) :: levels => some ((t, ts) :: levels)
  | _ => none

/-- What a walk does behind a widget: it reads through `NULL`, it ends, or it goes on
at a place, within the subtree that it was started for. -/
inductive Leap (ι : Type*) where
  | crash
  | stop
  | go (iobj : ι) (place : Spine ι)

/-- To the next sibling, or to the end if there is none. -/
def leapAside (iobj : ι) (spine : Spine ι) : Leap ι :=
  match aside spine with
  | none => .stop
  | some place => .go iobj place

variable [DecidableEq ι]

/-- Behind a hidden widget, by its children, its siblings and what is above. -/
def pastHidden (iobj w : ι) : List ι → List ι → Spine ι → Leap ι
  | _ :: _, ts, levels => leapAside iobj ((w, ts) :: levels)
  -- the siblings behind a leaf are left out with it
  | [], _ :: _, levels => leapAside iobj levels
  | [], [], (m, _ :: _) :: above => if m = iobj then .crash else leapAside iobj above
  | [], [], _ => .crash

/-- Behind one that is shown.  A box starts a walk over its children. -/
def pastShown (box : Bool) (iobj w : ι) : List ι → List ι → Spine ι → Leap ι
  | c :: cs, ts, levels => .go (if box then c else iobj) ((c, cs) :: (w, ts) :: levels)
  | [], t :: ts, levels => if box then .stop else .go iobj ((t, ts) :: levels)
  -- only one level is climbed
  | [], [], (m, us) :: above =>
      if box ∨ m = iobj then .stop else leapAside iobj ((m, us) :: above)
  | [], [], [] => .stop

/-- What a walk does behind the first widget of a place. -/
def onward (kids : ι → List ι) (hidden boxes : ι → Bool) (iobj : ι) : Spine ι → Leap ι
  | [] => .stop
  | (w, ts) :: levels =>
      if hidden w then pastHidden iobj w (kids w) ts levels
      else pastShown (boxes w) iobj w (kids w) ts levels

/-- Where the code goes from a widget. -/
def successor (heap : Heap ι) (hidden boxes : ι → Bool) (iobj : Option ι) (w : ι) :
    Option (Iter ι) :=
  if hidden w then nextsib heap ⟨advance heap iobj w, iobj⟩
  else if boxes w then some ⟨(heap w).child, (heap w).child⟩
  else some ⟨advance heap iobj w, iobj⟩

/-- An iterator follows a leap. -/
def Follows (kids : ι → List ι) : Leap ι → Option (Iter ι) → Prop
  | .crash, it => it = none
  | .stop, it => ∃ iobj, it = some ⟨none, iobj⟩
  | .go _ [], _ => False
  | .go iobj ((w, ts) :: levels), it =>
      it = some ⟨some w, some iobj⟩ ∧ IsSpine kids ((w, ts) :: levels)

section

omit [DecidableEq ι]

variable {kids : ι → List ι} {heap : Heap ι} {hidden : ι → Bool} {w t m : ι} {ts us : List ι}
  {levels spine place : Spine ι}

theorem later_cons : later ((w, ts) :: levels) = ts ++ later levels := List.flatMap_cons

theorem shownKids_sublist (w : ι) : (shownKids kids hidden w).Sublist (kids w) := by
  rw [shownKids]
  split
  · exact List.nil_sublist _
  · exact List.Sublist.refl _

theorem IsSpine.above (hspine : IsSpine kids ((w, ts) :: (m, us) :: levels)) :
    IsSpine kids ((m, us) :: levels) := by
  cases hspine with
  | child hspine _ => exact hspine

theorem IsSpine.aside (hspine : IsSpine kids spine) (haside : aside spine = some place) :
    IsSpine kids place := by
  cases hspine with
  | root => cases haside
  | @child m w us before ts levels hspine hkids =>
      cases ts with
      | nil => cases haside
      | cons t ts =>
          cases haside
          rw [List.append_cons] at hkids
          exact .child hspine hkids

theorem IsSpine.sib (hlinked : Linked heap kids) (hspine : IsSpine kids ((w, ts) :: levels)) :
    (heap w).sib = ts.head? := by
  cases hspine with
  | root hroot => exact (hlinked.free hroot).2
  | child _ hkids => exact (hlinked.packed hkids).2

theorem IsSpine.mom (hlinked : Linked heap kids) (hspine : IsSpine kids ((w, ts) :: levels)) :
    (heap w).mom = levels.head?.map Prod.fst := by
  cases hspine with
  | root hroot => exact (hlinked.free hroot).1
  | child _ hkids => exact (hlinked.packed hkids).1

/-- The sibling of a widget is where its place says. -/
theorem follows_aside (hlinked : Linked heap kids)
    (hspine : IsSpine kids ((w, ts) :: levels)) (iobj : ι) :
    Follows kids (leapAside iobj ((w, ts) :: levels)) (some ⟨(heap w).sib, some iobj⟩) := by
  rw [hspine.sib hlinked]
  cases ts with
  | nil => exact ⟨_, rfl⟩
  | cons t ts => exact ⟨rfl, hspine.aside rfl⟩

end

section

variable {kids : ι → List ι} {heap : Heap ι} {hidden boxes : ι → Bool} {iobj iobj' w w' m o : ι}
  {ts ts' : List ι} {levels levels' : Spine ι}

theorem nextsib_of_ne (hmom : (heap o).mom = some m) (hne : o ≠ iobj) :
    nextsib heap ⟨some o, some iobj⟩ = some ⟨(heap m).sib, some iobj⟩ := by
  have hobj : ¬ (some o = some iobj) := fun heq => hne (Option.some.inj heq)
  rw [nextsib, if_neg hobj, Option.map_some, hmom]

theorem nextsib_none : nextsib heap ⟨none, some iobj⟩ = none := rfl

/-- Where `getnext` comes to from a leaf. -/
def leafNext (iobj : ι) : List ι → Spine ι → Option ι
  | t :: _, _ => some t
  | [], (m, us) :: _ => if m = iobj then none else us.head?
  | [], [] => none

theorem advance_spine (hlinked : Linked heap kids) (hspine : IsSpine kids ((w, ts) :: levels))
    (hleaf : kids w = []) : advance heap (some iobj) w = leafNext iobj ts levels := by
  have hchild := hlinked.child w
  rw [hleaf, List.head?_nil] at hchild
  rw [advance, hchild, hspine.sib hlinked, hspine.mom hlinked]
  cases ts with
  | cons t ts => rfl
  | nil =>
      cases levels with
      | nil => rfl
      | cons level levels =>
          obtain ⟨m, us⟩ := level
          dsimp only [List.head?_nil, List.head?_cons, Option.map_some]
          rw [hspine.above.sib hlinked, leafNext]
          simp only [Option.some.injEq]

theorem follows_pastHidden (hlinked : Linked heap kids)
    (hspine : IsSpine kids ((w, ts) :: levels))
    (hnot : ∀ r ∈ kids w ++ later ((w, ts) :: levels), r ≠ iobj) :
    Follows kids (pastHidden iobj w (kids w) ts levels)
      (nextsib heap ⟨advance heap (some iobj) w, some iobj⟩) := by
  rw [later_cons, List.forall_mem_append, List.forall_mem_append] at hnot
  obtain ⟨hnotKids, hnotSibs, hnotLater⟩ := hnot
  cases hkids : kids w with
  | cons c cs =>
      have hc : c ∈ kids w := hkids ▸ List.mem_cons_self
      rw [advance_child hlinked hkids, nextsib_of_ne (hlinked.mom_of_mem hc) (hnotKids c hc)]
      exact follows_aside hlinked hspine iobj
  | nil =>
      rw [advance_spine hlinked hspine hkids]
      cases ts with
      | cons t ts =>
          have hsib : IsSpine kids ((t, ts) :: levels) := hspine.aside rfl
          cases levels with
          | nil => cases hspine
          | cons level levels =>
              obtain ⟨m, us⟩ := level
              rw [leafNext, nextsib_of_ne (hsib.mom hlinked) (hnotSibs t List.mem_cons_self)]
              exact follows_aside hlinked hspine.above iobj
      | nil =>
          cases levels with
          | nil => exact nextsib_none
          | cons level levels =>
              obtain ⟨m, us⟩ := level
              rw [leafNext]
              cases us with
              | nil =>
                  rw [List.head?_nil, ite_self]
                  exact nextsib_none
              | cons u us =>
                  have hsib : IsSpine kids ((u, us) :: levels) := hspine.above.aside rfl
                  rw [pastHidden]
                  by_cases hm : m = iobj
                  · rw [if_pos hm, if_pos hm]
                    exact nextsib_none
                  · rw [if_neg hm, if_neg hm, List.head?_cons]
                    cases levels with
                    | nil => cases hspine.above
                    | cons level levels =>
                        obtain ⟨g, vs⟩ := level
                        have hu : u ∈ later ((m, u :: us) :: (g, vs) :: levels) :=
                          List.mem_append_left _ List.mem_cons_self
                        rw [nextsib_of_ne (hsib.mom hlinked) (hnotLater u hu)]
                        exact follows_aside hlinked hspine.above.above iobj

theorem follows_pastShown (hlinked : Linked heap kids)
    (hspine : IsSpine kids ((w, ts) :: levels)) (box : Bool) :
    Follows kids (pastShown box iobj w (kids w) ts levels)
      (if box then some ⟨(heap w).child, (heap w).child⟩
        else some ⟨advance heap (some iobj) w, some iobj⟩) := by
  have hchild := hlinked.child w
  cases hkids : kids w with
  | cons c cs =>
      rw [hkids, List.head?_cons] at hchild
      have hfront : kids w = [] ++ c :: cs := hkids
      have hplace : IsSpine kids ((c, cs) :: (w, ts) :: levels) := .child hspine hfront
      rw [hchild, advance_child hlinked hkids]
      cases box with
      | false => exact ⟨rfl, hplace⟩
      | true => exact ⟨rfl, hplace⟩
  | nil =>
      rw [hkids, List.head?_nil] at hchild
      rw [hchild, advance_spine hlinked hspine hkids]
      cases ts with
      | cons t ts =>
          cases box with
          | false => exact ⟨rfl, hspine.aside rfl⟩
          | true => exact ⟨none, rfl⟩
      | nil =>
          cases levels with
          | nil =>
              cases box with
              | false => exact ⟨some iobj, rfl⟩
              | true => exact ⟨none, rfl⟩
          | cons level levels =>
              obtain ⟨m, us⟩ := level
              rw [pastShown]
              cases box with
              | true =>
                  rw [if_pos (Or.inl rfl)]
                  exact ⟨none, rfl⟩
              | false =>
                  have haside := follows_aside hlinked hspine.above iobj
                  rw [hspine.above.sib hlinked] at haside
                  rw [leafNext, if_neg Bool.false_ne_true]
                  by_cases hm : m = iobj
                  · rw [if_pos (Or.inr hm), if_pos hm]
                    exact ⟨some iobj, rfl⟩
                  · rw [if_neg hm, if_neg fun heq => heq.elim Bool.false_ne_true hm]
                    exact haside

/-- The code goes where its place says. -/
theorem follows_onward (hlinked : Linked heap kids)
    (hspine : IsSpine kids ((w, ts) :: levels))
    (hnot : ∀ r ∈ kids w ++ later ((w, ts) :: levels), r ≠ iobj) :
    Follows kids (onward kids hidden boxes iobj ((w, ts) :: levels))
      (successor heap hidden boxes (some iobj) w) := by
  rw [onward, successor]
  split
  · exact follows_pastHidden hlinked hspine hnot
  · exact follows_pastShown hlinked hspine (boxes w)

/-! ## What is left out -/

omit [DecidableEq ι] in
theorem leapAside_go {spine place : Spine ι} (hgo : leapAside iobj spine = .go iobj' place) :
    iobj' = iobj ∧
      ∃ v t us above, spine = (v, t :: us) :: above ∧ place = (t, us) :: above := by
  rcases spine with _ | ⟨⟨v, _ | ⟨t, us⟩⟩, above⟩
  · cases hgo
  · cases hgo
  · cases hgo
    exact ⟨rfl, v, t, us, above, rfl, rfl⟩

omit [DecidableEq ι] in
/-- Whether a walk goes on within its subtree or starts one for where it comes to,
there are only widgets that it should come to. -/
theorem goes_aside {spine place : Spine ι} {roots : List ι}
    (hgo : leapAside iobj spine = .go iobj' place) (hroots : later spine <:+ roots) :
    ∃ t us above, place = (t, us) :: above ∧ (iobj' = iobj ∨ iobj' = t) ∧
      (t :: later place) <:+ roots := by
  obtain ⟨hiobj, v, t, us, above, rfl, rfl⟩ := leapAside_go hgo
  exact ⟨t, us, above, rfl, .inl hiobj, hroots⟩

omit [DecidableEq ι] in
theorem later_suffix {spine place : Spine ι} (hsuffix : spine <:+ place) :
    later spine <:+ later place := by
  obtain ⟨front, rfl⟩ := hsuffix
  rw [later, later, List.flatMap_append]
  exact List.suffix_append _ _

/-- A walk goes on at the first child, or aside at a level of its place. -/
theorem onward_go_cases {place : Spine ι}
    (hgo : onward kids hidden boxes iobj ((w, ts) :: levels) = .go iobj' place) :
    (∃ c cs, hidden w = false ∧ kids w = c :: cs ∧ iobj' = (if boxes w then c else iobj) ∧
      place = (c, cs) :: (w, ts) :: levels) ∨
    ∃ spine, spine <:+ (w, ts) :: levels ∧ leapAside iobj spine = .go iobj' place := by
  rw [onward] at hgo
  by_cases hhidden : hidden w
  · rw [if_pos hhidden] at hgo
    cases hkids : kids w with
    | cons c cs =>
        rw [hkids] at hgo
        exact .inr ⟨_, List.suffix_refl _, hgo⟩
    | nil =>
        rw [hkids] at hgo
        cases ts with
        | cons t ts => exact .inr ⟨_, List.suffix_cons _ _, hgo⟩
        | nil =>
            rcases levels with _ | ⟨⟨m, _ | ⟨u, us⟩⟩, above⟩
            · cases hgo
            · cases hgo
            · rw [pastHidden] at hgo
              split at hgo
              · cases hgo
              · exact .inr ⟨above, (List.suffix_cons _ _).trans (List.suffix_cons _ _), hgo⟩
  · rw [if_neg hhidden] at hgo
    cases hkids : kids w with
    | cons c cs =>
        rw [hkids] at hgo
        cases hgo
        exact .inl ⟨c, cs, Bool.eq_false_iff.mpr hhidden, rfl, rfl, rfl⟩
    | nil =>
        rw [hkids] at hgo
        cases ts with
        | cons t ts =>
            rw [pastShown] at hgo
            split at hgo
            · cases hgo
            · exact .inr ⟨_, List.suffix_refl _, hgo⟩
        | nil =>
            cases levels with
            | nil => cases hgo
            | cons level above =>
                rw [pastShown] at hgo
                split at hgo
                · cases hgo
                · exact .inr ⟨_, List.suffix_cons _ _, hgo⟩

/-- A walk goes on at a widget that it should come to, and what it leaves out comes in
front of that one. -/
theorem onward_go {place : Spine ι}
    (hgo : onward kids hidden boxes iobj ((w, ts) :: levels) = .go iobj' place) :
    ∃ t us above, place = (t, us) :: above ∧ (iobj' = iobj ∨ iobj' = t) ∧
      (t :: later place) <:+ (shownKids kids hidden w ++ later ((w, ts) :: levels)) := by
  rcases onward_go_cases hgo with ⟨c, cs, hshown, hkids, rfl, rfl⟩ | ⟨spine, hsuffix, hgo⟩
  · refine ⟨c, cs, _, rfl, ?_, ?_⟩
    · split
      · exact .inr rfl
      · exact .inl rfl
    · rw [shownKids, hshown, if_neg Bool.false_ne_true, hkids]
      exact List.suffix_refl _
  · exact goes_aside hgo ((later_suffix hsuffix).trans (List.suffix_append _ _))

end

end Fip.Snazzy
