import Fip.Snazzy.Spine

/-!
# Hiding a widget

A walk comes to the widgets that are not below something hidden in depth-first order,
but it leaves some of them out.  It does its work where those that it should do
something with are not among these.
-/

namespace Fip.Snazzy

open Forest

variable {ι : Type*} [DecidableEq ι]

/-- Neither the widget nor one above it is hidden. -/
def Shown (kids : ι → List ι) (hidden : ι → Bool) (x : ι) : Prop :=
  ∀ a, Below kids a x → hidden a = false

/-- In the list are the widgets of the tree that are wanted and shown, in depth-first
order. -/
structure Lists (kids : ι → List ι) (hidden wanted : ι → Bool) (s : ι) (list : List ι) :
    Prop where
  preorder : ∃ nodes, Preorder kids [s] nodes ∧ list.Sublist nodes
  mem_iff : ∀ x, x ∈ list ↔ Below kids s x ∧ Shown kids hidden x ∧ wanted x

/-- What is below these and not below something hidden. -/
def Reaches (kids : ι → List ι) (hidden : ι → Bool) (roots : List ι) (x : ι) : Prop :=
  ∃ r ∈ roots, Below (shownKids kids hidden) r x

/-- What should come behind the first widget of a place. -/
def rootsBehind (kids : ι → List ι) (hidden : ι → Bool) : Spine ι → List ι
  | [] => []
  | (w, ts) :: levels => shownKids kids hidden w ++ later ((w, ts) :: levels)

/-- What should come from the first widget of a place on. -/
def rootsFrom : Spine ι → List ι
  | [] => []
  | (w, ts) :: levels => w :: later ((w, ts) :: levels)

/-- From here on a walk leaves out no widget that is wanted and not hidden, and comes
to its end. -/
inductive Keeps (kids : ι → List ι) (hidden boxes wanted : ι → Bool) : ι → Spine ι → Prop where
  | last {iobj : ι} {place : Spine ι} (hstop : onward kids hidden boxes iobj place = .stop)
      (hnone : ∀ x, Reaches kids hidden (rootsBehind kids hidden place) x →
        hidden x = false → ¬ wanted x) : Keeps kids hidden boxes wanted iobj place
  | next {iobj iobj' : ι} {place place' : Spine ι}
      (hgo : onward kids hidden boxes iobj place = .go iobj' place')
      (hkept : ∀ x, Reaches kids hidden (rootsBehind kids hidden place) x →
        hidden x = false → wanted x → Reaches kids hidden (rootsFrom place') x)
      (hrest : Keeps kids hidden boxes wanted iobj' place') :
      Keeps kids hidden boxes wanted iobj place

/-- The widgets that a walk comes to, and whether it gets to an end. -/
inductive Trail (heap : Heap ι) (hidden boxes : ι → Bool) : Iter ι → List ι → Bool → Prop where
  | done {iobj : Option ι} : Trail heap hidden boxes ⟨none, iobj⟩ [] true
  | lost {iobj : Option ι} {w : ι} (hlost : successor heap hidden boxes iobj w = none) :
      Trail heap hidden boxes ⟨some w, iobj⟩ [w] false
  | step {iobj : Option ι} {w : ι} {it : Iter ι} {ws : List ι} {ends : Bool}
      (hnext : successor heap hidden boxes iobj w = some it)
      (hrest : Trail heap hidden boxes it ws ends) :
      Trail heap hidden boxes ⟨some w, iobj⟩ (w :: ws) ends

/-- A walk that came to a place keeps what is behind apart, and has nothing of it above
the origin. -/
structure Stands (kids : ι → List ι) (iobj w : ι) (ts : List ι) (levels : Spine ι) : Prop where
  spine : IsSpine kids ((w, ts) :: levels)
  apart : (w :: later ((w, ts) :: levels)).Pairwise (Apart kids)
  behind : ∀ r ∈ kids w ++ later ((w, ts) :: levels), ¬ Below kids r iobj

section

omit [DecidableEq ι]

variable {kids : ι → List ι} {hidden : ι → Bool}
  {iobj iobj' w t s x : ι} {ts us : List ι} {levels above : Spine ι}

theorem stands_root (hforest : IsForest kids) (hroot : ∀ m, s ∉ kids m) :
    Stands kids s s [] [] where
  spine := .root hroot
  apart := List.pairwise_singleton _ s
  behind r hr := by
    have hmem : r ∈ kids s := (List.mem_append.mp hr).resolve_right List.not_mem_nil
    exact hforest.not_below_child hmem

/-- It stays so where the walk goes on. -/
theorem Stands.go (hforest : IsForest kids) (hstands : Stands kids iobj w ts levels)
    (hspine : IsSpine kids ((t, us) :: above)) (hiobj : iobj' = iobj ∨ iobj' = t)
    (hsuffix : (t :: later ((t, us) :: above)) <:+
      (shownKids kids hidden w ++ later ((w, ts) :: levels))) :
    Stands kids iobj' t us above := by
  have hsub : (t :: later ((t, us) :: above)).Sublist
      (kids w ++ later ((w, ts) :: levels)) :=
    hsuffix.sublist.trans ((shownKids_sublist w).append_right _)
  have hapart := (hforest.apart_children hstands.apart).sublist hsub
  refine ⟨hspine, hapart, ?_⟩
  have hmem : ∀ r ∈ kids t ++ later ((t, us) :: above),
      ∃ o ∈ t :: later ((t, us) :: above), Below kids o r := by
    intro r hr
    rcases List.mem_append.mp hr with hr | hr
    · exact ⟨t, List.mem_cons_self, Below.child hr⟩
    · exact ⟨r, List.mem_cons_of_mem t hr, Below.refl⟩
  intro r hr hbelow
  rcases hiobj with rfl | rfl
  · obtain ⟨o, ho, hor⟩ := hmem r hr
    exact hstands.behind o (hsub.mem ho) (hor.trans hbelow)
  · rcases List.mem_append.mp hr with hr | hr
    · exact hforest.not_below_child hr hbelow
    · exact ((List.pairwise_cons.mp hapart).1 r hr).2 hbelow

theorem mem_shownKids {c : ι} : c ∈ shownKids kids hidden w ↔ hidden w = false ∧ c ∈ kids w := by
  rw [shownKids]
  cases hidden w with
  | false => simp
  | true => simp

/-- From the root on, what is not below something hidden and not hidden itself is shown. -/
theorem below_shown_iff (hforest : IsForest kids) (hroot : ∀ m, s ∉ kids m) :
    Below (shownKids kids hidden) s x ∧ hidden x = false ↔
      Below kids s x ∧ Shown kids hidden x := by
  constructor
  · rintro ⟨hbelow, hshown⟩
    refine ⟨hbelow.mono shownKids_sublist, ?_⟩
    induction hbelow with
    | refl =>
        intro a ha
        rcases Relation.ReflTransGen.cases_tail ha with rfl | ⟨m, _, hm⟩
        · exact hshown
        · exact absurd hm (hroot m)
    | tail _ hmem ih =>
        obtain ⟨hmother, hmem⟩ := mem_shownKids.mp hmem
        intro a ha
        rcases Relation.ReflTransGen.cases_tail ha with rfl | ⟨m, ham, hm⟩
        · exact hshown
        · rw [hforest.unique hm hmem] at ham
          exact ih hmother a ham
  · rintro ⟨hbelow, hshown⟩
    refine ⟨?_, hshown x Below.refl⟩
    induction hbelow with
    | refl => exact Below.refl
    | @tail m c hbelow hmem ih =>
        have hmother : Shown kids hidden m := fun a ha => hshown a (ha.trans (Below.child hmem))
        exact (ih hmother).tail (mem_shownKids.mpr ⟨hmother m Below.refl, hmem⟩)

/-- What is behind a widget comes behind it in the order. -/
theorem order_behind {order : List ι}
    (hpre : Preorder (shownKids kids hidden) (w :: later ((w, ts) :: levels)) order) :
    ∃ rest, order = w :: rest ∧
      Preorder (shownKids kids hidden) (rootsBehind kids hidden ((w, ts) :: levels)) rest := by
  cases hpre with
  | @cons _ _ below rest hbelow hrest => exact ⟨below ++ rest, rfl, hbelow.append hrest⟩

theorem Stands.nodup (hforest : IsForest kids) (hstands : Stands kids iobj w ts levels)
    {order : List ι}
    (hpre : Preorder (shownKids kids hidden) (w :: later ((w, ts) :: levels)) order) :
    order.Nodup := by
  have hless : ∀ w, (shownKids kids hidden w).Sublist (kids w) := shownKids_sublist
  exact (hforest.mono hless).nodup_preorder hpre
    (hstands.apart.imp fun hapart => hapart.mono hless)

end

section

variable {kids : ι → List ι} {heap : Heap ι} {hidden boxes wanted : ι → Bool} {iobj w : ι}
  {ts : List ι} {levels : Spine ι}

theorem not_keeps_crash {place : Spine ι}
    (hcrash : onward kids hidden boxes iobj place = .crash) :
    ¬ Keeps kids hidden boxes wanted iobj place := by
  rintro (⟨hstop, _⟩ | ⟨hgo, _, _⟩)
  · cases hcrash.symm.trans hstop
  · cases hcrash.symm.trans hgo

theorem keeps_stop_iff {place : Spine ι}
    (hstop : onward kids hidden boxes iobj place = .stop) :
    Keeps kids hidden boxes wanted iobj place ↔
      ∀ x, Reaches kids hidden (rootsBehind kids hidden place) x →
        hidden x = false → ¬ wanted x := by
  constructor
  · rintro (⟨_, hnone⟩ | ⟨hgo, _, _⟩)
    · exact hnone
    · cases hstop.symm.trans hgo
  · exact .last hstop

theorem keeps_go_iff {iobj' : ι} {place place' : Spine ι}
    (hgo : onward kids hidden boxes iobj place = .go iobj' place') :
    Keeps kids hidden boxes wanted iobj place ↔
      (∀ x, Reaches kids hidden (rootsBehind kids hidden place) x →
        hidden x = false → wanted x → Reaches kids hidden (rootsFrom place') x) ∧
      Keeps kids hidden boxes wanted iobj' place' := by
  constructor
  · rintro (⟨hstop, _⟩ | ⟨hgo', hkept, hrest⟩)
    · cases hgo.symm.trans hstop
    · cases hgo.symm.trans hgo'
      exact ⟨hkept, hrest⟩
  · rintro ⟨hkept, hrest⟩
    exact .next hgo hkept hrest

/-- A walk comes to an end or gets lost, and keeps to depth-first order.  What it comes
to has all that is wanted exactly if nothing wanted is left out at any place. -/
theorem exists_trail (hforest : IsForest kids) (hlinked : Linked heap kids)
    (hidden boxes wanted : ι → Bool) (hstands : Stands kids iobj w ts levels) {order : List ι}
    (hpre : Preorder (shownKids kids hidden) (w :: later ((w, ts) :: levels)) order) :
    ∃ ws ends, Trail heap hidden boxes ⟨some w, some iobj⟩ ws ends ∧ ws.Sublist order ∧
      ((ends = true ∧ ∀ x ∈ order, hidden x = false → wanted x → x ∈ ws) ↔
        Keeps kids hidden boxes wanted iobj ((w, ts) :: levels)) := by
  induction hlength : order.length using Nat.strongRecOn
    generalizing iobj w ts levels order with
  | ind length ih =>
      subst hlength
      have hnodup := hstands.nodup hforest hpre
      obtain ⟨rest, rfl, hbehind⟩ := order_behind hpre
      have hfollows : Follows kids (onward kids hidden boxes iobj ((w, ts) :: levels))
          (successor heap hidden boxes (some iobj) w) :=
        follows_onward hlinked hstands.spine
          fun r hr heq => hstands.behind r hr (heq ▸ Below.refl)
      have hwnot := (List.nodup_cons.mp hnodup).1
      cases hleap : onward kids hidden boxes iobj ((w, ts) :: levels) with
      | crash =>
          rw [hleap] at hfollows
          refine ⟨[w], false, .lost hfollows, List.singleton_sublist.mpr List.mem_cons_self, ?_⟩
          exact iff_of_false (fun hboth => Bool.false_ne_true hboth.1) (not_keeps_crash hleap)
      | stop =>
          rw [hleap] at hfollows
          obtain ⟨last, hnext⟩ := hfollows
          refine ⟨[w], true, .step hnext .done, List.singleton_sublist.mpr List.mem_cons_self, ?_⟩
          rw [keeps_stop_iff hleap, and_iff_right rfl]
          constructor
          · intro hall x hx hshown hwanted
            have hrest : x ∈ rest := hbehind.mem_iff.mpr hx
            have hsingle := hall x (List.mem_cons_of_mem w hrest) hshown hwanted
            rw [List.mem_singleton.mp hsingle] at hrest
            exact hwnot hrest
          · intro hnone x hx hshown hwanted
            rcases List.mem_cons.mp hx with rfl | hrest
            · exact List.mem_cons_self
            · exact absurd hwanted (hnone x (hbehind.mem_iff.mp hrest) hshown)
      | go iobj' place =>
          obtain ⟨t, us, above, rfl, hiobj, hsuffix⟩ := onward_go hleap
          rw [hleap] at hfollows
          obtain ⟨hnext, hspine⟩ := hfollows
          have hstands' := hstands.go hforest hspine hiobj hsuffix
          obtain ⟨roots, hroots⟩ := hsuffix
          rw [rootsBehind, ← hroots] at hbehind
          obtain ⟨skipped, order, rfl, hskipped, horder⟩ := hbehind.append_inv
          have hless : order.length < (w :: (skipped ++ order)).length := by
            rw [List.length_cons, List.length_append]
            omega
          obtain ⟨ws, ends, htrail, hsub, hiff⟩ := ih _ hless hstands' horder rfl
          refine ⟨w :: ws, ends, .step hnext htrail,
            (hsub.trans (List.sublist_append_right _ _)).cons_cons w, ?_⟩
          rw [keeps_go_iff hleap, ← hiff, rootsBehind, ← hroots]
          constructor
          · rintro ⟨hends, hall⟩
            have hcome : ∀ x ∈ skipped ++ order, hidden x = false → wanted x → x ∈ ws := by
              intro x hx hshown hwanted
              have hmem := hall x (List.mem_cons_of_mem w hx) hshown hwanted
              rcases List.mem_cons.mp hmem with rfl | hmem
              · exact absurd hx hwnot
              · exact hmem
            refine ⟨?_, hends, ?_⟩
            · intro x hx hshown hwanted
              exact horder.mem_iff.mp
                (hsub.mem (hcome x (hbehind.mem_iff.mpr hx) hshown hwanted))
            · intro x hx
              exact hcome x (List.mem_append_right skipped hx)
          · rintro ⟨hkept, hends, hall⟩
            refine ⟨hends, ?_⟩
            intro x hx hshown hwanted
            rcases List.mem_cons.mp hx with rfl | hx
            · exact List.mem_cons_self
            · have hfrom := hkept x (hbehind.mem_iff.mp hx) hshown hwanted
              exact List.mem_cons_of_mem w
                (hall x (horder.mem_iff.mpr hfrom) hshown hwanted)

end

/-! ## Trees that walks pass through -/

section

variable (kids : ι → List ι) (hidden boxes wanted : ι → Bool) (s : ι)

/-- A walk may be one that was started for this widget: for the root, or by a box for its
first child. -/
def Origin (m : ι) : Prop :=
  boxes m = false ∧
    (m = s ∨ ∃ b, hidden b = false ∧ boxes b = true ∧ (kids b).head? = some m)

/-- A walk may climb to the next sibling of the mother. -/
def Climbs : Spine ι → Prop
  | (m, _ :: _) :: _ => ¬ Origin kids hidden boxes s m
  | _ => False

/-- Behind this widget comes what is next in the tree: a hidden one has children and a
later sibling, and behind a leaf that is shown, and no box, there is a later sibling of it
or of its mother. -/
def Passes : Spine ι → Prop
  | (w, ts) :: levels =>
      if hidden w then kids w ≠ [] ∧ ts ≠ []
      else kids w ≠ [] ∨ boxes w = false ∧ (ts ≠ [] ∨ Climbs kids hidden boxes s levels)
  | [] => False

/-- Behind a hidden last leaf `nextsib` needs something to climb from. -/
def ReadsNull : Spine ι → Prop
  | (w, ts) :: levels =>
      hidden w = true ∧ kids w = [] ∧ ts = [] ∧ ¬ Climbs kids hidden boxes s levels
  | [] => False

/-- Every widget of the tree that is not below a hidden one is passed, or nothing that is
wanted and shown comes behind it and `NULL` is not read. -/
def Passable : Prop :=
  ∀ w ts levels, IsSpine kids ((w, ts) :: levels) → Below (shownKids kids hidden) s w →
    Passes kids hidden boxes s ((w, ts) :: levels) ∨
      ¬ ReadsNull kids hidden boxes s ((w, ts) :: levels) ∧
        ∀ x, Reaches kids hidden (rootsBehind kids hidden ((w, ts) :: levels)) x →
          hidden x = false → ¬ wanted x

/-- The origin of a walk that came to a place below these levels. -/
structure InForce (iobj : ι) (levels : Spine ι) : Prop where
  started : iobj = s ∨ ∃ b, hidden b = false ∧ boxes b = true ∧ (kids b).head? = some iobj
  above : ∀ level ∈ levels, boxes level.1 = true → level.1 ≠ iobj

end

section

variable {kids : ι → List ι} {heap : Heap ι} {hidden boxes wanted : ι → Bool}
  {s iobj iobj' w : ι} {ts : List ι} {levels place : Spine ι}

omit [DecidableEq ι] in
theorem IsSpine.below_levels (hspine : IsSpine kids ((w, ts) :: levels)) :
    ∀ level ∈ (w, ts) :: levels, Below kids level.1 w := by
  generalize hplace : (w, ts) :: levels = place at hspine
  induction hspine generalizing w ts levels with
  | root =>
      cases hplace
      exact List.forall_mem_singleton.mpr Below.refl
  | @child m w us before ts levels _ hkids ih =>
      cases hplace
      have hmem : w ∈ kids m := hkids ▸ List.mem_append_right before List.mem_cons_self
      exact List.forall_mem_cons.mpr ⟨Below.refl, fun level hlevel =>
        (ih rfl level hlevel).trans (Below.child hmem)⟩

omit [DecidableEq ι] in
theorem InForce.mono (hforce : InForce kids hidden boxes s iobj levels)
    (hless : ∀ level ∈ place, level ∈ levels) : InForce kids hidden boxes s iobj place :=
  ⟨hforce.started, fun level hlevel => hforce.above level (hless level hlevel)⟩

omit [DecidableEq ι] in
/-- Where a walk may climb, the mother is not its origin. -/
theorem InForce.ne_of_climbs (hforce : InForce kids hidden boxes s iobj levels)
    (hclimbs : Climbs kids hidden boxes s levels) :
    ∃ m u us above, levels = (m, u :: us) :: above ∧ m ≠ iobj := by
  match levels, hclimbs with
  | (m, u :: us) :: above, hclimbs =>
      refine ⟨m, u, us, above, rfl, ?_⟩
      rintro rfl
      have hbox := hforce.above _ List.mem_cons_self
      exact hclimbs ⟨Bool.eq_false_iff.mpr fun hbox' => hbox hbox' rfl, hforce.started⟩

/-- The walk goes on in the origin that is in force there. -/
theorem InForce.go (hforce : InForce kids hidden boxes s iobj levels)
    (hapart : ∀ level ∈ (w, ts) :: levels, level.1 ∉ kids w)
    (hgo : onward kids hidden boxes iobj ((w, ts) :: levels) = .go iobj' place) :
    InForce kids hidden boxes s iobj' place.tail := by
  rcases onward_go_cases hgo with ⟨c, cs, hshown, hkids, rfl, rfl⟩ | ⟨spine, hsuffix, hgo⟩
  · have hc : c ∈ kids w := hkids ▸ List.mem_cons_self
    cases hbox : boxes w with
    | false =>
        refine ⟨hforce.started, List.forall_mem_cons.mpr ⟨fun hbox' => ?_, hforce.above⟩⟩
        cases hbox.symm.trans hbox'
    | true =>
        refine ⟨.inr ⟨w, hshown, hbox, hkids ▸ rfl⟩, ?_⟩
        rintro level hlevel - heq
        exact hapart level hlevel (heq ▸ hc)
  · obtain ⟨rfl, v, t, us, above, rfl, rfl⟩ := leapAside_go hgo
    refine hforce.mono fun level hlevel => ?_
    rcases List.suffix_cons_iff.mp hsuffix with heq | hsuffix
    · exact (List.cons.inj heq).2 ▸ hlevel
    · exact hsuffix.subset (List.mem_cons_of_mem _ hlevel)

/-- A widget that is passed leaves nothing out. -/
theorem go_of_passes (hforce : InForce kids hidden boxes s iobj levels)
    (hpasses : Passes kids hidden boxes s ((w, ts) :: levels)) :
    ∃ iobj' place, onward kids hidden boxes iobj ((w, ts) :: levels) = .go iobj' place ∧
      rootsFrom place = rootsBehind kids hidden ((w, ts) :: levels) := by
  rw [Passes] at hpasses
  rw [onward, rootsBehind, shownKids]
  split at hpasses
  · next hhidden =>
      obtain ⟨hkids, hts⟩ := hpasses
      obtain ⟨c, cs, hkids⟩ := List.exists_cons_of_ne_nil hkids
      obtain ⟨t, ts, rfl⟩ := List.exists_cons_of_ne_nil hts
      rw [if_pos hhidden, if_pos hhidden, hkids]
      exact ⟨iobj, (t, ts) :: levels, rfl, rfl⟩
  · next hshown =>
      rw [if_neg hshown, if_neg hshown]
      cases hkids : kids w with
      | cons c cs => exact ⟨_, (c, cs) :: (w, ts) :: levels, rfl, rfl⟩
      | nil =>
          obtain ⟨hbox, hnext⟩ := hpasses.resolve_left fun hne => hne hkids
          cases ts with
          | cons t ts =>
              refine ⟨iobj, (t, ts) :: levels, ?_, rfl⟩
              rw [pastShown, hbox, if_neg Bool.false_ne_true]
          | nil =>
              obtain ⟨m, u, us, above, rfl, hm⟩ :=
                hforce.ne_of_climbs (hnext.resolve_left fun hne => hne rfl)
              refine ⟨iobj, (u, us) :: above, ?_, rfl⟩
              rw [pastShown, hbox, if_neg fun heq => heq.elim Bool.false_ne_true hm]
              rfl

/-- Only where `NULL` may be read a walk reads through it. -/
theorem readsNull_of_crash (hforce : InForce kids hidden boxes s iobj levels)
    (hcrash : onward kids hidden boxes iobj ((w, ts) :: levels) = .crash) :
    ReadsNull kids hidden boxes s ((w, ts) :: levels) := by
  have haside : ∀ spine : Spine ι, leapAside iobj spine ≠ .crash := by
    intro spine hcrash
    rw [leapAside] at hcrash
    split at hcrash
    · cases hcrash
    · cases hcrash
  rw [onward] at hcrash
  by_cases hhidden : hidden w
  · rw [if_pos hhidden] at hcrash
    cases hkids : kids w with
    | cons c cs =>
        rw [hkids] at hcrash
        exact absurd hcrash (haside _)
    | nil =>
        rw [hkids] at hcrash
        cases ts with
        | cons t ts => exact absurd hcrash (haside _)
        | nil =>
            refine ⟨hhidden, hkids, rfl, fun hclimbs => ?_⟩
            obtain ⟨m, u, us, above, rfl, hm⟩ := hforce.ne_of_climbs hclimbs
            rw [pastHidden, if_neg hm] at hcrash
            exact haside _ hcrash
  · rw [if_neg hhidden] at hcrash
    cases hkids : kids w with
    | cons c cs =>
        rw [hkids] at hcrash
        cases hcrash
    | nil =>
        rw [hkids] at hcrash
        cases ts with
        | cons t ts =>
            rw [pastShown] at hcrash
            split at hcrash
            · cases hcrash
            · cases hcrash
        | nil =>
            cases levels with
            | nil => cases hcrash
            | cons level above =>
                rw [pastShown] at hcrash
                split at hcrash
                · cases hcrash
                · exact absurd hcrash (haside _)

/-- Where walks pass through a tree they keep what is wanted. -/
theorem keeps_of_passable (hforest : IsForest kids) (hlinked : Linked heap kids)
    (hpassable : Passable kids hidden boxes wanted s)
    (hstands : Stands kids iobj w ts levels) (hforce : InForce kids hidden boxes s iobj levels)
    (hbelow : ∀ r ∈ w :: later ((w, ts) :: levels), Below (shownKids kids hidden) s r)
    {order : List ι}
    (hpre : Preorder (shownKids kids hidden) (w :: later ((w, ts) :: levels)) order) :
    Keeps kids hidden boxes wanted iobj ((w, ts) :: levels) := by
  induction hlength : order.length using Nat.strongRecOn
    generalizing iobj w ts levels order with
  | ind length ih =>
      subst hlength
      obtain ⟨rest, rfl, hbehind⟩ := order_behind hpre
      have hfollows : Follows kids (onward kids hidden boxes iobj ((w, ts) :: levels))
          (successor heap hidden boxes (some iobj) w) :=
        follows_onward hlinked hstands.spine
          fun r hr heq => hstands.behind r hr (heq ▸ Below.refl)
      have hapart : ∀ level ∈ (w, ts) :: levels, level.1 ∉ kids w := fun level hlevel hmem =>
        hforest.not_below_child hmem (hstands.spine.below_levels level hlevel)
      have hrest : ∀ {iobj' : ι} {place : Spine ι},
          onward kids hidden boxes iobj ((w, ts) :: levels) = .go iobj' place →
          Keeps kids hidden boxes wanted iobj' place := by
        intro iobj' place hgo
        have hforce' := hforce.go hapart hgo
        obtain ⟨t, us, above, rfl, hiobj, hsuffix⟩ := onward_go hgo
        rw [hgo] at hfollows
        have hstands' := hstands.go hforest hfollows.2 hiobj hsuffix
        obtain ⟨roots, hroots⟩ := hsuffix
        have hbelow' : ∀ r ∈ t :: later ((t, us) :: above), Below (shownKids kids hidden) s r := by
          intro r hr
          have hmem : r ∈ shownKids kids hidden w ++ later ((w, ts) :: levels) :=
            hroots ▸ List.mem_append_right roots hr
          rcases List.mem_append.mp hmem with hchild | hlater
          · exact (hbelow w List.mem_cons_self).trans (Below.child hchild)
          · exact hbelow r (List.mem_cons_of_mem w hlater)
        rw [rootsBehind, ← hroots] at hbehind
        obtain ⟨skipped, order, rfl, -, horder⟩ := hbehind.append_inv
        have hless : order.length < (w :: (skipped ++ order)).length := by
          rw [List.length_cons, List.length_append]
          omega
        exact ih _ hless hstands' hforce' hbelow' horder rfl
      rcases hpassable w ts levels hstands.spine (hbelow w List.mem_cons_self) with
        hpasses | ⟨hsafe, hnone⟩
      · obtain ⟨iobj', place, hgo, hroots⟩ := go_of_passes hforce hpasses
        exact .next hgo (fun x hx _ _ => hroots ▸ hx) (hrest hgo)
      · cases hleap : onward kids hidden boxes iobj ((w, ts) :: levels) with
        | crash => exact absurd (readsNull_of_crash hforce hleap) hsafe
        | stop => exact .last hleap hnone
        | go iobj' place =>
            exact .next hleap (fun x hx hshown hwanted => absurd hwanted (hnone x hx hshown))
              (hrest hleap)

end

end Fip.Snazzy
