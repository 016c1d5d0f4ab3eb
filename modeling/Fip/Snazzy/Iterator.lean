import Fip.Snazzy.Widget

/-!
# The iterator over widgets

`getnext` climbs one level at a time: behind the last child of a widget it goes on
with the widget's sibling, and stops if there is none.  And it looks for a sibling of
the first widget too.
-/

namespace Fip.Snazzy

open Forest

variable {ι : Type*} [DecidableEq ι]

/-- For the iterator functions. -/
structure Iter (ι : Type*) where
  obj : Option ι
  iobj : Option ι

/-- (Re)start iterating over a tree of widgets. -/
def istart (w : ι) : Iter ι := ⟨some w, some w⟩

/-- Where the iterator goes from a widget. -/
def advance (heap : Heap ι) (iobj : Option ι) (obj : ι) : Option ι :=
  -- have children then goto first
  match (heap obj).child with
  | some child => some child
  | none =>
      -- if not get my sibling
      match (heap obj).sib with
      | some sib => some sib
      | none =>
          -- quit when we get back to origin
          if (heap obj).mom = iobj then none
          else
            -- if I have a mother goto her sibling
            match (heap obj).mom with
            | some mom => (heap mom).sib
            | none => none

/-- Get next widget in tree (depth first pre). -/
def getnext (heap : Heap ι) (it : Iter ι) : Option ι × Iter ι :=
  match it.obj with
  | none => (none, it)
  | some obj => (some obj, { it with obj := advance heap it.iobj obj })

/-- What the call of `getnext` with this number returns. -/
def nth (heap : Heap ι) (it : Iter ι) : ℕ → Option ι
  | 0 => (getnext heap it).1
  | call + 1 => nth heap (getnext heap it).2 call

/-- The calls return the widgets of the subtree in depth-first order, each once and no
others, and then nothing. -/
def Enumerates (heap : Heap ι) (kids : ι → List ι) (s : ι) : Prop :=
  ∃ nodes, Preorder kids [s] nodes ∧ nodes.Nodup ∧ (∀ w, w ∈ nodes ↔ Below kids s w) ∧
    ∀ call, nth heap (istart s) call = nodes[call]?

/-- The last child, if any, has no children. -/
def LastLeaf (kids : ι → List ι) (y : ι) : Prop :=
  ∀ z, (kids y).getLast? = some z → kids z = []

/-- No climb in the subtree is longer than one level, and none leads out of it. -/
def Climbable (kids : ι → List ι) (s : ι) : Prop :=
  (kids s = [] → ¬ HasNext kids s ∧ ∀ m, s ∈ kids m → ¬ HasNext kids m) ∧
    ∀ y, Below kids s y → y ≠ s → HasNext kids y → LastLeaf kids y

/-- From one place the iterator returns these widgets and comes to another place. -/
inductive Visits (heap : Heap ι) (iobj : Option ι) : Option ι → List ι → Option ι → Prop where
  | nil {obj : Option ι} : Visits heap iobj obj [] obj
  | cons {w : ι} {ws : List ι} {obj : Option ι}
      (hrest : Visits heap iobj (advance heap iobj w) ws obj) :
      Visits heap iobj (some w) (w :: ws) obj

section

variable {heap : Heap ι} {kids : ι → List ι} {iobj obj obj' : Option ι}
  {origin m w last : ι} {ws nodes before after : List ι}

theorem Visits.append {rest : List ι} (hfirst : Visits heap iobj obj ws obj')
    {final : Option ι} (hsecond : Visits heap iobj obj' rest final) :
    Visits heap iobj obj (ws ++ rest) final := by
  induction hfirst with
  | nil => exact hsecond
  | cons _ ih => exact .cons (ih hsecond)

theorem nth_none (call : ℕ) : nth heap ⟨none, iobj⟩ call = none := by
  induction call with
  | zero => rfl
  | succ call ih => exact ih

/-- A run that comes to an end. -/
theorem Visits.nth_eq (hvisits : Visits heap iobj obj ws obj') (hnone : obj' = none)
    (call : ℕ) : nth heap ⟨obj, iobj⟩ call = ws[call]? := by
  induction hvisits generalizing call with
  | nil =>
      rw [hnone, nth_none, List.getElem?_nil]
  | cons _ ih =>
      cases call with
      | zero => rfl
      | succ call => exact ih hnone call

theorem advance_child (hlinked : Linked heap kids) {c : ι} {cs : List ι}
    (hkids : kids w = c :: cs) : advance heap iobj w = some c := by
  have hchild := hlinked.child w
  rw [hkids, List.head?_cons] at hchild
  rw [advance, hchild]

theorem advance_leaf (hlinked : Linked heap kids) (hleaf : kids w = [])
    (hkids : kids m = before ++ w :: after) :
    advance heap iobj w =
      match after.head? with
      | some next => some next
      | none => if some m = iobj then none else (heap m).sib := by
  have hchild := hlinked.child w
  rw [hleaf, List.head?_nil] at hchild
  obtain ⟨hmom, hsib⟩ := hlinked.packed hkids
  rw [advance, hchild, hsib, hmom]

/-- Where the iterator comes to behind the children of a widget. -/
def exit (heap : Heap ι) (kids : ι → List ι) (iobj : Option ι) (m last : ι) : Option ι :=
  if kids last = [] ∧ some m ≠ iobj then (heap m).sib else none

/-- Where it comes to behind a widget and all below it. -/
def behind (heap : Heap ι) (kids : ι → List ι) (iobj : Option ι) (w : ι) : Option ι :=
  match (kids w).getLast? with
  | none => advance heap iobj w
  | some last => exit heap kids iobj w last

theorem behind_leaf (hleaf : kids w = []) :
    behind heap kids iobj w = advance heap iobj w := by
  rw [behind, hleaf, List.getLast?_nil]

theorem behind_last (hlast : (kids w).getLast? = some last) :
    behind heap kids iobj w = exit heap kids iobj w last := by
  rw [behind, hlast]

/-- That is the next sibling, where the climb is short enough. -/
theorem behind_of_easy (hlinked : Linked heap kids) (hkids : kids m = before ++ w :: after)
    (hw : some w ≠ iobj) (heasy : HasNext kids w → LastLeaf kids w) :
    behind heap kids iobj w =
      match after.head? with
      | some next => some next
      | none => exit heap kids iobj m w := by
  cases hkidsw : kids w with
  | nil =>
      rw [behind_leaf hkidsw, advance_leaf hlinked hkidsw hkids]
      cases after with
      | nil =>
          rw [List.head?_nil, exit]
          by_cases hm : some m = iobj
          · rw [if_pos hm, if_neg fun hboth => hboth.2 hm]
          · rw [if_neg hm, if_pos ⟨hkidsw, hm⟩]
      | cons next after => rfl
  | cons c cs =>
      have hlast : (kids w).getLast? = some ((c :: cs).getLast (List.cons_ne_nil c cs)) := by
        rw [hkidsw]
        exact List.getLast?_eq_some_getLast _
      have hsib := (hlinked.packed hkids).2
      rw [behind_last hlast]
      cases after with
      | nil =>
          rw [List.head?_nil] at hsib
          rw [List.head?_nil, exit, exit, hsib, ite_self, if_neg]
          rw [hkidsw]
          exact fun hboth => List.cons_ne_nil c cs hboth.1
      | cons next after =>
          rw [List.head?_cons] at hsib
          have hleaf := heasy ⟨m, before, next, after, hkids⟩ _ hlast
          rw [List.head?_cons, exit, if_pos ⟨hleaf, hw⟩, hsib]

/-- The iterator stops where it would have to climb further. -/
theorem behind_of_hard (hhard : ¬ LastLeaf kids w) : behind heap kids iobj w = none := by
  obtain ⟨last, hnot⟩ := not_forall.mp hhard
  obtain ⟨hlast, hne⟩ := Classical.not_imp.mp hnot
  rw [behind_last hlast, exit, if_neg fun hboth => hne hboth.1]

/-- A widget and all below it are visited if that is so for its children. -/
theorem visits_widget (hlinked : Linked heap kids) {below : List ι}
    (hpre : Preorder kids (kids w) below)
    (hkids : ∀ last, (kids w).getLast? = some last →
      Visits heap iobj (kids w).head? below (exit heap kids iobj w last)) :
    Visits heap iobj (some w) (w :: below) (behind heap kids iobj w) := by
  apply Visits.cons
  cases hkidsw : kids w with
  | nil =>
      rw [hkidsw] at hpre
      rw [hpre.eq_nil, behind_leaf hkidsw]
      exact .nil
  | cons c cs =>
      have hlast : (kids w).getLast? = some ((c :: cs).getLast (List.cons_ne_nil c cs)) := by
        rw [hkidsw]
        exact List.getLast?_eq_some_getLast _
      have hvisits := hkids _ hlast
      rw [hkidsw, List.head?_cons, ← advance_child hlinked hkidsw] at hvisits
      rw [behind_last hlast]
      exact hvisits

/-- Children are visited with all below them if each of these that has a sibling has
a last child without children. -/
theorem visits_of_easy (hlinked : Linked heap kids) (hpre : Preorder kids ws nodes)
    (hkids : kids m = before ++ ws) (hlast : ws.getLast? = some last)
    (hnot : ∀ y ∈ nodes, some y ≠ iobj)
    (heasy : ∀ y ∈ nodes, HasNext kids y → LastLeaf kids y) :
    Visits heap iobj ws.head? nodes (exit heap kids iobj m last) := by
  induction hpre generalizing m before last with
  | nil => cases hlast
  | @cons w ws below rest hbelow hrest ihbelow ihrest =>
      rw [List.cons_append, List.forall_mem_cons, List.forall_mem_append] at hnot heasy
      have hwidget := visits_widget hlinked hbelow fun last hlast =>
        ihbelow (List.nil_append _).symm hlast hnot.2.1 heasy.2.1
      rw [behind_of_easy hlinked hkids hnot.1 heasy.1] at hwidget
      apply hwidget.append
      cases ws with
      | nil =>
          cases hlast
          rw [hrest.eq_nil]
          exact .nil
      | cons next ws =>
          rw [List.getLast?_cons_cons] at hlast
          rw [List.append_cons] at hkids
          exact ihrest hkids hlast hnot.2.2 heasy.2.2

/-- Otherwise the iterator stops too early. -/
theorem visits_of_hard (hlinked : Linked heap kids) (hpre : Preorder kids ws nodes)
    (hkids : kids m = before ++ ws) (hnot : ∀ y ∈ nodes, some y ≠ iobj)
    (hhard : ¬ ∀ y ∈ nodes, HasNext kids y → LastLeaf kids y) :
    ∃ front back, nodes = front ++ back ∧ back ≠ [] ∧
      Visits heap iobj ws.head? front none := by
  induction hpre generalizing m before with
  | nil => exact absurd (fun y hmem => absurd hmem List.not_mem_nil) hhard
  | @cons w ws below rest hbelow hrest ihbelow ihrest =>
      rw [List.cons_append, List.forall_mem_cons, List.forall_mem_append] at hnot
      by_cases heasybelow : ∀ y ∈ below, HasNext kids y → LastLeaf kids y
      · have hwidget := visits_widget hlinked hbelow fun last hlast =>
          visits_of_easy hlinked hbelow (List.nil_append _).symm hlast hnot.2.1 heasybelow
        by_cases heasy : HasNext kids w → LastLeaf kids w
        · -- the widget is passed, so that its siblings are to blame
          rw [List.cons_append, List.forall_mem_cons, List.forall_mem_append] at hhard
          have hhardrest : ¬ ∀ y ∈ rest, HasNext kids y → LastLeaf kids y := fun heasyrest =>
            hhard ⟨heasy, heasybelow, heasyrest⟩
          rw [behind_of_easy hlinked hkids hnot.1 heasy] at hwidget
          cases ws with
          | nil =>
              rw [hrest.eq_nil] at hhardrest
              exact absurd (fun y hmem => absurd hmem List.not_mem_nil) hhardrest
          | cons next ws =>
              rw [List.append_cons] at hkids
              obtain ⟨front, back, rfl, hback, hvisits⟩ := ihrest hkids hnot.2.2 hhardrest
              exact ⟨w :: below ++ front, back, (List.append_assoc _ _ _).symm, hback,
                hwidget.append hvisits⟩
        · obtain ⟨hnext, hhardw⟩ := Classical.not_imp.mp heasy
          rw [behind_of_hard hhardw] at hwidget
          refine ⟨w :: below, rest, rfl, ?_, hwidget⟩
          rintro rfl
          apply hlinked.sib_iff.mpr hnext
          rw [(hlinked.packed hkids).2]
          cases hrest
          rfl
      · obtain ⟨front, back, rfl, hback, hvisits⟩ :=
          ihbelow (List.nil_append _).symm hnot.2.1 heasybelow
        cases hkidsw : kids w with
        | nil =>
            rw [hkidsw] at hbelow
            exact absurd (List.append_eq_nil_iff.mp hbelow.eq_nil).2 hback
        | cons c cs =>
            rw [hkidsw, List.head?_cons, ← advance_child hlinked hkidsw] at hvisits
            refine ⟨w :: front, back ++ rest, ?_, ?_, .cons hvisits⟩
            · rw [List.cons_append, List.cons_append, List.append_assoc]
            · exact fun hnil => hback (List.append_eq_nil_iff.mp hnil).1

/-- A run that stops within the subtree returns nothing where a widget should come. -/
theorem not_nth_of_front {back : List ι} (hvisits : Visits heap iobj obj ws none)
    (hback : back ≠ []) : ¬ ∀ call, nth heap ⟨obj, iobj⟩ call = (ws ++ back)[call]? := by
  intro hnth
  have hend := hnth ws.length
  rw [hvisits.nth_eq rfl, List.getElem?_eq_none (Nat.le_refl _),
    List.getElem?_append_right (Nat.le_refl _), Nat.sub_self] at hend
  cases back with
  | nil => exact hback rfl
  | cons w back => cases hend

/-- A leaf is followed by nothing if neither it nor its mother has a sibling. -/
theorem advance_origin_iff (hforest : IsForest kids) (hlinked : Linked heap kids)
    {s : ι} (hleaf : kids s = []) :
    advance heap (some s) s = none ↔
      ¬ HasNext kids s ∧ ∀ m, s ∈ kids m → ¬ HasNext kids m := by
  have hchild := hlinked.child s
  rw [hleaf, List.head?_nil] at hchild
  rw [advance, hchild, ← hlinked.sib_iff, not_not]
  cases hsib : (heap s).sib with
  | some sib =>
      apply iff_of_false
      · exact Option.some_ne_none sib
      · exact fun hboth => Option.some_ne_none sib hboth.1
  | none =>
      rw [eq_self, true_and]
      dsimp only
      cases hmom : (heap s).mom with
      | none =>
          apply iff_of_true
          · rw [if_neg (Option.some_ne_none s).symm]
          · intro m hmem
            cases hmom.symm.trans (hlinked.mom_of_mem hmem)
      | some m =>
          have hmem := hlinked.mem_of_mom hmom
          have hne : some m ≠ some s := by
            rintro ⟨⟩
            exact hforest.not_below_child hmem .refl
          rw [if_neg hne]
          dsimp only
          constructor
          · intro hnone other hother hnext
            rw [hforest.unique hother hmem] at hnext
            exact hlinked.sib_iff.mpr hnext hnone
          · intro hnot
            by_contra hsome
            exact hnot m hmem (hlinked.sib_iff.mp hsome)

/-- The calls return the subtree exactly if the climbs in it are short. -/
theorem nth_iff (hforest : IsForest kids) (hlinked : Linked heap kids) {s : ι} {below : List ι}
    (hpre : Preorder kids (kids s) below) :
    (∀ call, nth heap (istart s) call = (s :: below)[call]?) ↔ Climbable kids s := by
  have hall : (∀ y, Below kids s y → y ≠ s → HasNext kids y → LastLeaf kids y) ↔
      ∀ y ∈ below, HasNext kids y → LastLeaf kids y := by
    apply forall_congr'
    intro y
    rw [hforest.mem_preorder_kids hpre, and_imp]
  have hnot : ∀ y ∈ below, some y ≠ some s := by
    rintro y hmem ⟨⟩
    exact ((hforest.mem_preorder_kids hpre).mp hmem).2 rfl
  rw [Climbable, hall]
  cases hkids : kids s with
  | nil =>
      rw [hkids] at hpre
      rw [hpre.eq_nil, ← advance_origin_iff hforest hlinked hkids]
      constructor
      · intro hnth
        refine ⟨fun _ => ?_, fun y hmem => absurd hmem List.not_mem_nil⟩
        cases hnext : advance heap (some s) s with
        | none => rfl
        | some next =>
            have hsecond : nth heap ⟨advance heap (some s) s, some s⟩ 0 = none := hnth 1
            rw [hnext] at hsecond
            cases hsecond
      · rintro ⟨hnone, _⟩ call
        have hvisits : Visits heap (some s) (some s) [s] (advance heap (some s) s) := .cons .nil
        exact hvisits.nth_eq (hnone rfl) call
  | cons c cs =>
      have hvacuous : c :: cs = [] → ¬ HasNext kids s ∧ ∀ m, s ∈ kids m → ¬ HasNext kids m :=
        fun hnil => absurd hnil (List.cons_ne_nil c cs)
      rw [and_iff_right hvacuous]
      constructor
      · intro hnth
        by_contra hhard
        obtain ⟨front, back, rfl, hback, hvisits⟩ :=
          visits_of_hard hlinked hpre (List.nil_append _).symm hnot hhard
        rw [hkids, List.head?_cons, ← advance_child hlinked hkids] at hvisits
        exact not_nth_of_front (.cons hvisits) hback hnth
      · intro heasy
        have hlast : (kids s).getLast? = some ((c :: cs).getLast (List.cons_ne_nil c cs)) := by
          rw [hkids]
          exact List.getLast?_eq_some_getLast _
        have hvisits := visits_widget hlinked hpre fun last hlast =>
          visits_of_easy hlinked hpre (List.nil_append _).symm hlast hnot heasy
        have hend : behind heap kids (some s) s = none := by
          rw [behind_last hlast, exit, if_neg fun hboth => hboth.2 rfl]
        exact hvisits.nth_eq hend

end

theorem climbable_of_enumerates {heap : Heap ι} {kids : ι → List ι} (hbuilt : Built heap kids)
    {s : ι} (henumerates : Enumerates heap kids s) : Climbable kids s := by
  obtain ⟨hforest, hlinked⟩ := hbuilt.linked
  obtain ⟨nodes, hpre, _, _, hnth⟩ := henumerates
  cases hpre with
  | cons hbelow hrest =>
      rw [hrest.eq_nil, List.append_nil] at hnth
      exact (nth_iff hforest hlinked hbelow).mp hnth

/-- The iterator enumerates a subtree exactly if no climb in it is longer than one
level, and none leads out of it. -/
theorem enumerates_iff {heap : Heap ι} {kids : ι → List ι} (hbuilt : Built heap kids) (s : ι) :
    Enumerates heap kids s ↔ Climbable kids s := by
  constructor
  · exact climbable_of_enumerates hbuilt
  · intro hclimb
    obtain ⟨hforest, hlinked⟩ := hbuilt.linked
    obtain ⟨below, hbelow⟩ := hforest.exists_preorder (kids s)
    have hpre : Preorder kids [s] (s :: below ++ []) := .cons hbelow .nil
    refine ⟨_, hpre, hforest.nodup_preorder hpre (List.pairwise_singleton _ s), ?_, ?_⟩
    · intro w
      rw [hpre.mem_iff, List.exists_mem_cons_iff]
      simp
    · rw [List.append_nil]
      exact (nth_iff hforest hlinked hbelow).mpr hclimb

/-! ## A mother and two daughters -/

/-- The children after so many calls of `pack_widget`. -/
def daughters : ℕ → ℕ → List ℕ
  | 0 => fun _ => []
  | calls + 1 => graft (daughters calls) 0 (calls + 1)

def daughtersHeap : ℕ → Heap ℕ
  | 0 => newWidgets
  | calls + 1 => packedHeap (daughtersHeap calls) (daughters calls) 0 (calls + 1)

theorem mem_daughters {calls w c : ℕ} (hmem : c ∈ daughters calls w) :
    w = 0 ∧ 0 < c ∧ c ≤ calls := by
  induction calls with
  | zero => cases hmem
  | succ calls ih =>
      rcases mem_graft.mp hmem with hmem | ⟨rfl, rfl⟩
      · obtain ⟨hw, hpos, hle⟩ := ih hmem
        exact ⟨hw, hpos, Nat.le_succ_of_le hle⟩
      · exact ⟨rfl, Nat.succ_pos calls, Nat.le_refl _⟩

theorem built_daughters (calls : ℕ) : Built (daughtersHeap calls) (daughters calls) := by
  induction calls with
  | zero => exact .new
  | succ calls ih =>
      have hfree : ∀ w, calls + 1 ∉ daughters calls w := by
        intro w hmem
        exact absurd (mem_daughters hmem).2.2 (Nat.not_succ_le_self calls)
      have hnot : ¬ Below (daughters calls) (calls + 1) 0 := by
        intro hbelow
        rcases Relation.ReflTransGen.cases_head hbelow with hzero | ⟨c, hc, _⟩
        · cases hzero
        · cases (mem_daughters hc).1
      obtain ⟨rounds, heap', hpack⟩ :=
        exists_packWidget ih.linked.2 hfree (Nat.succ_ne_zero calls)
      have heq := hpack
      rw [packWidget_eq ih.linked.2 hfree (Nat.succ_ne_zero calls)] at heq
      split at heq
      · cases heq
        exact .pack ih hfree hnot hpack
      · cases heq

theorem enumerates_iff_daughters :
    Enumerates (daughtersHeap 2) (daughters 2) 0 ↔ Climbable (daughters 2) 0 :=
  enumerates_iff (built_daughters 2) 0

/-- From the first daughter the iterator goes on with the second. -/
theorem not_enumerates_daughter :
    Built (daughtersHeap 2) (daughters 2) ∧ ¬ Enumerates (daughtersHeap 2) (daughters 2) 1 := by
  refine ⟨built_daughters 2, ?_⟩
  intro henumerates
  have hclimb := climbable_of_enumerates (built_daughters 2) henumerates
  exact (hclimb.1 rfl).1 ⟨0, [], 2, [], rfl⟩

end Fip.Snazzy
