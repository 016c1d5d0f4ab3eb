import Fip.Core.Forest

/-!
# Trees of widgets

A widget points to its mother, its next sibling and its first child, and
`pack_widget` puts one behind the children of another.  The trees that are built so
are the forests in which this is a graft.
-/

namespace Fip.Snazzy

open Forest

/-- The pointers of a `struct widget`. -/
@[ext]
structure Widget (ι : Type*) where
  mom : Option ι
  sib : Option ι
  child : Option ι

/-- The widgets in memory. -/
abbrev Heap (ι : Type*) := ι → Widget ι

variable {ι : Type*}

/-- Each widget as `new_widget` leaves it. -/
def newWidgets : Heap ι := fun _ => ⟨none, none, none⟩

/-- `while (last->sib) last = last->sib`, for so many rounds. -/
def lastSib (heap : Heap ι) : ℕ → ι → Option ι
  | 0, _ => none
  | rounds + 1, last =>
      match (heap last).sib with
      | none => some last
      | some sib => lastSib heap rounds sib

/-- Put a widget behind the children of another one.  What `pack` of this one then
does leaves the pointers alone. -/
def packWidget [DecidableEq ι] (rounds : ℕ) (heap : Heap ι) (p c : ι) : Option (Heap ι) :=
  let heap := Function.update heap c { heap c with sib := none, mom := some p }
  match (heap p).child with
  | none => some (Function.update heap p { heap p with child := some c })
  | some last =>
      (lastSib heap rounds last).map fun last =>
        Function.update heap last { heap last with sib := some c }

/-- What `pack_widget` builds of new widgets, where it is called for widgets that are
not packed yet and not for one above the other.  The second argument has the children
in the order of the calls. -/
inductive Built [DecidableEq ι] : Heap ι → (ι → List ι) → Prop where
  | new : Built newWidgets fun _ => []
  | pack {heap heap' : Heap ι} {kids : ι → List ι} {p c : ι} {rounds : ℕ}
      (hbuilt : Built heap kids) (hfree : ∀ w, c ∉ kids w) (hnot : ¬ Below kids c p)
      (hpack : packWidget rounds heap p c = some heap') : Built heap' (graft kids p c)

/-- The pointers are those of the forest. -/
structure Linked (heap : Heap ι) (kids : ι → List ι) : Prop where
  child : ∀ w, (heap w).child = (kids w).head?
  packed : ∀ {m before y after}, kids m = before ++ y :: after →
    (heap y).mom = some m ∧ (heap y).sib = after.head?
  free : ∀ {y}, (∀ m, y ∉ kids m) → (heap y).mom = none ∧ (heap y).sib = none

section

variable {heap : Heap ι} {kids : ι → List ι} {w y m : ι}

theorem Linked.mom_of_mem (hlinked : Linked heap kids) (hmem : y ∈ kids m) :
    (heap y).mom = some m := by
  obtain ⟨before, after, hkids⟩ := List.append_of_mem hmem
  exact (hlinked.packed hkids).1

theorem Linked.mem_of_mom (hlinked : Linked heap kids) (hmom : (heap y).mom = some m) :
    y ∈ kids m := by
  by_contra hnot
  by_cases hfree : ∀ w, y ∉ kids w
  · cases hmom.symm.trans (hlinked.free hfree).1
  · obtain ⟨w, hmem⟩ := not_forall_not.mp hfree
    cases hmom.symm.trans (hlinked.mom_of_mem hmem)
    exact hnot hmem

theorem Linked.sib_iff (hlinked : Linked heap kids) : (heap y).sib ≠ none ↔ HasNext kids y := by
  constructor
  · intro hsib
    by_cases hfree : ∀ w, y ∉ kids w
    · exact absurd (hlinked.free hfree).2 hsib
    · obtain ⟨m, hmem⟩ := not_forall_not.mp hfree
      obtain ⟨before, after, hkids⟩ := List.append_of_mem hmem
      cases after with
      | nil => exact absurd (hlinked.packed hkids).2 hsib
      | cons next after => exact ⟨m, before, next, after, hkids⟩
  · rintro ⟨m, before, next, after, hkids⟩ hnone
    cases hnone.symm.trans (hlinked.packed hkids).2

/-- The loop along the children comes to the last of them. -/
theorem lastSib_eq {list : List ι}
    (hsib : ∀ before y after, list = before ++ y :: after → (heap y).sib = after.head?)
    (rounds : ℕ) {before after : List ι} (hlist : list = before ++ y :: after) :
    lastSib heap rounds y =
      if after.length < rounds then (y :: after).getLast? else none := by
  induction rounds generalizing before y after with
  | zero => rfl
  | succ rounds ih =>
      rw [lastSib, hsib before y after hlist]
      cases after with
      | nil => rfl
      | cons next after =>
          rw [List.append_cons] at hlist
          rw [List.head?_cons, List.getLast?_cons_cons, List.length_cons]
          dsimp only
          rw [ih hlist]
          simp only [Nat.succ_lt_succ_iff]

theorem linked_new : Linked (newWidgets : Heap ι) fun _ => [] where
  child _ := rfl
  packed heq := absurd heq.symm (List.append_ne_nil_of_right_ne_nil _ (List.cons_ne_nil _ _))
  free _ := ⟨rfl, rfl⟩

section Pack

variable [DecidableEq ι] {heap' : Heap ι} {p c : ι}

/-- What `pack_widget` has to leave. -/
def packedHeap (heap : Heap ι) (kids : ι → List ι) (p c : ι) : Heap ι := fun w =>
  { mom := if w = c then some p else (heap w).mom
    sib := if w = c then none
      else if (kids p).getLast? = some w then some c else (heap w).sib
    child := if w = p ∧ kids p = [] then some c else (heap w).child }

theorem packWidget_eq (hlinked : Linked heap kids) (hfree : ∀ w, c ∉ kids w) (hne : c ≠ p)
    (rounds : ℕ) :
    packWidget rounds heap p c =
      if (kids p).length ≤ rounds then some (packedHeap heap kids p c) else none := by
  have hchild : (Function.update heap c { heap c with sib := none, mom := some p } p).child =
      (kids p).head? := by
    rw [Function.update_of_ne hne.symm]
    exact hlinked.child p
  rw [packWidget]
  dsimp only
  rw [hchild]
  cases hkids : kids p with
  | nil =>
      rw [List.length_nil, if_pos (Nat.zero_le rounds)]
      apply congrArg some
      funext w
      by_cases hp : w = p
      · subst hp
        ext1
        · simp [packedHeap, hne.symm]
        · simp [packedHeap, hne.symm, hkids]
        · simp [packedHeap, hkids]
      · by_cases hc : w = c
        · subst hc
          ext1
          · simp [packedHeap, hne]
          · simp [packedHeap, hne]
          · simp [packedHeap, hne]
        · simp [packedHeap, hp, hc, hkids]
  | cons first rest =>
      have hsib : ∀ before y after, kids p = before ++ y :: after →
          (Function.update heap c { heap c with sib := none, mom := some p } y).sib =
            after.head? := by
        intro before y after heq
        have hyc : y ≠ c := by
          rintro rfl
          exact hfree p (heq ▸ List.mem_append_right before List.mem_cons_self)
        rw [Function.update_of_ne hyc]
        exact (hlinked.packed heq).2
      have hfront : kids p = [] ++ first :: rest := hkids
      rw [List.head?_cons]
      dsimp only
      rw [lastSib_eq hsib rounds hfront, List.length_cons]
      by_cases hrounds : rest.length < rounds
      · have hlast : (first :: rest).getLast? =
            some ((first :: rest).getLast (List.cons_ne_nil first rest)) :=
          List.getLast?_eq_some_getLast _
        generalize (first :: rest).getLast (List.cons_ne_nil first rest) = last at hlast
        have hlastc : last ≠ c := by
          rintro rfl
          exact hfree p (hkids ▸ List.mem_of_getLast? hlast)
        rw [if_pos hrounds, if_pos (Nat.succ_le_of_lt hrounds), hlast]
        apply congrArg some
        funext w
        by_cases hw : w = last
        · subst hw
          ext1
          · simp [packedHeap, hlastc]
          · simp [packedHeap, hlastc, hkids, hlast]
          · simp [packedHeap, hlastc, hkids]
        · by_cases hc : w = c
          · subst hc
            ext1
            · simp [packedHeap, hw]
            · simp [packedHeap, hw]
            · simp [packedHeap, hw, hkids]
          · have hw' : last ≠ w := fun heq => hw heq.symm
            ext1
            · simp [packedHeap, hw, hc]
            · simp [packedHeap, hw, hc, hkids, hlast, hw']
            · simp [packedHeap, hw, hc, hkids]
      · rw [if_neg hrounds, if_neg fun hle => hrounds (Nat.lt_of_succ_le hle)]
        rfl

/-- There are rounds enough for any children. -/
theorem exists_packWidget (hlinked : Linked heap kids) (hfree : ∀ w, c ∉ kids w)
    (hne : c ≠ p) : ∃ rounds heap', packWidget rounds heap p c = some heap' :=
  ⟨_, _, (packWidget_eq hlinked hfree hne _).trans (if_pos (Nat.le_refl _))⟩

/-- The pointers follow the calls. -/
theorem Linked.graft (hlinked : Linked heap kids) (hforest : IsForest kids)
    (hfree : ∀ w, c ∉ kids w) : Linked (packedHeap heap kids p c) (Forest.graft kids p c) := by
  refine ⟨?_, ?_, ?_⟩
  · intro w
    by_cases hw : w = p
    · subst hw
      rw [Forest.graft, Function.update_self]
      cases hkids : kids w with
      | nil => simp [packedHeap, hkids]
      | cons first rest => simp [packedHeap, hkids, hlinked.child w]
    · rw [Forest.graft, Function.update_of_ne hw]
      simp [packedHeap, hw, hlinked.child w]
  · intro m before y after hgraft
    by_cases hm : m = p
    · subst hm
      rw [Forest.graft, Function.update_self] at hgraft
      rcases List.eq_nil_or_concat after with rfl | ⟨front, last, rfl⟩
      · obtain ⟨hfront, hy⟩ := List.append_inj' hgraft rfl
        cases hy
        exact ⟨if_pos rfl, if_pos rfl⟩
      · rw [List.concat_eq_append, ← List.cons_append, ← List.append_assoc] at hgraft
        obtain ⟨hkids, hlast⟩ := List.append_inj' hgraft rfl
        cases hlast
        have hyc : y ≠ c := by
          rintro rfl
          exact hfree m (hkids ▸ List.mem_append_right before List.mem_cons_self)
        obtain ⟨hmom, hsib⟩ := hlinked.packed hkids
        refine ⟨(if_neg hyc).trans hmom, (if_neg hyc).trans ?_⟩
        cases front with
        | nil =>
            rw [if_pos]
            · rfl
            · rw [hkids, List.getLast?_append_cons, List.getLast?_singleton]
        | cons next front =>
            rw [if_neg]
            · exact hsib
            · intro hlast
              have hnodup := hforest.nodup m
              rw [hkids, List.getLast?_append_cons, List.getLast?_cons_cons] at hlast
              rw [hkids] at hnodup
              exact (List.nodup_cons.mp (List.nodup_append.mp hnodup).2.1).1
                (List.mem_of_getLast? hlast)
    · rw [Forest.graft, Function.update_of_ne hm] at hgraft
      have hmem : y ∈ kids m := hgraft ▸ List.mem_append_right before List.mem_cons_self
      have hyc : y ≠ c := by
        rintro rfl
        exact hfree m hmem
      obtain ⟨hmom, hsib⟩ := hlinked.packed hgraft
      refine ⟨(if_neg hyc).trans hmom, ((if_neg hyc).trans (if_neg ?_)).trans hsib⟩
      intro hlast
      exact hm (hforest.unique hmem (List.mem_of_getLast? hlast))
  · intro y hy
    have hyc : y ≠ c := by
      rintro rfl
      exact hy p (mem_graft.mpr (.inr ⟨rfl, rfl⟩))
    have hold : ∀ m, y ∉ kids m := fun m hmem => hy m (mem_graft.mpr (.inl hmem))
    refine ⟨(if_neg hyc).trans (hlinked.free hold).1,
      ((if_neg hyc).trans (if_neg ?_)).trans (hlinked.free hold).2⟩
    intro hlast
    exact hold p (List.mem_of_getLast? hlast)

/-- What `pack_widget` builds is a forest, and the pointers are its. -/
theorem Built.linked (hbuilt : Built heap kids) : IsForest kids ∧ Linked heap kids := by
  induction hbuilt with
  | new => exact ⟨isForest_nil, linked_new⟩
  | @pack heap heap' kids p c rounds hbuilt hfree hnot hpack ih =>
      obtain ⟨hforest, hlinked⟩ := ih
      have hne : c ≠ p := by
        rintro rfl
        exact hnot Below.refl
      rw [packWidget_eq hlinked hfree hne] at hpack
      split at hpack
      · cases hpack
        exact ⟨hforest.graft hfree hnot, hlinked.graft hforest hfree⟩
      · cases hpack

end Pack

end

end Fip.Snazzy
