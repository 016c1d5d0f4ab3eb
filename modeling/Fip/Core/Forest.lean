import Mathlib.Logic.Relation
import Mathlib.Data.List.Nodup
import Mathlib.Tactic.Common

/-!
# Ordered forests

Each node has a list of children.  In a forest a node is the child of one node at
most, and nothing is above itself; `Preorder` lists what hangs below some nodes, each
node in front of its children.  A node that hangs nowhere may be put behind the
children of any node that is not below it.
-/

namespace Fip.Forest

variable {ι : Type*}

/-- A node and what hangs below it. -/
def Below (kids : ι → List ι) : ι → ι → Prop :=
  Relation.ReflTransGen fun w c => c ∈ kids w

/-- The nodes below each of a list, in depth-first order. -/
inductive Preorder (kids : ι → List ι) : List ι → List ι → Prop where
  | nil : Preorder kids [] []
  | cons {w : ι} {ws below rest : List ι} (hbelow : Preorder kids (kids w) below)
      (hrest : Preorder kids ws rest) : Preorder kids (w :: ws) (w :: below ++ rest)

structure IsForest (kids : ι → List ι) : Prop where
  nodup : ∀ w, (kids w).Nodup
  unique : ∀ {w w' c}, c ∈ kids w → c ∈ kids w' → w = w'
  ranked : ∃ rank : ι → ℕ, ∀ w c, c ∈ kids w → rank c < rank w

/-- The node has a sibling behind it. -/
def HasNext (kids : ι → List ι) (y : ι) : Prop :=
  ∃ m before next after, kids m = before ++ y :: next :: after

/-- Neither node is below the other. -/
def Apart (kids : ι → List ι) (a b : ι) : Prop := ¬ Below kids a b ∧ ¬ Below kids b a

/-- No node has children. -/
theorem isForest_nil : IsForest fun _ : ι => [] where
  nodup _ := List.nodup_nil
  unique hmem := absurd hmem List.not_mem_nil
  ranked := ⟨fun _ => 0, fun _ _ hmem => absurd hmem List.not_mem_nil⟩

variable {kids : ι → List ι} {ws nodes : List ι} {w c m x : ι}

theorem Below.refl : Below kids w w := Relation.ReflTransGen.refl

theorem Below.child (hmem : c ∈ kids w) : Below kids w c := Relation.ReflTransGen.single hmem

theorem Below.trans (hfirst : Below kids w c) (hsecond : Below kids c x) : Below kids w x :=
  Relation.ReflTransGen.trans hfirst hsecond

theorem Preorder.eq_nil (hpre : Preorder kids [] nodes) : nodes = [] := by
  cases hpre
  rfl

theorem Preorder.mem_iff (hpre : Preorder kids ws nodes) :
    x ∈ nodes ↔ ∃ w ∈ ws, Below kids w x := by
  induction hpre with
  | nil => simp
  | @cons w ws below rest hbelow hrest ihbelow ihrest =>
      rw [List.cons_append, List.mem_cons, List.mem_append, ihbelow, ihrest,
        List.exists_mem_cons_iff]
      constructor
      · rintro (rfl | ⟨c, hc, hx⟩ | hrest)
        · exact .inl .refl
        · exact .inl ((Below.child hc).trans hx)
        · exact .inr hrest
      · rintro (hx | hrest)
        · rcases Relation.ReflTransGen.cases_head hx with rfl | ⟨c, hc, hcx⟩
          · exact .inl rfl
          · exact .inr (.inl ⟨c, hc, hcx⟩)
        · exact .inr (.inr hrest)

namespace IsForest

theorem rank_le {rank : ι → ℕ} (hrank : ∀ w c, c ∈ kids w → rank c < rank w)
    (hbelow : Below kids w x) : rank x ≤ rank w := by
  induction hbelow with
  | refl => exact Nat.le_refl _
  | tail _ hmem ih => exact Nat.le_trans (Nat.le_of_lt (hrank _ _ hmem)) ih

variable (hforest : IsForest kids)

include hforest

/-- No node is below its children. -/
theorem not_below_child (hmem : c ∈ kids w) : ¬ Below kids c w := by
  obtain ⟨rank, hrank⟩ := hforest.ranked
  intro hbelow
  exact Nat.not_lt.mpr (rank_le hrank hbelow) (hrank w c hmem)

/-- The nodes above a node form a chain. -/
theorem below_or_below {a b : ι} (ha : Below kids a x) (hb : Below kids b x) :
    Below kids a b ∨ Below kids b a := by
  induction ha with
  | refl => exact .inr hb
  | tail hay hmem ih =>
      rcases Relation.ReflTransGen.cases_tail hb with rfl | ⟨z, hbz, hzmem⟩
      · exact .inl (hay.tail hmem)
      · rw [hforest.unique hzmem hmem] at hbz
        exact ih hbz

/-- Children of one node are not below each other. -/
theorem not_below_sibling {a b : ι} (ha : a ∈ kids m) (hb : b ∈ kids m) (hne : a ≠ b) :
    ¬ Below kids a b := by
  intro hbelow
  rcases Relation.ReflTransGen.cases_tail hbelow with rfl | ⟨z, haz, hzmem⟩
  · exact hne rfl
  · rw [hforest.unique hzmem hb] at haz
    exact hforest.not_below_child ha haz

theorem pairwise_kids (w : ι) : (kids w).Pairwise (Apart kids) := by
  apply (hforest.nodup w).pairwise_of_forall_ne
  intro a ha b hb hne
  exact ⟨hforest.not_below_sibling ha hb hne, hforest.not_below_sibling hb ha hne.symm⟩

/-- A traversal comes to no node twice. -/
theorem nodup_preorder (hpre : Preorder kids ws nodes)
    (hapart : ws.Pairwise (Apart kids)) : nodes.Nodup := by
  induction hpre with
  | nil => exact List.nodup_nil
  | @cons w ws below rest hbelow hrest ihbelow ihrest =>
      obtain ⟨hhead, htail⟩ := List.pairwise_cons.mp hapart
      rw [List.cons_append, List.nodup_cons, List.mem_append, not_or,
        List.nodup_append]
      refine ⟨⟨?_, ?_⟩, ihbelow (hforest.pairwise_kids w), ihrest htail, ?_⟩
      · intro hmem
        obtain ⟨c, hc, hcw⟩ := hbelow.mem_iff.mp hmem
        exact hforest.not_below_child hc hcw
      · intro hmem
        obtain ⟨other, hother, hbelow⟩ := hrest.mem_iff.mp hmem
        exact (hhead other hother).2 hbelow
      · rintro x hx y hy rfl
        obtain ⟨c, hc, hcx⟩ := hbelow.mem_iff.mp hx
        obtain ⟨other, hother, hox⟩ := hrest.mem_iff.mp hy
        rcases hforest.below_or_below ((Below.child hc).trans hcx) hox with hwo | how
        · exact (hhead other hother).1 hwo
        · exact (hhead other hother).2 how

/-- The children of a node are apart from what the node is apart from. -/
theorem apart_children (hapart : (w :: ws).Pairwise (Apart kids)) :
    (kids w ++ ws).Pairwise (Apart kids) := by
  obtain ⟨hhead, htail⟩ := List.pairwise_cons.mp hapart
  apply List.pairwise_append.mpr
  refine ⟨hforest.pairwise_kids w, htail, ?_⟩
  intro c hc other hother
  obtain ⟨hdown, hup⟩ := hhead other hother
  constructor
  · intro hbelow
    exact hdown ((Below.child hc).trans hbelow)
  · intro hbelow
    rcases Relation.ReflTransGen.cases_tail hbelow with rfl | ⟨z, hoz, hzmem⟩
    · exact hdown (Below.child hc)
    · rw [hforest.unique hzmem hc] at hoz
      exact hup hoz

/-- The nodes below one, without itself. -/
theorem mem_preorder_kids {below : List ι} (hpre : Preorder kids (kids w) below) :
    x ∈ below ↔ Below kids w x ∧ x ≠ w := by
  have hwhole : Preorder kids [w] (w :: below ++ []) := .cons hpre .nil
  have hnodup := hforest.nodup_preorder hwhole (List.pairwise_singleton _ w)
  have hmem := hwhole.mem_iff (x := x)
  rw [List.append_nil] at hnodup hmem
  rw [List.exists_mem_cons_iff, List.mem_cons] at hmem
  constructor
  · intro hbelow
    refine ⟨(hmem.mp (.inr hbelow)).resolve_right ?_, ?_⟩
    · rintro ⟨other, hother, _⟩
      exact List.not_mem_nil hother
    · rintro rfl
      exact (List.nodup_cons.mp hnodup).1 hbelow
  · rintro ⟨hbelow, hne⟩
    exact (hmem.mpr (.inl hbelow)).resolve_left hne

theorem exists_preorder (ws : List ι) : ∃ nodes, Preorder kids ws nodes := by
  obtain ⟨rank, hrank⟩ := hforest.ranked
  have hbounded : ∀ bound ws, (∀ w ∈ ws, rank w < bound) → ∃ nodes, Preorder kids ws nodes := by
    intro bound
    induction bound with
    | zero =>
        intro ws hws
        cases ws with
        | nil => exact ⟨[], .nil⟩
        | cons w ws => exact absurd (hws w List.mem_cons_self) (Nat.not_lt_zero _)
    | succ bound ih =>
        intro ws hws
        induction ws with
        | nil => exact ⟨[], .nil⟩
        | cons w ws ihws =>
            obtain ⟨below, hbelow⟩ := ih (kids w) fun c hc =>
              Nat.lt_of_lt_of_le (hrank w c hc) (Nat.le_of_lt_succ (hws w List.mem_cons_self))
            obtain ⟨rest, hrest⟩ := ihws fun other hother =>
              hws other (List.mem_cons_of_mem w hother)
            exact ⟨_, .cons hbelow hrest⟩
  obtain ⟨bound, hbound⟩ : ∃ bound, ∀ w ∈ ws, rank w < bound := by
    induction ws with
    | nil => exact ⟨0, fun w hw => absurd hw List.not_mem_nil⟩
    | cons w ws ih =>
        obtain ⟨bound, hbound⟩ := ih
        refine ⟨max bound (rank w + 1), ?_⟩
        intro other hother
        rcases List.mem_cons.mp hother with rfl | hmem
        · exact Nat.lt_of_lt_of_le (Nat.lt_succ_self _) (Nat.le_max_right _ _)
        · exact Nat.lt_of_lt_of_le (hbound other hmem) (Nat.le_max_left _ _)
  exact hbounded bound ws hbound

end IsForest

/-! ## Less children -/

section

variable {kids' : ι → List ι} {ws' nodes' : List ι}

theorem Preorder.append_inv {front back : List ι} (hpre : Preorder kids (front ++ back) nodes) :
    ∃ first second, nodes = first ++ second ∧ Preorder kids front first ∧
      Preorder kids back second := by
  induction front generalizing nodes with
  | nil => exact ⟨[], nodes, rfl, .nil, hpre⟩
  | cons w front ih =>
      cases hpre with
      | @cons _ _ below rest hbelow hrest =>
          obtain ⟨first, second, rfl, hfirst, hsecond⟩ := ih hrest
          exact ⟨w :: below ++ first, second, (List.append_assoc _ _ _).symm,
            .cons hbelow hfirst, hsecond⟩

theorem Preorder.append {front back : List ι} (hpre : Preorder kids front nodes)
    (hpre' : Preorder kids back nodes') : Preorder kids (front ++ back) (nodes ++ nodes') := by
  induction hpre with
  | nil => exact hpre'
  | cons hbelow _ _ ihrest =>
      rw [List.append_assoc]
      exact .cons hbelow ihrest

/-- Without some of the nodes the others come in the same order. -/
theorem Preorder.sublist (hless : ∀ w, (kids' w).Sublist (kids w))
    (hpre : Preorder kids ws nodes) (hws : ws'.Sublist ws) (hpre' : Preorder kids' ws' nodes') :
    nodes'.Sublist nodes := by
  induction hpre generalizing ws' nodes' with
  | nil =>
      cases hws
      cases hpre'
      exact .slnil
  | @cons w ws below rest hbelow hrest ihbelow ihrest =>
      cases hws with
      | cons _ hws => exact (ihrest hws hpre').trans (List.sublist_append_right (w :: below) rest)
      | cons_cons _ hws =>
          cases hpre' with
          | cons hbelow' hrest' =>
              exact ((ihbelow (hless w) hbelow').cons_cons w).append (ihrest hws hrest')

theorem Below.mono (hless : ∀ w, (kids' w).Sublist (kids w)) (hbelow : Below kids' w x) :
    Below kids w x :=
  Relation.ReflTransGen.mono (fun w _ hmem => (hless w).mem hmem) _ _ hbelow

theorem Apart.mono (hless : ∀ w, (kids' w).Sublist (kids w)) (hapart : Apart kids w x) :
    Apart kids' w x :=
  ⟨fun hbelow => hapart.1 (hbelow.mono hless), fun hbelow => hapart.2 (hbelow.mono hless)⟩

theorem IsForest.mono (hless : ∀ w, (kids' w).Sublist (kids w)) (hforest : IsForest kids) :
    IsForest kids' where
  nodup w := (hless w).nodup (hforest.nodup w)
  unique hmem hmem' := hforest.unique ((hless _).mem hmem) ((hless _).mem hmem')
  ranked := by
    obtain ⟨rank, hrank⟩ := hforest.ranked
    exact ⟨rank, fun w c hmem => hrank w c ((hless w).mem hmem)⟩

end

/-- A node is put behind the children of another one. -/
def graft [DecidableEq ι] (kids : ι → List ι) (p c : ι) : ι → List ι :=
  Function.update kids p (kids p ++ [c])

theorem mem_graft [DecidableEq ι] {p : ι} :
    x ∈ graft kids p c w ↔ x ∈ kids w ∨ w = p ∧ x = c := by
  by_cases hw : w = p
  · subst hw
    rw [graft, Function.update_self, List.mem_append, List.mem_singleton]
    simp
  · rw [graft, Function.update_of_ne hw]
    simp [hw]

/-- A way down that takes the new node comes by the other one. -/
theorem below_of_graft [DecidableEq ι] {p d : ι} (hbelow : Below (graft kids p c) d x) :
    Below kids d x ∨ Below kids d p := by
  induction hbelow with
  | refl => exact .inl Below.refl
  | tail _ hmem ih =>
      rcases ih with hdown | hdown
      · rcases mem_graft.mp hmem with hmem | ⟨rfl, _⟩
        · exact .inl (hdown.tail hmem)
        · exact .inr hdown
      · exact .inr hdown

theorem IsForest.graft [DecidableEq ι] {p : ι} (hforest : IsForest kids)
    (hfree : ∀ w, c ∉ kids w) (hnot : ¬ Below kids c p) : IsForest (graft kids p c) := by
  classical
  obtain ⟨rank, hrank⟩ := hforest.ranked
  refine ⟨?_, ?_, fun w => if Below kids w p then rank w + rank c + 1 else rank w, ?_⟩
  · intro w
    by_cases hw : w = p
    · subst hw
      rw [Forest.graft, Function.update_self]
      exact List.Nodup.append (hforest.nodup w) (List.nodup_singleton c)
        (List.disjoint_singleton.mpr (hfree w))
    · rw [Forest.graft, Function.update_of_ne hw]
      exact hforest.nodup w
  · intro w w' x hw hw'
    rw [mem_graft] at hw hw'
    rcases hw with hw | ⟨rfl, rfl⟩
    · rcases hw' with hw' | ⟨rfl, rfl⟩
      · exact hforest.unique hw hw'
      · exact absurd hw (hfree w)
    · rcases hw' with hw' | ⟨rfl, _⟩
      · exact absurd hw' (hfree w')
      · rfl
  · intro w x hx
    rw [mem_graft] at hx
    dsimp only
    rcases hx with hx | ⟨rfl, rfl⟩
    · have hless := hrank w x hx
      by_cases habove : Below kids x p
      · rw [if_pos habove, if_pos ((Below.child hx).trans habove)]
        omega
      · rw [if_neg habove]
        split <;> omega
    · rw [if_neg hnot, if_pos Below.refl]
      omega

end Fip.Forest
