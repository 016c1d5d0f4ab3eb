import Fip.Bfc.Body

/-!
# The labels of a body

The code of a body defines the labels it takes, each of them once, and refers to
no others.  So a label that is looked up in the whole code is found where the
piece of code that defines it stands.
-/

namespace Fip.Bfc

namespace Body

/-- The labels from `l` on are defined once each, and no others are. -/
theorem count_label (refs : Refs) (body : Body) (l m : ℕ) :
    (body.code refs l).count (.label m) =
      if l ≤ m ∧ m < l + body.labels then 1 else 0 := by
  induction body generalizing l with
  | empty =>
      rw [code, labels, List.count_nil, if_neg (by omega)]
  | lit x =>
      rw [labels, if_neg (by omega)]
      rfl
  | call ref =>
      rw [labels, if_neg (by omega)]
      rfl
  | seq first second ihfirst ihsecond =>
      simp only [code, labels, List.count_append, ihfirst, ihsecond]
      grind
  | ifThen yes ih =>
      simp [code, labels, List.count_append, List.count_cons, ih]
      grind
  | ifElse yes no ihyes ihno =>
      simp [code, labels, List.count_append, List.count_cons, ihyes, ihno]
      grind
  | beginUntil body ih =>
      simp [code, labels, List.count_append, List.count_cons, ih]
      grind
  | beginAgain body ih =>
      simp [code, labels, List.count_append, List.count_cons, ih]
      grind
  | beginWhile condition body ihcondition ihbody =>
      simp [code, labels, List.count_append, List.count_cons, ihcondition, ihbody]
      grind
  | forNext body ih =>
      simp [code, labels, List.count_append, List.count_cons, ih]
      grind

/-- Branches go to labels that the body takes. -/
theorem dwLabel_mem {refs : Refs} {body : Body} {l m : ℕ}
    (hmem : .dwLabel m ∈ body.code refs l) : l ≤ m ∧ m < l + body.labels := by
  induction body generalizing l with
  | empty => simp [code] at hmem
  | lit x => simp [code] at hmem
  | call ref => simp [code] at hmem
  | seq first second ihfirst ihsecond =>
      simp only [code, List.mem_append] at hmem
      simp only [labels]
      rcases hmem with hmem | hmem
      · have := ihfirst hmem
        omega
      · have := ihsecond hmem
        omega
  | ifThen yes ih =>
      simp [code] at hmem
      simp only [labels]
      rcases hmem with rfl | hmem
      · omega
      · have := ih hmem
        omega
  | ifElse yes no ihyes ihno =>
      simp [code] at hmem
      simp only [labels]
      rcases hmem with rfl | hmem | rfl | hmem
      · omega
      · have := ihyes hmem
        omega
      · omega
      · have := ihno hmem
        omega
  | beginUntil body ih =>
      simp [code] at hmem
      simp only [labels]
      rcases hmem with hmem | rfl
      · have := ih hmem
        omega
      · omega
  | beginAgain body ih =>
      simp [code] at hmem
      simp only [labels]
      rcases hmem with hmem | rfl
      · have := ih hmem
        omega
      · omega
  | beginWhile condition body ihcondition ihbody =>
      simp [code] at hmem
      simp only [labels]
      rcases hmem with hmem | rfl | hmem | rfl
      · have := ihcondition hmem
        omega
      · omega
      · have := ihbody hmem
        omega
      · omega
  | forNext body ih =>
      simp [code] at hmem
      simp only [labels]
      rcases hmem with rfl | hmem | rfl
      · omega
      · have := ih hmem
        omega
      · omega

/-- Each label that a branch goes to is defined once. -/
theorem count_label_of_mem {refs : Refs} {body : Body} {l m : ℕ}
    (hmem : .dwLabel m ∈ body.code refs l) :
    (body.code refs l).count (.label m) = 1 := by
  rw [count_label, if_pos (dwLabel_mem hmem)]

end Body

/-- Behind the label is the rest of the piece of code and what follows it. -/
theorem Code.find_append {l : ℕ} {front back : Code} (hnotin : .label l ∉ front) :
    Code.find l (front ++ .label l :: back) = some (.label l :: back) := by
  induction front with
  | nil => rw [List.nil_append, Code.find, if_pos rfl]
  | cons item front ih =>
      rw [List.mem_cons, not_or] at hnotin
      rw [List.cons_append, Code.find, if_neg (Ne.symm hnotin.1), ih hnotin.2]

/-- In the whole code, the labels of a piece are found in the piece, which is
followed by `next`. -/
def Linked (whole piece next : Code) : Prop :=
  ∀ front l back, piece = front ++ .label l :: back →
    whole.find l = some (.label l :: (back ++ next))

namespace Linked

variable {whole first second next : Code} {item : Item} {l : ℕ}

theorem left (hlinked : Linked whole (first ++ second) next) :
    Linked whole first (second ++ next) := by
  intro front l back heq
  have hwhole := hlinked front l (back ++ second) (by rw [heq, List.append_assoc]; rfl)
  rw [hwhole, List.append_assoc]

theorem right (hlinked : Linked whole (first ++ second) next) :
    Linked whole second next := by
  intro front l back heq
  exact hlinked (first ++ front) l back (by rw [heq, List.append_assoc])

theorem tail (hlinked : Linked whole (item :: first) next) : Linked whole first next :=
  fun front l back heq => hlinked (item :: front) l back (by rw [heq]; rfl)

theorem head (hlinked : Linked whole (.label l :: first) next) :
    whole.find l = some (.label l :: (first ++ next)) :=
  hlinked [] l first rfl

end Linked

/-- A label does not stand in front of itself. -/
theorem Body.label_notMem (refs : Refs) (body : Body) {l m : ℕ} {front back : Code}
    (heq : body.code refs l = front ++ .label m :: back) : .label m ∉ front := by
  intro hmem
  have hcount := count_label refs body l m
  have hfront := List.count_pos_iff.mpr hmem
  rw [heq, List.count_append, List.count_cons_self] at hcount
  split at hcount <;> omega

/-- The code of a body is linked in itself. -/
theorem Body.linked (refs : Refs) (body : Body) (l : ℕ) (next : Code) :
    Linked (body.code refs l ++ next) (body.code refs l) next := by
  intro front m back heq
  have hnotin := body.label_notMem refs heq
  rw [heq, List.append_assoc, List.cons_append, Code.find_append hnotin]

end Fip.Bfc
