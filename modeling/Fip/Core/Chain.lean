import Mathlib.Data.List.Nodup
import Mathlib.Logic.Relation
import Mathlib.Tactic.Common

/-!
# Chains of a linked allocation table

A table gives every node either its successor or an end mark.  `Chain next
start nodes mark` says that following the table from `start` visits `nodes`
and then meets `mark`.  A chain is determined by its start, repeats no node,
and depends on the table at its own nodes only.
-/

namespace Fip

variable {ι τ : Type*}

inductive Chain (next : ι → ι ⊕ τ) : ι → List ι → τ → Prop where
  | last {node : ι} {mark : τ} (hnext : next node = .inr mark) :
      Chain next node [node] mark
  | link {node succ : ι} {nodes : List ι} {mark : τ}
      (hnext : next node = .inl succ) (htail : Chain next succ nodes mark) :
      Chain next node (node :: nodes) mark

namespace Chain

variable {next next' : ι → ι ⊕ τ} {start other : ι} {nodes others : List ι}
variable {mark mark' : τ}

theorem mem_start (hchain : Chain next start nodes mark) : start ∈ nodes := by
  cases hchain <;> simp

theorem ne_nil (hchain : Chain next start nodes mark) : nodes ≠ [] :=
  List.ne_nil_of_mem hchain.mem_start

/-- A table has at most one chain from each node. -/
theorem unique (hchain : Chain next start nodes mark)
    (hother : Chain next start others mark') :
    nodes = others ∧ mark = mark' := by
  induction hchain generalizing others with
  | last hnext =>
      cases hother with
      | last hnext' =>
          rw [hnext] at hnext'
          exact ⟨rfl, Sum.inr.inj hnext'⟩
      | link hnext' => simp [hnext] at hnext'
  | link hnext _ ih =>
      cases hother with
      | last hnext' => simp [hnext] at hnext'
      | link hnext' htail' =>
          rw [hnext] at hnext'
          cases Sum.inl.inj hnext'
          obtain ⟨rfl, hmark⟩ := ih htail'
          exact ⟨rfl, hmark⟩

/-- From every node of a chain, the rest of it is a chain. -/
theorem exists_suffix (hchain : Chain next start nodes mark)
    (hmem : other ∈ nodes) :
    ∃ rest, Chain next other rest mark ∧ rest <:+ nodes := by
  induction hchain with
  | last hnext =>
      rw [List.mem_singleton] at hmem
      subst hmem
      exact ⟨_, .last hnext, List.suffix_rfl⟩
  | link hnext htail ih =>
      rcases List.mem_cons.mp hmem with rfl | hmem
      · exact ⟨_, .link hnext htail, List.suffix_rfl⟩
      · obtain ⟨rest, hrest, hsuffix⟩ := ih hmem
        exact ⟨rest, hrest, hsuffix.trans (List.suffix_cons _ _)⟩

/-- A chain that ends repeats no node: a repeated node would have two rests of
different lengths. -/
theorem nodup (hchain : Chain next start nodes mark) : nodes.Nodup := by
  induction hchain with
  | last => exact List.nodup_singleton _
  | link hnext htail ih =>
      refine List.nodup_cons.mpr ⟨fun hmem => ?_, ih⟩
      obtain ⟨rest, hrest, hsuffix⟩ := htail.exists_suffix hmem
      have hsame := (hrest.unique (.link hnext htail)).1
      have hlength := hsuffix.length_le
      rw [hsame, List.length_cons] at hlength
      omega

theorem next_ne_start (hchain : Chain next start nodes mark) : next start ≠ .inl start := by
  intro hself
  have hnodup := hchain.nodup
  cases hchain with
  | last hnext => cases hself.symm.trans hnext
  | link hnext htail =>
      cases hself.symm.trans hnext
      exact (List.nodup_cons.mp hnodup).1 htail.mem_start

/-- Frame: a chain survives every change of the table away from its nodes. -/
theorem congr (hchain : Chain next start nodes mark)
    (hagree : ∀ node ∈ nodes, next' node = next node) :
    Chain next' start nodes mark := by
  induction hchain with
  | last hnext =>
      exact .last ((hagree _ (List.mem_singleton_self _)).trans hnext)
  | link hnext _ ih =>
      refine .link ((hagree _ List.mem_cons_self).trans hnext) (ih ?_)
      intro node hnode
      exact hagree node (List.mem_cons_of_mem _ hnode)

end Chain

/-! ## What is reached -/

/-- Following the table from the first node comes to the second, on a cycle too. -/
def Leads (next : ι → ι ⊕ τ) : ι → ι → Prop :=
  Relation.ReflTransGen fun node succ => next node = .inl succ

section

variable {next next' : ι → ι ⊕ τ} {start succ node : ι} {mark : τ}

theorem leads_of_last (hnext : next start = .inr mark) : Leads next start node ↔ node = start := by
  constructor
  · intro hleads
    rcases Relation.ReflTransGen.cases_head hleads with rfl | ⟨other, hother, -⟩
    · rfl
    · cases hnext.symm.trans hother
  · rintro rfl
    exact .refl

/-- What is left of the way behind its first node does not need the link of that node,
unless it comes back to it. -/
theorem leads_of_link (hnext : next start = .inl succ)
    (hagree : ∀ other, other ≠ start → next' other = next other)
    (hcut : ∀ other, next' start ≠ .inl other) :
    Leads next start node ↔ node = start ∨ Leads next' succ node := by
  constructor
  · intro hleads
    induction hleads with
    | refl => exact .inl rfl
    | @tail last node _ hlast ih =>
        right
        by_cases hback : last = start
        · subst hback
          cases hnext.symm.trans hlast
          exact .refl
        · exact (ih.resolve_left hback).tail ((hagree last hback).trans hlast)
  · rintro (rfl | hleads)
    · exact .refl
    · refine .head hnext (Relation.ReflTransGen.mono ?_ _ _ hleads)
      intro other after hafter
      by_cases hother : other = start
      · exact absurd (hother ▸ hafter) (hcut after)
      · exact (hagree other hother).symm.trans hafter

end

end Fip
