import Fip.Decb.Allocation

/-!
# What `delchain` frees

`delchain` follows the links of the table and frees each granule before it goes on.  It
comes to its end on cycles too, where it meets a byte that it has set itself, and it
frees the granules that the links led to.
-/

namespace Fip.Decb

/-- Each byte of the table is a granule, or ends a file or is free. -/
def Linked (fat : Fat) : Prop :=
  ∀ granule, (fat granule).toNat < 68 ∨ 0xc0 ≤ (fat granule).toNat

/-- The chain from a granule is deleted: what the links lead to is free, and nothing
else has changed. -/
structure Deleted (fat fat' : Fat) (first : Fin 68) : Prop where
  freed : ∀ granule, Leads (fatNext fat) first granule → fat' granule = 0xff
  kept : ∀ granule, ¬ Leads (fatNext fat) first granule → fat' granule = fat granule

section

variable {fat : Fat} {first : Fin 68}

theorem Linked.update (hlinked : Linked fat) :
    Linked (Function.update fat first 0xff) := by
  intro granule
  by_cases hgranule : granule = first
  · subst hgranule
    rw [Function.update_self]
    exact .inr (by decide)
  · rw [Function.update_of_ne hgranule]
    exact hlinked granule

/-- A free granule ends the loop, so that only used ones are counted. -/
theorem card_usedGrans_update (hused : fat first ≠ 0xff) :
    (usedGrans (Function.update fat first 0xff)).card < (usedGrans fat).card := by
  rw [usedGrans_update_free]
  exact Finset.card_erase_lt_of_mem (mem_usedGrans.mpr hused)

/-- At the end of a chain. -/
theorem deleted_of_last (hlast : 68 ≤ (fat first).toNat) :
    Deleted fat (Function.update fat first 0xff) first := by
  have hleads : ∀ granule, Leads (fatNext fat) first granule ↔ granule = first :=
    fun _ => leads_of_last (fatNext_mark fat first hlast)
  constructor
  · intro granule hgranule
    rw [(hleads granule).mp hgranule, Function.update_self]
  · intro granule hgranule
    rw [hleads] at hgranule
    exact Function.update_of_ne hgranule ..

/-- In front of the deletion of the rest. -/
theorem deleted_of_link {fat' : Fat} {succ : Fin 68} (hnext : fatNext fat first = .inl succ)
    (hrest : Deleted (Function.update fat first 0xff) fat' succ) : Deleted fat fat' first := by
  have hfree : fatNext (Function.update fat first 0xff) first = .inr 0xff := by
    rw [fatNext_mark]
    · rw [Function.update_self]
    · rw [Function.update_self]
      decide
  have hleads : ∀ granule, Leads (fatNext fat) first granule ↔
      granule = first ∨ Leads (fatNext (Function.update fat first 0xff)) succ granule := by
    intro granule
    apply leads_of_link hnext
    · intro other hother
      exact fatNext_congr (Function.update_of_ne hother ..)
    · intro other hother
      cases hfree.symm.trans hother
  constructor
  · intro granule hgranule
    by_cases hrestLeads : Leads (fatNext (Function.update fat first 0xff)) succ granule
    · exact hrest.freed granule hrestLeads
    · rw [hrest.kept granule hrestLeads, ((hleads granule).mp hgranule).resolve_right hrestLeads,
        Function.update_self]
  · intro granule hgranule
    rw [hleads, not_or] at hgranule
    rw [hrest.kept granule hgranule.2, Function.update_of_ne hgranule.1]

end

/-- `delchain` frees what is reached from the first granule, and nothing else. -/
theorem delchain_deletes {fat : Fat} (hlinked : Linked fat) (first : Fin 68) :
    ∃ fat', delchain fat (UInt8.ofNat first) = some fat' ∧ Deleted fat fat' first := by
  induction hcard : (usedGrans fat).card using Nat.strongRecOn generalizing fat first with
  | ind card ih =>
      subst hcard
      rw [delchain_granule]
      rcases hlinked first with hlink | hlast
      · have hnext : fatNext fat first = .inl ⟨(fat first).toNat, hlink⟩ := dif_pos hlink
        have hvalue := fatNext_eq_inl hnext
        have hused : fat first ≠ 0xff := by
          rw [hvalue]
          exact ofNat_granule_ne_free _
        obtain ⟨fat', hrun, hrest⟩ :=
          ih _ (card_usedGrans_update hused) hlinked.update ⟨(fat first).toNat, hlink⟩ rfl
        rw [hvalue]
        exact ⟨fat', hrun, deleted_of_link hnext hrest⟩
      · exact ⟨_, delchain_last ((isLast_iff _).mpr hlast),
          deleted_of_last (Nat.le_trans (by decide) hlast)⟩

/-- Two granules that link to each other, and a free one that links nowhere. -/
def twoCycle (granule : Fin 68) : UInt8 :=
  if granule.val = 3 then 5 else if granule.val = 5 then 3 else 0xff

theorem delchain_deletes_twoCycle :
    ∃ fat', delchain twoCycle (UInt8.ofNat (3 : Fin 68)) = some fat' ∧
      Deleted twoCycle fat' 3 :=
  delchain_deletes (by unfold Linked; decide) 3

end Fip.Decb
