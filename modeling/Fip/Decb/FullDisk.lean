import Fip.Decb.Invariant

/-!
# `put` on a disk that is too full

`findgran` answers -1 when no granule is free, but `put` stores the answer in
an unsigned byte before it tests it, so the test never holds.  The loop goes on
with granule 255: it seeks past the end of the disk and then uses the number
as an index into the table.
-/

namespace Fip.Decb

open Fip.ByteFile

/-- `put` reports an error, keeps the table and the directory, and writes
nowhere but in free granules. -/
def PutRefused (opts : Opts) (image src name : List UInt8) : Prop :=
  ∃ message image', put opts image src name = .error ⟨.exit message, image'⟩ ∧
    fatOf image' opts.offset = fatOf image opts.offset ∧
    (∀ slot < slots,
      entryOf image' opts.offset slot = entryOf image opts.offset slot) ∧
    ∀ index, image'[index]? ≠ image[index]? →
      ∃ granule, fatOf image opts.offset granule = 0xff ∧
        inGran opts.offset granule index

/-- The two ways to leave the loop with granule number 255 in hand: by the
index out of range, or before it.  What was left of the source then lies past
the end of the disk. -/
def Lost (opts : Opts) (src : List UInt8)
    (result : Except Stop (Fat × List UInt8 × UInt8 × ℕ)) : Prop :=
  ∃ image', (src.length % granz ≠ 0 →
      seekgran opts.offset 255 < image'.length) ∧
    (result = .error ⟨.undefined, image'⟩ ∨
      ∃ fat' size, result = .ok (fat', image', 255, size))

theorem putLoop_lost (opts : Opts) (first : UInt8) (fat : Fat)
    (image src : List UInt8) :
    Lost opts src (putLoop opts first fat image 255 src) := by
  refine ⟨pwrite image (seekgran opts.offset 255) (opts.toDisk (src.take granz)),
    fun hrest => ?_, ?_⟩
  · have hsource : src ≠ [] := by
      rintro rfl
      exact hrest rfl
    have hlength := List.length_pos_iff.mpr hsource
    have hpositive : 0 < granz := by decide
    have hdata : 0 < (opts.toDisk (src.take granz)).length := by
      rw [length_toDisk, List.length_take]
      omega
    have hend := le_length_pwrite image (seekgran opts.offset 255)
      (List.length_pos_iff.mp hdata)
    omega
  · rw [putLoop]
    dsimp only
    split
    · exact .inr ⟨_, _, rfl⟩
    · rw [dif_neg (by decide)]
      exact .inl rfl

/-- With fewer free granules than the source needs, the loop gets there. -/
theorem putLoop_overflow (opts : Opts) (first : UInt8) (fat : Fat)
    (image : List UInt8) (x : Fin 68) (src : List UInt8)
    (hused : fat x ≠ 0xff)
    (hfull : (freeGrans fat).card < src.length / granz) :
    Lost opts src (putLoop opts first fat image (UInt8.ofNat x) src) := by
  induction hsize : src.length using Nat.strong_induction_on
    generalizing fat image x src with
  | _ size ih =>
  subst hsize
  have hpositive : 0 < granz := by decide
  have hlong : granz ≤ src.length :=
    (Nat.div_pos_iff.mp (Nat.lt_of_le_of_lt (Nat.zero_le _) hfull)).2
  -- what is lost of the rest of the source is what is lost of the source
  have hrest : ∀ result, Lost opts (src.drop granz) result →
      Lost opts src result := by
    rintro result ⟨image', hlong', hresult⟩
    rw [List.length_drop, ← Nat.mod_eq_sub_mod hlong] at hlong'
    exact ⟨image', hlong', hresult⟩
  rw [putLoop]
  simp only [List.length_take, Nat.min_eq_left hlong, lt_irrefl, dite_false,
    toNat_ofNat_granule, Fin.isLt, dite_true, Fin.eta, Int.natCast_nonneg,
    not_lt.mpr, if_false]
  rcases Finset.eq_empty_or_nonempty (freeGrans fat) with hnone | hsome
  · rw [findgran_of_full hnone, ofInt_neg_one]
    exact hrest _ (putLoop_lost _ _ _ _ _)
  · obtain ⟨next, hfree, hfind⟩ := findgran_of_free hsome
    have hne : next ≠ x := fun heq => hused (heq ▸ hfree)
    have hfree' := freeGrans_link hused next
    rw [hfind, ofInt_granule]
    refine hrest _ (ih _ ?_ _ _ next _ ?_ ?_ rfl)
    · rw [List.length_drop]
      omega
    · dsimp only
      rw [Function.update_of_ne hne, Function.update_self]
      decide
    · have hcount := Nat.div_eq_sub_div hpositive hlong
      have hcard := Finset.card_pos.mpr hsome
      rw [hfree', Finset.card_erase_of_mem (mem_freeGrans.mpr hfree),
        List.length_drop]
      rw [hcount] at hfull
      exact Nat.sub_lt_right_of_lt_add hcard hfull

theorem find_eq_none_of_new {image name : List UInt8} {offset : ℕ}
    {reserved : Finset (Fin 68)} (hinv : FsInv image offset reserved)
    (hfits : Fits name) (hnew : ∀ slot, LiveSlot image offset slot →
      (entryOf image offset slot).key ≠ nameForm name) :
    find image offset name = .ok none := by
  rcases find_cases hinv.holds hfits with
    ⟨slot, hslot, hkey, hmark, _, _⟩ | ⟨_, hfind⟩
  · exact absurd hkey (hnew slot (hinv.found hslot hkey hmark).1)
  · exact hfind

/-- A free slot lets `put` start, and a file too large for the table then
takes it out of the table. -/
theorem put_overflow (opts : Opts) {image src name : List UInt8}
    {reserved : Finset (Fin 68)} (hinv : FsInv image opts.offset reserved)
    (hfits : Fits name) (hnew : ∀ slot, LiveSlot image opts.offset slot →
      (entryOf image opts.offset slot).key ≠ nameForm name)
    (hfull : (freeGrans (fatOf image opts.offset)).card <
      src.length / granz + 1)
    (hslot : ∃ slot < slots, (entryOf image opts.offset slot).isFree) :
    ∃ image', put opts image src name = .error ⟨.undefined, image'⟩ ∧
      (src.length % granz ≠ 0 → seekgran opts.offset 255 < image'.length) := by
  have hfind := find_eq_none_of_new hinv hfits hnew
  rcases scan_slotVisit_cases hinv.holds with
    ⟨slot, _, _, _, hscan⟩ | ⟨hall, _⟩
  · have hloop : Lost opts src (putLoop opts
        (UInt8.ofInt (findgran (fatOf image opts.offset)).1)
        (findgran (fatOf image opts.offset)).2 image
        (UInt8.ofInt (findgran (fatOf image opts.offset)).1) src) := by
      rcases Finset.eq_empty_or_nonempty (freeGrans (fatOf image opts.offset))
        with hnone | hsome
      · rw [findgran_of_full hnone, ofInt_neg_one]
        exact putLoop_lost _ _ _ _ _
      · obtain ⟨x, hfree, hfirst⟩ := findgran_of_free hsome
        rw [hfirst, ofInt_granule]
        refine putLoop_overflow _ _ _ _ x _ ?_ ?_
        · dsimp only
          rw [Function.update_self]
          decide
        · rw [freeGrans_update_used (by decide),
            Finset.card_erase_of_mem (mem_freeGrans.mpr hfree)]
          have hcard := Finset.card_pos.mpr hsome
          exact Nat.sub_lt_right_of_lt_add hcard hfull
    obtain ⟨image', hlong, hresult⟩ := hloop
    refine ⟨image', ?_, hlong⟩
    simp only [put, loadfat_eq hinv.holds, hfind, hscan, Int.natCast_nonneg,
      not_lt.mpr, if_false]
    rcases hresult with hloop | ⟨fat', size, hloop⟩
    · rw [hloop]
    · rw [hloop]
      exact dif_neg (by decide)
  · obtain ⟨slot, hlt, hfree⟩ := hslot
    exact absurd hfree (hall slot hlt)

/-- A fresh disk, a new name, and a file of 68 granules and more. -/
private theorem fresh_tooFull :
    ∃ image, mkfs .initial [] = .ok image ∧
      FsInv image 0 (reservedGrans .initial) ∧
      (∀ slot, LiveSlot image 0 slot →
        (entryOf image 0 slot).key ≠ nameForm [0x41]) ∧
      (freeGrans (fatOf image 0)).card <
        (List.replicate 156673 (0x58 : UInt8)).length / granz + 1 ∧
      ∃ slot < slots, (entryOf image 0 slot).isFree := by
  obtain ⟨image, hmkfs, hinv⟩ := FsInv.mkfs .initial []
  obtain ⟨image', hmkfs', hstorable⟩ := storable_fresh []
  rw [hmkfs] at hmkfs'
  cases hmkfs'
  have hfresh := hstorable [] [0x41] (by decide) (by decide)
  refine ⟨image, hmkfs, hinv, fun slot hlive => hfresh.new slot hlive.1, ?_,
    hfresh.slot⟩
  have hcard := (freeGrans (fatOf image 0)).card_le_univ
  rw [Fintype.card_fin] at hcard
  rw [List.length_replicate]
  exact Nat.lt_succ_of_le hcard

end Fip.Decb
