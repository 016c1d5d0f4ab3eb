import Fip.Decb.FullDisk

/-!
# Commands do not disturb other files or other disks

A `put`, `rm` or `label` changes no byte outside its disk, and `get` of any
other file goes on as before.  The exception is a `put` under a name that
starts with 0xFF: stored in a deleted slot, its entry reads as the end of the
directory, and the files behind it disappear.
-/

namespace Fip.Decb

open Fip.ByteFile

/-- `get` of every name that denotes the entry in `slot` does the same on both
images, and the entry keeps its type and its ascii flag. -/
structure SameFile (offset : ℕ) (image image' : List UInt8) (slot : ℕ) :
    Prop where
  type : (entryOf image' offset slot).type = (entryOf image offset slot).type
  aflag : (entryOf image' offset slot).aflag = (entryOf image offset slot).aflag
  get : ∀ (opts : Opts) (name : List UInt8), opts.offset = offset →
    nameForm name = (entryOf image offset slot).key →
    Decb.get opts image' name = Decb.get opts image name

/-- A command changes nothing outside the disk. -/
structure Confined (offset : ℕ) (image image' : List UInt8) : Prop where
  length_image : image'.length = image.length
  outside : ∀ index, ¬ (offset ≤ index ∧ index < offset + diskz) →
    image'[index]? = image[index]?

/-- A command changes nothing outside the disk and no live file but the
target. -/
structure Isolated (offset : ℕ) (image image' : List UInt8)
    (target : ℕ → Prop) : Prop extends Confined offset image image' where
  others : ∀ slot, LiveSlot image offset slot → ¬ target slot →
    SameFile offset image image' slot

section

variable {image image' : List UInt8} {offset slot : ℕ}
variable {reserved : Finset (Fin 68)}

/-- A live file is what `find` returns for its name. -/
theorem FsInv.find_live (hinv : FsInv image offset reserved)
    (hlive : LiveSlot image offset slot) {name : List UInt8}
    (hfits : Fits name) (hname : nameForm name = (entryOf image offset slot).key) :
    find image offset name = .ok (some (slot, entryOf image offset slot)) := by
  rcases find_cases hinv.holds hfits with
    ⟨found, hfound, hkey, hmark, _, hfind⟩ | ⟨hnone, _⟩
  · have hsame := hinv.names found slot (hinv.found hfound hkey hmark).1 hlive
      (hkey.trans hname)
    rwa [hsame] at hfind
  · obtain ⟨earlier, hle, hmark⟩ := hnone slot hlive.1 hname.symm
    rcases Nat.lt_or_eq_of_le hle with hlt | rfl
    · exact absurd hlive (hinv.marker earlier slot hlt hmark)
    · exact absurd (.inr hmark) hlive.2

/-- A live file is read as before if its entry, its table bytes and its
granules are kept and no slot before it turned into an end of directory or a
namesake. -/
theorem FsInv.sameFile (hinv : FsInv image offset reserved)
    (hlive : LiveSlot image offset slot) (hholds' : Holds image' offset)
    (hentry : entryOf image' offset slot = entryOf image offset slot)
    (hearlier : ∀ earlier < slot,
      entryOf image' offset earlier = entryOf image offset earlier ∨
      (entryOf image' offset earlier).name 0 ≠ 0xff ∧
        (entryOf image' offset earlier).key ≠ (entryOf image offset slot).key)
    (hkept : ∀ nodes, FileChain image offset slot nodes →
      ∀ granule ∈ nodes,
        fatOf image' offset granule = fatOf image offset granule ∧
        granOf image' offset granule = granOf image offset granule) :
    SameFile offset image image' slot := by
  refine ⟨by rw [hentry], by rw [hentry], ?_⟩
  rintro opts name rfl hname
  by_cases hfits : Fits name
  swap
  · simp only [Decb.get, loadfat_eq hinv.holds, loadfat_eq hholds',
      find_overrun hfits]
  have hfind := hinv.find_live hlive hfits hname
  have hbefore : ∀ earlier < slot,
      (entryOf image opts.offset earlier).name 0 ≠ 0xff ∧
        (entryOf image opts.offset earlier).key ≠ nameForm name := by
    intro earlier hlt
    refine ⟨fun hmark => hinv.marker earlier slot hlt hmark hlive, fun hkey => ?_⟩
    have hmark : (entryOf image opts.offset earlier).name 0 ≠ 0xff :=
      fun hmark => hinv.marker earlier slot hlt hmark hlive
    have hslot := hlive.1
    have hlive' := (hinv.found (by omega) hkey hmark).1
    have hsame := hinv.names earlier slot hlive' hlive (hkey.trans hname)
    omega
  have hfind' : find image' opts.offset name =
      .ok (some (slot, entryOf image opts.offset slot)) := by
    rw [← hentry]
    refine find_eq_some hholds' hfits hlive.1 (by rw [hentry, hname]) ?_ ?_
    · intro earlier hle
      rcases Nat.lt_or_eq_of_le hle with hlt | rfl
      · rcases hearlier earlier hlt with hsame | ⟨hmark, _⟩
        · rw [hsame]
          exact (hbefore earlier hlt).1
        · exact hmark
      · rw [hentry]
        exact fun hmark => hlive.2 (.inr hmark)
    · intro earlier hlt
      rcases hearlier earlier hlt with hsame | ⟨_, hkey⟩
      · rw [hsame]
        exact (hbefore earlier hlt).2
      · rwa [hname]
  obtain ⟨nodes, hfile, _⟩ := hinv.chain slot hlive
  obtain ⟨x, mark, hfirst, hchain, _⟩ := id hfile
  simp only [Decb.get, loadfat_eq hinv.holds, loadfat_eq hholds', hfind, hfind',
    hfirst]
  exact getLoop_congr hinv.holds hholds' _ hchain
    (fun granule hmem => (hkept nodes hfile granule hmem).1)
    (fun granule hmem => (hkept nodes hfile granule hmem).2) _ _

end

/-- No deleted slot precedes a live one. -/
def NoHole (image : List UInt8) (offset : ℕ) : Prop :=
  ∀ slot later, slot < later → (entryOf image offset slot).isFree →
    ¬ LiveSlot image offset later

/-- A `put` stays on its disk, and unless its name starts with 0xFF and goes in
front of a live entry, it leaves the other files alone. -/
theorem put_isolated {opts : Opts} {image src name image' : List UInt8}
    {reserved : Finset (Fin 68)} (hinv : FsInv image opts.offset reserved)
    (hroom : src.length / granz + 1 ≤
      (freeGrans (fatOf image opts.offset)).card)
    (hput : put opts image src name = .ok image') :
    Confined opts.offset image image' ∧
      (name.head? ≠ some 0xff ∨ NoHole image opts.offset →
        Isolated opts.offset image image' fun _ => False) := by
  have hfits : Fits name := by
    by_contra hlong
    rw [put_overrun hinv.holds hlong] at hput
    cases hput
  rcases find_cases hinv.holds hfits with ⟨_, _, _, _, _, hsome⟩ | ⟨hnone, hfind⟩
  · simp [put, loadfat_eq hinv.holds, hsome] at hput
  rcases scan_slotVisit_cases hinv.holds with
    ⟨slot, hslot, hfree, hearlier, hscan⟩ | ⟨_, hscan⟩
  swap
  · simp [put, loadfat_eq hinv.holds, hfind, hscan] at hput
  obtain ⟨image'', x, tail, hput', hdone⟩ := put_spec opts image src name
    hinv.holds hfind hslot hscan hroom
  rw [hput] at hput'
  cases hput'
  have hconfined : Confined opts.offset image image' :=
    ⟨hdone.length_image, hdone.outside⟩
  refine ⟨hconfined, fun hname => ⟨hconfined, fun other hlive _ => ?_⟩⟩
  have hne : other ≠ slot := by
    rintro rfl
    exact hlive.2 hfree
  have hkey : (entryOf image opts.offset other).key ≠ nameForm name := by
    intro hkey
    obtain ⟨earlier, hle, hmark⟩ := hnone other hlive.1 hkey
    rcases Nat.lt_or_eq_of_le hle with hlt | rfl
    · exact hinv.marker earlier other hlt hmark hlive
    · exact hlive.2 (.inr hmark)
  refine hinv.sameFile hlive (hinv.holds.of_length_eq hdone.length_image)
    (by rw [hdone.entries other hlive.1, if_neg hne]) ?_ ?_
  · intro earlier hlt
    have hslots := hlive.1
    rw [hdone.entries earlier (by omega)]
    by_cases heq : earlier = slot
    · rw [if_pos heq, key_putEntry, name_putEntry]
      refine .inr ⟨?_, hkey.symm⟩
      rcases hname with hhead | hhole
      · exact nameForm_visible hhead
      · exact absurd hlive (hhole slot other (heq ▸ hlt) hfree)
    · rw [if_neg heq]
      exact .inl rfl
  · intro nodes hfile granule hmem
    have hnot : granule ∉ x :: tail := fun hnew =>
      hfile.ne_free granule hmem (hdone.chain_free granule hnew)
    exact ⟨hdone.fat_frame granule hnot, hdone.gran_frame granule hnot⟩

theorem rm_isolated {opts : Opts} {image name image' : List UInt8}
    {reserved : Finset (Fin 68)} (hinv : FsInv image opts.offset reserved)
    (hrm : rm opts image name = .ok image') :
    Isolated opts.offset image image' fun slot =>
      (entryOf image opts.offset slot).key = nameForm name := by
  have hfits : Fits name := by
    by_contra hlong
    rw [rm_overrun hinv.holds hlong] at hrm
    cases hrm
  rcases find_cases hinv.holds hfits with
    ⟨slot, hslot, hkey, hmark, _, hfind⟩ | ⟨_, hfind⟩
  swap
  · simp [rm, loadfat_eq hinv.holds, hfind] at hrm
  obtain ⟨hlive, nodes, hfile⟩ := hinv.found hslot hkey hmark
  obtain ⟨x, mark, hfirst, hchain, hlow, _⟩ := id hfile
  obtain ⟨image'', hrm', hdone⟩ := rm_spec opts image name hinv.holds hslot
    hfind hfirst hchain ((isLast_iff mark).mpr hlow)
  rw [hrm] at hrm'
  cases hrm'
  refine ⟨⟨hdone.length_image, hdone.outside⟩, fun other hother htarget => ?_⟩
  have hne : other ≠ slot := by
    rintro rfl
    exact htarget hkey
  refine hinv.sameFile hother (hinv.holds.of_length_eq hdone.length_image)
    (by rw [hdone.entries other hother.1, if_neg hne]) ?_ ?_
  · intro earlier hlt
    have hslots := hother.1
    rw [hdone.entries earlier (by omega)]
    by_cases heq : earlier = slot
    · rw [if_pos heq]
      refine .inr ⟨by simp [Dirent.delete], fun hsame => hother.2 (.inl ?_)⟩
      rw [← Dirent.key_getD_zero, ← hsame, Dirent.key_getD_zero]
      simp [Dirent.delete]
    · rw [if_neg heq]
      exact .inl rfl
  · intro others hfile' granule hmem
    have hdisjoint := hinv.disjoint other slot others nodes hother hlive hne
      hfile' hfile
    exact ⟨by rw [hdone.fat, if_neg (hdisjoint hmem)], hdone.grans granule⟩

theorem length_labelSector (text : List UInt8) :
    (labelSector text).length = secz := by
  simp only [labelSector, List.length_append, List.length_replicate,
    List.length_take, secz]
  omega

theorem label_isolated {opts : Opts} {image text image' : List UInt8}
    {reserved : Finset (Fin 68)} (hinv : FsInv image opts.offset reserved)
    (hlabel : label opts image text = .ok image') :
    Isolated opts.offset image image' fun _ => False := by
  simp only [label, loadfat_eq hinv.holds, Except.ok.injEq] at hlabel
  have hframe := pwrite_inside hinv.holds (labelst + opts.offset)
    (labelSector text) (by
      simp only [length_labelSector, labelst, secz, diskz]
      omega)
  rw [hlabel, length_labelSector] at hframe
  have hentry : ∀ slot < slots,
      entryOf image' opts.offset slot = entryOf image opts.offset slot := by
    intro slot hslot
    rw [entryOf, entryOf, pread_congr]
    intro index hlow hhigh
    apply hframe.2
    simp only [dirst, slots, labelst] at *
    omega
  refine ⟨⟨hframe.1, fun index hindex => ?_⟩, fun slot hlive _ => ?_⟩
  · apply hframe.2
    simp only [labelst, secz, diskz] at *
    omega
  · refine hinv.sameFile hlive (hinv.holds.of_length_eq hframe.1)
      (hentry slot hlive.1) ?_ ?_
    · intro earlier hlt
      have hslots := hlive.1
      exact .inl (hentry earlier (by omega))
    · intro nodes _ granule _
      constructor
      · rw [fatOf, fatOf, pread_congr]
        intro index hlow hhigh
        apply hframe.2
        simp only [fatst, fatz, labelst] at *
        omega
      · apply granOf_congr
        intro index hindex
        apply hframe.2
        have hbounds := seekgran_bounds opts.offset granule
        simp only [inGran, labelst, secz] at *
        omega

section

variable {image : List UInt8} {offset : ℕ}

theorem scan_slotVisit_eq (hholds : Holds image offset) {slot : ℕ}
    (hslot : slot < slots) (hfree : (entryOf image offset slot).isFree)
    (hearlier : ∀ earlier < slot, (entryOf image offset earlier).isLive) :
    scan image offset slotVisit =
      .ok (some ((), slot, entryOf image offset slot)) := by
  rcases scan_slotVisit_cases hholds with
    ⟨found, _, hfound, hbefore, hscan⟩ | ⟨hall, _⟩
  · rcases Nat.lt_trichotomy found slot with hlt | rfl | hgt
    · exact absurd hfound (hearlier found hlt)
    · exact hscan
    · exact absurd hfree (hbefore slot hgt)
  · exact absurd hfree (hall slot hslot)

/-- A name that starts with 0xFF is never found. -/
theorem find_hidden (hholds : Holds image offset) {name : List UInt8}
    (hfits : Fits name) (hname : (nameForm name).getD 0 0 = 0xff) :
    find image offset name = .ok none := by
  rcases find_cases hholds hfits with ⟨slot, _, hkey, hmark, _, _⟩ | ⟨_, hfind⟩
  · rw [← Dirent.key_getD_zero, hkey] at hmark
    exact absurd hname hmark
  · exact hfind

/-- Nothing is found behind a first slot that starts with 0xFF. -/
theorem find_behind_marker (hholds : Holds image offset)
    (hmark : (entryOf image offset 0).name 0 = 0xff) {name : List UInt8}
    (hfits : Fits name) : find image offset name = .ok none := by
  rcases find_cases hholds hfits with
    ⟨slot, _, _, hmark', hearlier, _⟩ | ⟨_, hfind⟩
  · rcases Nat.eq_zero_or_pos slot with rfl | hpos
    · exact absurd hmark hmark'
    · exact absurd hmark (hearlier 0 hpos).1
  · exact hfind

end

theorem PutDone.card_free {opts : Opts} {image src name image' : List UInt8}
    {slot : ℕ} {x : Fin 68} {tail : List (Fin 68)}
    (hdone : PutDone opts image src name image' slot x tail)
    (hslot : slot < slots) :
    (freeGrans (fatOf image' opts.offset)).card + (src.length / granz + 1) =
      (freeGrans (fatOf image opts.offset)).card := by
  have hnodup := hdone.chain.nodup
  have hsplit : freeGrans (fatOf image opts.offset) =
      freeGrans (fatOf image' opts.offset) ∪ (x :: tail).toFinset := by
    ext granule
    rw [Finset.mem_union, List.mem_toFinset, mem_freeGrans, mem_freeGrans]
    by_cases hmem : granule ∈ x :: tail
    · simp only [hdone.chain_free granule hmem, hmem, or_true]
    · rw [hdone.fat_frame granule hmem]
      exact ⟨Or.inl, fun h => h.resolve_right hmem⟩
  have hdisjoint : Disjoint (freeGrans (fatOf image' opts.offset))
      (x :: tail).toFinset := by
    rw [Finset.disjoint_right]
    intro granule hmem hfree
    exact (hdone.fileChain_new hslot).ne_free granule (List.mem_toFinset.mp hmem)
      (mem_freeGrans.mp hfree)
  rw [hsplit, Finset.card_union_of_disjoint hdisjoint,
    List.toFinset_card_of_nodup hnodup, hdone.length_chain]

/-- Two files of one byte, `A` before `B`, on a fresh disk. -/
private theorem twoFiles :
    ∃ image, FsInv image 0 (reservedGrans .initial) ∧
      (freeGrans (fatOf image 0)).card = 66 ∧
      LiveSlot image 0 0 ∧ (entryOf image 0 0).key = nameForm [0x41] ∧
      LiveSlot image 0 1 ∧ (entryOf image 0 1).key = nameForm [0x42] ∧
      get .initial image [0x42] = ⟨none, [0x62]⟩ := by
  obtain ⟨image0, hmkfs, hfresh⟩ := storable_fresh []
  have hinv0 := FsInv.of_mkfs hmkfs
  obtain ⟨hcard0, hentries0⟩ : (freeGrans (fatOf image0 0)).card = 68 ∧
      ∀ slot < slots, (entryOf image0 0 slot).name 0 = 0xff := by
    obtain ⟨image, hmkfs', _, hfat, hentries⟩ := mkfs_spec .initial []
    rw [hmkfs] at hmkfs'
    cases hmkfs'
    refine ⟨?_, hentries⟩
    have hfree : freeGrans (fatOf image0 0) = Finset.univ :=
      (congrArg freeGrans hfat).trans (by decide)
    rw [hfree, Finset.card_univ, Fintype.card_fin]
  have hfind0 := find_behind_marker hinv0.holds (hentries0 0 (by decide))
    (show Fits [0x41] by decide)
  have hfree0 : (entryOf image0 0 0).isFree := .inr (hentries0 0 (by decide))
  obtain ⟨image1, x, tail, hput1, hdone1⟩ := put_spec .initial image0 [0x61]
    [0x41] hinv0.holds hfind0 (by decide : 0 < slots)
    (scan_slotVisit_eq hinv0.holds (by decide) hfree0 (by simp))
    (hcard0.symm ▸ by decide)
  have hinv1 : FsInv image1 Opts.initial.offset (reservedGrans .initial) :=
    FsInv.put hinv0 hdone1 (by decide) hfree0 (by simp) hfind0 (by decide)
  have hlive1 := hdone1.liveSlot_iff (by decide) (by decide)
  have hkey1 : (entryOf image1 0 0).key = nameForm [0x41] := by
    have hentry : entryOf image1 0 0 = _ := hdone1.entries 0 (by decide)
    rw [hentry, if_pos rfl, key_putEntry]
  have hunused1 : ∀ slot < slots, slot ≠ 0 →
      (entryOf image1 0 slot).name 0 = 0xff := by
    intro slot hslot hne
    have hentry : entryOf image1 0 slot = _ := hdone1.entries slot hslot
    rw [hentry, if_neg hne]
    exact hentries0 slot hslot
  have hcard1 : (freeGrans (fatOf image1 0)).card + 1 = 68 :=
    (hdone1.card_free (by decide)).trans hcard0
  have hstorable1 : Storable .initial image1 [0x62] [0x42] := by
    refine ⟨?_, by decide, ?_, 1, by decide, .inr (hunused1 1 (by decide) (by decide))⟩
    · intro slot hslot hkey
      by_cases hzero : slot = 0
      · subst hzero
        exact absurd (hkey1.symm.trans hkey) (by decide)
      · have hmark := hunused1 slot hslot hzero
        rw [← Dirent.key_getD_zero] at hmark
        exact absurd ((congrArg (·.getD 0 0) hkey).symm.trans hmark) (by decide)
    · change 1 ≤ (freeGrans (fatOf image1 0)).card
      omega
  have hfind1 := find_eq_none hinv1.holds (by decide) hstorable1.new
  have hfree1 : (entryOf image1 0 1).isFree :=
    .inr (hunused1 1 (by decide) (by decide))
  have hearlier1 : ∀ earlier < 1, (entryOf image1 0 earlier).isLive := by
    intro earlier hlt
    rw [Nat.lt_one_iff.mp hlt]
    exact ((hlive1 0).mpr (.inl rfl)).2
  obtain ⟨image2, x', tail', hput2, hdone2⟩ := put_spec .initial image1 [0x62]
    [0x42] hinv1.holds hfind1 (by decide : 1 < slots)
    (scan_slotVisit_eq hinv1.holds (by decide) hfree1 hearlier1) hstorable1.room
  have hlive2 := hdone2.liveSlot_iff (by decide) (by decide)
  refine ⟨image2, FsInv.put hinv1 hdone2 (by decide) hfree1
    hearlier1 hfind1 (by decide), ?_, ?_, ?_, (hlive2 1).mpr (.inl rfl), ?_, ?_⟩
  · have hcard2 : (freeGrans (fatOf image2 0)).card + 1 =
        (freeGrans (fatOf image1 0)).card := hdone2.card_free (by decide)
    omega
  · exact (hlive2 0).mpr (.inr ⟨by decide, (hlive1 0).mpr (.inl rfl)⟩)
  · have hentry : entryOf image2 0 0 = _ := hdone2.entries 0 (by decide)
    rw [hentry, if_neg (by decide)]
    exact hkey1
  · have hentry : entryOf image2 0 1 = _ := hdone2.entries 1 (by decide)
    rw [hentry, if_pos rfl, key_putEntry]
  · obtain ⟨image, hput, hget, _⟩ := get_after_put hinv1.holds
      (rfl : Opts.initial.offset = Opts.initial.offset) rfl rfl (by decide) hstorable1
    rw [hput2] at hput
    cases hput
    exact hget (by decide)

end Fip.Decb
