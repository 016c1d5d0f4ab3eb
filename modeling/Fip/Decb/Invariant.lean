import Fip.Decb.RoundTrip
import Mathlib.Data.Set.Card

/-!
# The filesystem invariant

The chains of the live entries partition the granules in use, names are
unique, and no live entry hides behind a never used slot.  `mkfs` establishes
this, and every `put` of a file that fits and every `rm` keep it, whether they
succeed or are refused.
-/

namespace Fip.Decb

/-- The chain of the entry in `slot`, which ends in a sector count. -/
def FileChain (image : List UInt8) (offset slot : ℕ) (nodes : List (Fin 68)) :
    Prop :=
  ∃ (x : Fin 68) (mark : UInt8),
    (entryOf image offset slot).first = UInt8.ofNat x.val ∧
    Chain (fatNext (fatOf image offset)) x nodes mark ∧
    192 ≤ mark.toNat ∧ mark.toNat ≤ 201

def LiveSlot (image : List UInt8) (offset slot : ℕ) : Prop :=
  slot < slots ∧ (entryOf image offset slot).isLive

/-- The granule is on the chain of some live entry. -/
def InUse (image : List UInt8) (offset : ℕ) (granule : Fin 68) : Prop :=
  ∃ slot nodes, LiveSlot image offset slot ∧
    FileChain image offset slot nodes ∧ granule ∈ nodes

structure FsInv (image : List UInt8) (offset : ℕ)
    (reserved : Finset (Fin 68)) : Prop where
  holds : Holds image offset
  chain : ∀ slot, LiveSlot image offset slot →
    ∃ nodes, FileChain image offset slot nodes ∧ nodes.Nodup
  disjoint : ∀ slot other nodes others, LiveSlot image offset slot →
    LiveSlot image offset other → slot ≠ other →
    FileChain image offset slot nodes → FileChain image offset other others →
    nodes.Disjoint others
  covered : ∀ granule, fatOf image offset granule ≠ 0xff →
    granule ∈ reserved ∨ InUse image offset granule
  reserved_free : ∀ granule ∈ reserved,
    fatOf image offset granule = 0xc0 ∧ ¬ InUse image offset granule
  names : ∀ slot other, LiveSlot image offset slot →
    LiveSlot image offset other →
    (entryOf image offset slot).key = (entryOf image offset other).key →
    slot = other
  marker : ∀ slot later, slot < later →
    (entryOf image offset slot).name 0 = 0xff →
    ¬ LiveSlot image offset later

/-! ## Chains -/

/-- No granule of a file counts as free. -/
theorem Chain.fat_ne_free {fat : Fat} {x : Fin 68} {nodes : List (Fin 68)}
    {mark : UInt8} (hchain : Chain (fatNext fat) x nodes mark)
    (hmark : mark ≠ 0xff) : ∀ granule ∈ nodes, fat granule ≠ 0xff := by
  induction hchain with
  | last hnext =>
      intro granule hmem
      rw [List.mem_singleton.mp hmem, (fatNext_eq_inr hnext).1]
      exact hmark
  | link hnext _ ih =>
      intro granule hmem
      rcases List.mem_cons.mp hmem with rfl | hmem
      · rw [fatNext_eq_inl hnext]
        exact ofNat_granule_ne_free _
      · exact ih hmark granule hmem

namespace FileChain

variable {image image' : List UInt8} {offset slot : ℕ}
variable {nodes others : List (Fin 68)}

theorem ne_free (hfile : FileChain image offset slot nodes) :
    ∀ granule ∈ nodes, fatOf image offset granule ≠ 0xff := by
  obtain ⟨x, mark, _, hchain, _, hmark⟩ := hfile
  apply Chain.fat_ne_free hchain
  rintro rfl
  exact absurd hmark (by decide)

theorem nodup (hfile : FileChain image offset slot nodes) : nodes.Nodup := by
  obtain ⟨x, mark, _, hchain, _⟩ := hfile
  exact hchain.nodup

theorem unique (hfile : FileChain image offset slot nodes)
    (hother : FileChain image offset slot others) : nodes = others := by
  obtain ⟨x, mark, hfirst, hchain, _⟩ := hfile
  obtain ⟨y, mark', hfirst', hchain', _⟩ := hother
  have hstart : x = y := by
    have hval := congrArg UInt8.toNat (hfirst.symm.trans hfirst')
    rw [toNat_ofNat_granule, toNat_ofNat_granule] at hval
    exact Fin.ext hval
  subst hstart
  exact (hchain.unique hchain').1

/-- Frame: a file keeps its chain when its entry and its granules' table bytes
are kept. -/
theorem congr (hfile : FileChain image offset slot nodes)
    (hentry : entryOf image' offset slot = entryOf image offset slot)
    (hfat : ∀ granule ∈ nodes,
      fatOf image' offset granule = fatOf image offset granule) :
    FileChain image' offset slot nodes := by
  obtain ⟨x, mark, hfirst, hchain, hmark⟩ := hfile
  exact ⟨x, mark, by rw [hentry, hfirst], Chain.fat_congr hchain hfat, hmark⟩

end FileChain

/-! ## put keeps the invariant -/

section Put

variable {opts : Opts} {image src name image' : List UInt8} {slot : ℕ}
variable {x : Fin 68} {tail : List (Fin 68)} {reserved : Finset (Fin 68)}

theorem key_putEntry (opts : Opts) (entry : Dirent) (first : UInt8) (size : ℕ)
    (name : List UInt8) :
    (putEntry opts entry first size (nameForm name)).key = nameForm name :=
  Dirent.key_setKey entry (length_nameForm name)

theorem name_putEntry (opts : Opts) (entry : Dirent) (first : UInt8)
    (size : ℕ) (name : List UInt8) :
    (putEntry opts entry first size (nameForm name)).name 0 =
      (nameForm name).getD 0 0 := by
  rw [← Dirent.key_getD_zero, key_putEntry]

theorem PutDone.liveSlot_iff
    (hdone : PutDone opts image src name image' slot x tail)
    (hslot : slot < slots) (hvisible : (nameForm name).getD 0 0 ≠ 0xff)
    (other : ℕ) :
    LiveSlot image' opts.offset other ↔
      other = slot ∨ other ≠ slot ∧ LiveSlot image opts.offset other := by
  by_cases heq : other = slot
  · subst other
    have hname := name_putEntry opts (entryOf image opts.offset slot)
      (UInt8.ofNat x.val) (src.length % granz) name
    simp only [LiveSlot, hslot, true_and, hdone.entries slot hslot, if_true,
      true_or, iff_true, Dirent.isLive, Dirent.isFree, hname, not_or]
    exact ⟨nameForm_ne_zero name, hvisible⟩
  · simp only [heq, false_or, ne_eq, not_false_eq_true, true_and, LiveSlot]
    constructor <;> rintro ⟨hlt, hlive⟩ <;> refine ⟨hlt, ?_⟩
    · rwa [hdone.entries other hlt, if_neg heq] at hlive
    · rwa [hdone.entries other hlt, if_neg heq]

/-- The file that `put` stored. -/
theorem PutDone.fileChain_new
    (hdone : PutDone opts image src name image' slot x tail)
    (hslot : slot < slots) :
    FileChain image' opts.offset slot (x :: tail) := by
  refine ⟨x, _, ?_, hdone.chain, lastByte_bounds (Nat.mod_lt _ (by decide))⟩
  rw [hdone.entries slot hslot, if_pos rfl]
  rfl

/-- Files other than the new one keep their chains. -/
theorem PutDone.fileChain_old
    (hdone : PutDone opts image src name image' slot x tail) {other : ℕ}
    {nodes : List (Fin 68)} (hother : other < slots) (hne : other ≠ slot)
    (hfile : FileChain image opts.offset other nodes) :
    FileChain image' opts.offset other nodes := by
  refine hfile.congr (by rw [hdone.entries other hother, if_neg hne]) ?_
  intro granule hmem
  apply hdone.fat_frame
  intro hnew
  exact hfile.ne_free granule hmem (hdone.chain_free granule hnew)

theorem FsInv.put (hinv : FsInv image opts.offset reserved)
    (hdone : PutDone opts image src name image' slot x tail)
    (hslot : slot < slots)
    (hfree : (entryOf image opts.offset slot).isFree)
    (hearlier : ∀ earlier < slot, (entryOf image opts.offset earlier).isLive)
    (hfind : find image opts.offset name = .ok none)
    (hvisible : (nameForm name).getD 0 0 ≠ 0xff) :
    FsInv image' opts.offset reserved := by
  have hlive := hdone.liveSlot_iff hslot hvisible
  have hnew := hdone.fileChain_new hslot
  have hnotLive : ¬ LiveSlot image opts.offset slot := fun h => h.2 hfree
  -- the chain of a live slot of the new image, as a chain of the old one
  have hchain : ∀ other nodes, LiveSlot image' opts.offset other →
      FileChain image' opts.offset other nodes →
      (other = slot ∧ nodes = x :: tail) ∨
        (other ≠ slot ∧ LiveSlot image opts.offset other ∧
          FileChain image opts.offset other nodes) := by
    intro other nodes hslot' hfile
    rcases (hlive other).mp hslot' with rfl | ⟨hne, hold⟩
    · exact .inl ⟨rfl, hfile.unique hnew⟩
    · obtain ⟨old, hfile', _⟩ := hinv.chain other hold
      have heq := hfile.unique (hdone.fileChain_old hold.1 hne hfile')
      exact .inr ⟨hne, hold, heq ▸ hfile'⟩
  have hfresh : ∀ nodes other, FileChain image opts.offset other nodes →
      (x :: tail).Disjoint nodes := fun nodes other hfile granule hmem hmem' =>
    hfile.ne_free granule hmem' (hdone.chain_free granule hmem)
  have hinUse : ∀ granule, InUse image opts.offset granule →
      InUse image' opts.offset granule := by
    rintro granule ⟨other, nodes, hold, hfile, hmem⟩
    have hne : other ≠ slot := fun heq => hnotLive (heq ▸ hold)
    exact ⟨other, nodes, (hlive other).mpr (.inr ⟨hne, hold⟩),
      hdone.fileChain_old hold.1 hne hfile, hmem⟩
  refine ⟨hinv.holds.of_length_eq hdone.length_image, ?_, ?_, ?_, ?_, ?_, ?_⟩
  · intro other hslot'
    rcases (hlive other).mp hslot' with rfl | ⟨hne, hold⟩
    · exact ⟨_, hnew, hnew.nodup⟩
    · obtain ⟨nodes, hfile, hnodup⟩ := hinv.chain other hold
      exact ⟨nodes, hdone.fileChain_old hold.1 hne hfile, hnodup⟩
  · intro left right nodes others hleft hright hne hfile hfile'
    rcases hchain left nodes hleft hfile with
      ⟨rfl, rfl⟩ | ⟨hl, hleft', hfileL⟩ <;>
    rcases hchain right others hright hfile' with
      ⟨rfl, rfl⟩ | ⟨hr, hright', hfileR⟩
    · exact absurd rfl hne
    · exact hfresh others right hfileR
    · exact (hfresh nodes left hfileL).symm
    · exact hinv.disjoint left right nodes others hleft' hright' hne hfileL hfileR
  · intro granule hused
    by_cases hmem : granule ∈ x :: tail
    · exact .inr ⟨slot, x :: tail, (hlive slot).mpr (.inl rfl), hnew, hmem⟩
    · rw [hdone.fat_frame granule hmem] at hused
      exact (hinv.covered granule hused).imp_right (hinUse granule)
  · intro granule hreserved
    obtain ⟨hvalue, hnot⟩ := hinv.reserved_free granule hreserved
    have hmem : granule ∉ x :: tail := by
      intro hmem
      rw [hdone.chain_free granule hmem] at hvalue
      exact absurd hvalue (by decide)
    refine ⟨by rw [hdone.fat_frame granule hmem, hvalue], ?_⟩
    rintro ⟨other, nodes, hslot', hfile, hin⟩
    rcases hchain other nodes hslot' hfile with
      ⟨rfl, rfl⟩ | ⟨_, hold, hfile'⟩
    · exact hmem hin
    · exact hnot ⟨other, nodes, hold, hfile', hin⟩
  · have hname : ∀ other, other ≠ slot → LiveSlot image opts.offset other →
        (entryOf image opts.offset other).key ≠ nameForm name := by
      intro other hne hold hkey
      rcases find_cases hinv.holds (fits_of_find hfind) with
        ⟨_, _, _, _, _, hsome⟩ | ⟨hnone, _⟩
      · rw [hfind] at hsome
        cases hsome
      · obtain ⟨earlier, hle, hmark⟩ := hnone other hold.1 hkey
        rcases Nat.lt_or_eq_of_le hle with hlt | rfl
        · exact hinv.marker earlier other hlt hmark hold
        · exact hold.2 (.inr hmark)
    intro left right hleft hright hkey
    rw [hdone.entries left hleft.1, hdone.entries right hright.1] at hkey
    rcases (hlive left).mp hleft with rfl | ⟨hl, hleft'⟩ <;>
    rcases (hlive right).mp hright with rfl | ⟨hr, hright'⟩
    · rfl
    · rw [if_pos rfl, if_neg hr, key_putEntry] at hkey
      exact absurd hkey.symm (hname right hr hright')
    · rw [if_neg hl, if_pos rfl, key_putEntry] at hkey
      exact absurd hkey (hname left hl hleft')
    · rw [if_neg hl, if_neg hr] at hkey
      exact hinv.names left right hleft' hright' hkey
  · intro before later hlt hmark hslot'
    have hbefore : before < slots := by
      have hlater := hslot'.1
      omega
    have hne : before ≠ slot := by
      rintro rfl
      exact ((hlive before).mpr (.inl rfl)).2 (.inr hmark)
    rw [hdone.entries before hbefore, if_neg hne] at hmark
    rcases (hlive later).mp hslot' with rfl | ⟨_, hold⟩
    · exact hearlier before hlt (.inr hmark)
    · exact hinv.marker before later hlt hmark hold

end Put

/-! ## rm keeps the invariant -/

section Rm

variable {opts : Opts} {image image' : List UInt8} {slot : ℕ}
variable {nodes : List (Fin 68)} {reserved : Finset (Fin 68)}

theorem Dirent.not_isLive_delete (entry : Dirent) : ¬ entry.delete.isLive := by
  simp [Dirent.isLive, Dirent.isFree, Dirent.delete]

theorem RmDone.liveSlot_iff (hdone : RmDone opts image image' slot nodes)
    (other : ℕ) :
    LiveSlot image' opts.offset other ↔
      other ≠ slot ∧ LiveSlot image opts.offset other := by
  by_cases heq : other = slot
  · subst other
    simp only [ne_eq, not_true_eq_false, false_and, iff_false]
    rintro ⟨hlt, hlive⟩
    rw [hdone.entries slot hlt, if_pos rfl] at hlive
    exact Dirent.not_isLive_delete _ hlive
  · simp only [ne_eq, heq, not_false_eq_true, true_and, LiveSlot]
    constructor <;> rintro ⟨hlt, hlive⟩ <;> refine ⟨hlt, ?_⟩
    · rwa [hdone.entries other hlt, if_neg heq] at hlive
    · rwa [hdone.entries other hlt, if_neg heq]

theorem FsInv.rm (hinv : FsInv image opts.offset reserved)
    (hdone : RmDone opts image image' slot nodes)
    (hlive : LiveSlot image opts.offset slot)
    (hfile : FileChain image opts.offset slot nodes) :
    FsInv image' opts.offset reserved := by
  have hlive' := hdone.liveSlot_iff
  have hkept : ∀ other others, other ≠ slot →
      LiveSlot image opts.offset other →
      FileChain image opts.offset other others →
      FileChain image' opts.offset other others := by
    intro other others hne hold hfile'
    refine hfile'.congr (by rw [hdone.entries other hold.1, if_neg hne]) ?_
    intro granule hmem
    have hdisjoint := hinv.disjoint other slot others nodes hold hlive hne
      hfile' hfile
    rw [hdone.fat, if_neg (hdisjoint hmem)]
  have hchain : ∀ other others, LiveSlot image' opts.offset other →
      FileChain image' opts.offset other others →
      other ≠ slot ∧ LiveSlot image opts.offset other ∧
        FileChain image opts.offset other others := by
    intro other others hslot' hfile'
    obtain ⟨hne, hold⟩ := (hlive' other).mp hslot'
    obtain ⟨old, hfileOld, _⟩ := hinv.chain other hold
    have heq := hfile'.unique (hkept other old hne hold hfileOld)
    exact ⟨hne, hold, heq ▸ hfileOld⟩
  have hinUse : ∀ granule, InUse image' opts.offset granule →
      InUse image opts.offset granule := by
    rintro granule ⟨other, others, hslot', hfile', hmem⟩
    obtain ⟨_, hold, hfileOld⟩ := hchain other others hslot' hfile'
    exact ⟨other, others, hold, hfileOld, hmem⟩
  refine ⟨hinv.holds.of_length_eq hdone.length_image, ?_, ?_, ?_, ?_, ?_, ?_⟩
  · intro other hslot'
    obtain ⟨hne, hold⟩ := (hlive' other).mp hslot'
    obtain ⟨others, hfile', hnodup⟩ := hinv.chain other hold
    exact ⟨others, hkept other others hne hold hfile', hnodup⟩
  · intro left right lefts rights hleft hright hne hfileL hfileR
    obtain ⟨_, hleft', hfileL'⟩ := hchain left lefts hleft hfileL
    obtain ⟨_, hright', hfileR'⟩ := hchain right rights hright hfileR
    exact hinv.disjoint left right lefts rights hleft' hright' hne hfileL'
      hfileR'
  · intro granule hused
    rw [hdone.fat] at hused
    have hmem : granule ∉ nodes := fun hmem => hused (if_pos hmem)
    rw [if_neg hmem] at hused
    refine (hinv.covered granule hused).imp_right ?_
    rintro ⟨other, others, hold, hfile', hin⟩
    have hne : other ≠ slot := by
      rintro rfl
      exact hmem (hfile'.unique hfile ▸ hin)
    exact ⟨other, others, (hlive' other).mpr ⟨hne, hold⟩,
      hkept other others hne hold hfile', hin⟩
  · intro granule hreserved
    obtain ⟨hvalue, hnot⟩ := hinv.reserved_free granule hreserved
    have hmem : granule ∉ nodes := fun hmem =>
      hnot ⟨slot, nodes, hlive, hfile, hmem⟩
    exact ⟨by rw [hdone.fat, if_neg hmem, hvalue],
      fun huse => hnot (hinUse granule huse)⟩
  · intro left right hleft hright hkey
    obtain ⟨hl, hleft'⟩ := (hlive' left).mp hleft
    obtain ⟨hr, hright'⟩ := (hlive' right).mp hright
    rw [hdone.entries left hleft.1, if_neg hl, hdone.entries right hright.1,
      if_neg hr] at hkey
    exact hinv.names left right hleft' hright' hkey
  · intro before later hlt hmark hslot'
    obtain ⟨_, hold⟩ := (hlive' later).mp hslot'
    have hbefore : before < slots := by
      have hlater := hold.1
      omega
    rw [hdone.entries before hbefore] at hmark
    by_cases heq : before = slot
    · rw [if_pos heq] at hmark
      simp [Dirent.delete] at hmark
    · rw [if_neg heq] at hmark
      exact hinv.marker before later hlt hmark hold

end Rm

/-! ## Runs -/

theorem reserve_apply (opts : Opts) (granule : Fin 68) :
    reserve opts (fun _ => 0xff) granule =
      if granule ∈ reservedGrans opts then 0xc0 else 0xff := by
  cases opts with
  | mk deftype defaflag trans mbr boot offset =>
      by_cases h0 : granule = 0 <;> by_cases h66 : granule = 66 <;>
        by_cases h67 : granule = 67 <;> cases mbr <;> cases boot <;>
        simp_all [reserve, reservedGrans]

theorem FsInv.mkfs (opts : Opts) (image : List UInt8) :
    ∃ image', Decb.mkfs opts image = .ok image' ∧
      FsInv image' opts.offset (reservedGrans opts) := by
  obtain ⟨image', hmkfs, hholds, hfat, hentries⟩ := mkfs_spec opts image
  have hnone : ∀ slot, ¬ LiveSlot image' opts.offset slot :=
    fun slot hlive => hlive.2 (.inr (hentries slot hlive.1))
  refine ⟨image', hmkfs, hholds, ?_, ?_, ?_, ?_, ?_, ?_⟩
  · exact fun slot hlive => absurd hlive (hnone slot)
  · exact fun slot _ _ _ hlive => absurd hlive (hnone slot)
  · intro granule hused
    rw [hfat, reserve_apply] at hused
    by_contra hnot
    rw [not_or] at hnot
    exact hused (if_neg hnot.1)
  · intro granule hreserved
    refine ⟨by rw [hfat, reserve_apply, if_pos hreserved], ?_⟩
    rintro ⟨slot, _, hlive, _⟩
    exact hnone slot hlive
  · exact fun slot _ hlive => absurd hlive (hnone slot)
  · exact fun _ later _ _ hlive => hnone later hlive

theorem FsInv.of_mkfs {opts : Opts} {image image' : List UInt8}
    (hmkfs : Decb.mkfs opts image = .ok image') :
    FsInv image' opts.offset (reservedGrans opts) := by
  obtain ⟨fresh, hfresh, hinv⟩ := FsInv.mkfs opts image
  rw [hmkfs] at hfresh
  cases hfresh
  exact hinv

theorem nameFormFrom_head (name : List UInt8) {d : ℕ} (hd : 0 < d)
    (form : List UInt8) :
    (nameFormFrom name d form).getD 0 0 = form.getD 0 0 := by
  induction name generalizing d form with
  | nil => rfl
  | cons c rest ih =>
      rw [nameFormFrom]
      split
      · rfl
      split
      · exact ih (by decide) form
      · rw [ih (Nat.succ_pos d), List.getD_eq_getElem?_getD,
          List.getElem?_set_ne (by omega), ← List.getD_eq_getElem?_getD]

/-- The converted name starts with 0xFF exactly if the name does. -/
theorem nameForm_visible {name : List UInt8}
    (hname : name.head? ≠ some 0xff) : (nameForm name).getD 0 0 ≠ 0xff := by
  cases name with
  | nil => decide
  | cons c rest =>
      rw [nameForm, nameFormFrom]
      split
      · decide
      split
      · rw [nameFormFrom_head rest (by decide)]
        decide
      · rw [nameFormFrom_head rest (by decide)]
        intro heq
        exact hname (congrArg some heq)

/-- The commands a run may contain: any `rm`, and a `put` of a file that fits
under a name that does not start with 0xFF. -/
def Command.Admissible (image : List UInt8) : Command → Prop
  | .put opts src name => name.head? ≠ some 0xff ∧
      src.length / granz + 1 ≤ (freeGrans (fatOf image opts.offset)).card
  | .rm _ _ => True

theorem imageAfter_put {opts : Opts} {image src name : List UInt8}
    {reserved : Finset (Fin 68)} (hinv : FsInv image opts.offset reserved)
    (hfits : Fits name) (hname : name.head? ≠ some 0xff)
    (hroom : src.length / granz + 1 ≤
      (freeGrans (fatOf image opts.offset)).card) :
    ∃ image', imageAfter (put opts image src name) = some image' ∧
      FsInv image' opts.offset reserved := by
  rcases find_cases hinv.holds hfits with ⟨_, _, _, _, _, hsome⟩ | ⟨_, hfind⟩
  · have hput : put opts image src name = .error ⟨.exit "file exists", image⟩ := by
      simp only [put, loadfat_eq hinv.holds, hsome]
    exact ⟨image, by rw [hput, imageAfter], hinv⟩
  rcases scan_slotVisit_cases hinv.holds with
    ⟨slot, hslot, hfree, hearlier, hscan⟩ | ⟨_, hscan⟩
  · obtain ⟨image', x, tail, hput, hdone⟩ := put_spec opts image src name
      hinv.holds hfind hslot hscan hroom
    exact ⟨image', by rw [hput, imageAfter],
      hinv.put hdone hslot hfree hearlier hfind (nameForm_visible hname)⟩
  · have hput : put opts image src name =
        .error ⟨.exit "out of free directory entries", image⟩ := by
      simp only [put, loadfat_eq hinv.holds, hfind, hscan]
    exact ⟨image, by rw [hput, imageAfter], hinv⟩

/-- The entry that `rm` and `get` find is live and has a chain. -/
theorem FsInv.found {image : List UInt8} {offset : ℕ}
    {reserved : Finset (Fin 68)} (hinv : FsInv image offset reserved)
    {slot : ℕ} {name : List UInt8} (hslot : slot < slots)
    (hkey : (entryOf image offset slot).key = nameForm name)
    (hmark : (entryOf image offset slot).name 0 ≠ 0xff) :
    LiveSlot image offset slot ∧
      ∃ nodes, FileChain image offset slot nodes := by
  have hlive : LiveSlot image offset slot := by
    refine ⟨hslot, ?_⟩
    rintro (hzero | hfree)
    · rw [← Dirent.key_getD_zero, hkey] at hzero
      exact nameForm_ne_zero name hzero
    · exact hmark hfree
  obtain ⟨nodes, hfile, _⟩ := hinv.chain slot hlive
  exact ⟨hlive, nodes, hfile⟩

theorem imageAfter_rm {opts : Opts} {image name : List UInt8}
    {reserved : Finset (Fin 68)} (hinv : FsInv image opts.offset reserved)
    (hfits : Fits name) :
    ∃ image', imageAfter (rm opts image name) = some image' ∧
      FsInv image' opts.offset reserved := by
  rcases find_cases hinv.holds hfits with
    ⟨slot, hslot, hkey, hmark, _, hfind⟩ | ⟨_, hfind⟩
  · obtain ⟨hlive, nodes, hfile⟩ := hinv.found hslot hkey hmark
    obtain ⟨x, mark, hfirst, hchain, hlow, _⟩ := id hfile
    obtain ⟨image', hrm, hdone⟩ := rm_spec opts image name hinv.holds hslot
      hfind hfirst hchain ((isLast_iff mark).mpr hlow)
    exact ⟨image', by rw [hrm, imageAfter], hinv.rm hdone hlive hfile⟩
  · have hrm : rm opts image name = .error ⟨.exit "file not found", image⟩ := by
      simp only [rm, loadfat_eq hinv.holds, hfind]
    exact ⟨image, by rw [hrm, imageAfter], hinv⟩

/-- An admissible command keeps the invariant, unless its name is too long for
`buf`. -/
theorem imageAfter_exec {command : Command} {image : List UInt8}
    {reserved : Finset (Fin 68)}
    (hinv : FsInv image command.opts.offset reserved)
    (hadmissible : command.Admissible image) :
    (Fits command.name ∧ ∃ image',
      imageAfter (command.exec image) = some image' ∧
        FsInv image' command.opts.offset reserved) ∨
    (¬ Fits command.name ∧ imageAfter (command.exec image) = none) := by
  by_cases hfits : Fits command.name
  · refine .inl ⟨hfits, ?_⟩
    cases command with
    | put opts src name =>
        exact imageAfter_put hinv hfits hadmissible.1 hadmissible.2
    | rm opts name => exact imageAfter_rm hinv hfits
  · refine .inr ⟨hfits, ?_⟩
    cases command with
    | put opts src name =>
        have hput : put opts image src name = _ := put_overrun hinv.holds hfits
        rw [Command.exec, hput]
        rfl
    | rm opts name =>
        have hrm : rm opts image name = _ := rm_overrun hinv.holds hfits
        rw [Command.exec, hrm]
        rfl

/-- Every granule is free, in use by a file, or reserved. -/
theorem FsInv.card_eq {image : List UInt8} {offset : ℕ}
    {reserved : Finset (Fin 68)} (hinv : FsInv image offset reserved) :
    (freeGrans (fatOf image offset)).card +
      Set.ncard {granule | InUse image offset granule} + reserved.card = 68 := by
  classical
  have hused : Set.ncard {granule | InUse image offset granule} =
      (Finset.univ.filter (InUse image offset)).card := by
    rw [← Set.ncard_coe_finset]
    simp
  have hpartition : freeGrans (fatOf image offset) ∪
      (Finset.univ.filter (InUse image offset)) ∪ reserved = Finset.univ := by
    rw [Finset.eq_univ_iff_forall]
    intro granule
    simp only [Finset.mem_union, mem_freeGrans, Finset.mem_filter,
      Finset.mem_univ, true_and]
    by_cases hfree : fatOf image offset granule = 0xff
    · exact .inl (.inl hfree)
    · rcases hinv.covered granule hfree with hreserved | huse
      · exact .inr hreserved
      · exact .inl (.inr huse)
  have hfree : Disjoint (freeGrans (fatOf image offset))
      (Finset.univ.filter (InUse image offset)) := by
    rw [Finset.disjoint_left]
    intro granule hgranule huse
    obtain ⟨slot, nodes, _, hfile, hmem⟩ := (Finset.mem_filter.mp huse).2
    exact hfile.ne_free granule hmem (mem_freeGrans.mp hgranule)
  have hreserved : Disjoint (freeGrans (fatOf image offset) ∪
      (Finset.univ.filter (InUse image offset))) reserved := by
    rw [Finset.disjoint_right]
    intro granule hgranule
    obtain ⟨hvalue, hnot⟩ := hinv.reserved_free granule hgranule
    simp only [Finset.mem_union, mem_freeGrans, Finset.mem_filter,
      Finset.mem_univ, true_and, not_or]
    exact ⟨by rw [hvalue]; decide, hnot⟩
  rw [hused, ← Finset.card_union_of_disjoint hfree,
    ← Finset.card_union_of_disjoint hreserved, hpartition, Finset.card_univ,
    Fintype.card_fin]

/-! ## Whole runs -/

/-- A run of commands that are admissible on the images they meet. -/
def AdmissibleRun (offset : ℕ) : List UInt8 → List Command → Prop
  | _, [] => True
  | image, command :: commands =>
      command.opts.offset = offset ∧ command.Admissible image ∧
        ∀ image' ∈ imageAfter (command.exec image),
          AdmissibleRun offset image' commands

/-- After each command of the run there is an image file, it satisfies the
invariant, and its granules are free, in use or reserved. -/
def KeepsInv (offset : ℕ) (reserved : Finset (Fin 68)) (image : List UInt8)
    (commands : List Command) : Prop :=
  ∀ done, done <+: commands → ∃ image', run image done = some image' ∧
    FsInv image' offset reserved ∧
    (freeGrans (fatOf image' offset)).card +
      Set.ncard {granule | InUse image' offset granule} + reserved.card = 68

section

variable {offset : ℕ} {reserved : Finset (Fin 68)} {image : List UInt8}

theorem keepsInv_nil (hinv : FsInv image offset reserved) :
    KeepsInv offset reserved image [] := by
  intro done hdone
  rw [List.prefix_nil.mp hdone]
  exact ⟨image, rfl, hinv, hinv.card_eq⟩

theorem keepsInv_cons (hinv : FsInv image offset reserved) {command : Command}
    {commands : List Command} :
    KeepsInv offset reserved image (command :: commands) ↔
      ∃ image', imageAfter (command.exec image) = some image' ∧
        KeepsInv offset reserved image' commands := by
  constructor
  · intro hkeeps
    cases hafter : imageAfter (command.exec image) with
    | none =>
        obtain ⟨image', hrun, _⟩ := hkeeps [command] (by simp)
        simp [run, hafter] at hrun
    | some image' =>
        refine ⟨image', rfl, fun done hdone => ?_⟩
        have hlonger := hkeeps (command :: done)
          (List.cons_prefix_cons.mpr ⟨rfl, hdone⟩)
        simpa [run, hafter] using hlonger
  · rintro ⟨image', hafter, hkeeps⟩ done hdone
    cases done with
    | nil => exact ⟨image, rfl, hinv, hinv.card_eq⟩
    | cons first done =>
        obtain ⟨rfl, hrest⟩ := List.cons_prefix_cons.mp hdone
        simpa [run, hafter] using hkeeps done hrest

theorem keepsInv_iff_of_inv (hinv : FsInv image offset reserved)
    {commands : List Command} (hadmissible : AdmissibleRun offset image commands) :
    KeepsInv offset reserved image commands ↔
      ∀ command ∈ commands, Fits command.name := by
  induction commands generalizing image with
  | nil => exact iff_of_true (keepsInv_nil hinv) (by simp)
  | cons command commands ih =>
      obtain ⟨rfl, hfirst, hrest⟩ := hadmissible
      rw [keepsInv_cons hinv, List.forall_mem_cons]
      rcases imageAfter_exec hinv hfirst with
        ⟨hfits, image', hafter, hinv'⟩ | ⟨hlong, hnone⟩
      · simp only [hafter, Option.some.injEq, exists_eq_left', hfits, true_and]
        exact ih hinv' (hrest image' hafter)
      · refine iff_of_false ?_ fun hall => hlong hall.1
        rintro ⟨image', hafter, _⟩
        rw [hnone] at hafter
        cases hafter

end

/-- Over whole runs of `mkfs`, `put` and `rm` the invariant holds exactly if no
name runs out of `buf`. -/
theorem keepsInv_iff {fresh : Opts} {image image' : List UInt8}
    {commands : List Command} (hmkfs : mkfs fresh image = .ok image')
    (hadmissible : AdmissibleRun fresh.offset image' commands) :
    KeepsInv fresh.offset (reservedGrans fresh) image' commands ↔
      ∀ command ∈ commands, Fits command.name :=
  keepsInv_iff_of_inv (FsInv.of_mkfs hmkfs) hadmissible

/-- One byte put on a fresh disk under the name `A`, and a name that is not
there removed. -/
theorem keepsInv_iff_twoCommands :
    ∃ image, mkfs .initial [] = .ok image ∧
      (KeepsInv 0 (reservedGrans .initial) image
          [.put .initial [0x58] [0x41], .rm .initial [0x42]] ↔
        ∀ command ∈ [Command.put .initial [0x58] [0x41], .rm .initial [0x42]],
          Fits command.name) := by
  obtain ⟨image, hmkfs, hstorable⟩ := storable_fresh []
  have hroom := (hstorable [0x58] [0x41] (by decide) (by decide)).room
  exact ⟨image, hmkfs, keepsInv_iff hmkfs
    ⟨rfl, ⟨by decide, hroom⟩, fun _ _ => ⟨rfl, trivial, fun _ _ => trivial⟩⟩⟩

/-- The first `put` of a name of 2305 bytes has no image to leave. -/
theorem not_keepsInv_longName :
    ∃ image, mkfs .initial [] = .ok image ∧
      AdmissibleRun 0 image [.put .initial [0x58] (List.replicate 2305 0x41)] ∧
      ¬ KeepsInv 0 (reservedGrans .initial) image
        [.put .initial [0x58] (List.replicate 2305 0x41)] := by
  obtain ⟨image, hmkfs, hstorable⟩ := storable_fresh []
  have hroom := (hstorable [0x58] [0x41] (by decide) (by decide)).room
  have hadmissible : AdmissibleRun 0 image
      [.put .initial [0x58] (List.replicate 2305 0x41)] :=
    ⟨rfl, ⟨by rw [List.replicate_succ]; decide, hroom⟩, fun _ _ => trivial⟩
  have hinv : FsInv image 0 (reservedGrans .initial) := .of_mkfs hmkfs
  refine ⟨image, hmkfs, hadmissible, ?_⟩
  rw [keepsInv_iff_of_inv hinv hadmissible, List.forall_mem_singleton]
  refine not_fits_of_long ?_ ?_ ?_
  · exact fun hmem => absurd (List.eq_of_mem_replicate hmem) (by decide)
  · exact fun hmem => absurd (List.eq_of_mem_replicate hmem) (by decide)
  · rw [Command.name, List.length_replicate]
    decide

end Fip.Decb
