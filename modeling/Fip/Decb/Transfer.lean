import Mathlib.Data.List.TakeWhile
import Fip.Decb.Allocation

/-!
# What `find`, `put`, `rm` and `get` do to the directory, table and granules

One specification for each command, in terms of the views of the image file.
The results about whole disks use these and never the commands' own text.
-/

namespace Fip.Decb

open Fip.ByteFile

/-! ## Names -/

/-- The name in entry format.  A byte that belongs behind the eleventh is left
out. -/
def nameFormFrom : List UInt8 → ℕ → List UInt8 → List UInt8
  | [], _, form => form
  | c :: rest, d, form =>
      if c = 0 then form
      else if c = 0x2e then nameFormFrom rest 8 form
      else nameFormFrom rest (d + 1) (form.set d c)

def nameForm (name : List UInt8) : List UInt8 :=
  nameFormFrom name 0 (List.replicate 11 0x20)

/-- The parts of a C string in front of, between and behind the dots. -/
def parts (name : List UInt8) : List (List UInt8) :=
  (name.takeWhile (· ≠ 0)).splitOn 0x2e

/-- The parts of a name fit into `buf`: the first from its start, the others
from its ninth byte on. -/
def FitFrom (d : ℕ) (parts : List (List UInt8)) : Prop :=
  (∀ part ∈ parts.take 1, d + part.length ≤ granz) ∧
    ∀ part ∈ parts.drop 1, 8 + part.length ≤ granz

/-- At most 2304 bytes before the first dot, and at most 2296 from a dot to the
next one. -/
def Fits (name : List UInt8) : Prop :=
  FitFrom 0 (parts name)

instance (name : List UInt8) : Decidable (Fits name) :=
  inferInstanceAs (Decidable (_ ∧ _))

private theorem parts_nul (rest : List UInt8) : parts (0 :: rest) = [[]] := by
  rw [parts, List.takeWhile_cons_of_neg (by decide), List.splitOn_nil]

private theorem parts_dot (rest : List UInt8) :
    parts (0x2e :: rest) = [] :: parts rest := by
  rw [parts, List.takeWhile_cons_of_pos (by decide),
    List.splitOn_cons_eq_if_modifyHead, if_pos (beq_self_eq_true _), parts]

private theorem parts_cons {c : UInt8} (hnul : c ≠ 0) (hdot : c ≠ 0x2e)
    (rest : List UInt8) :
    parts (c :: rest) = (parts rest).modifyHead (c :: ·) := by
  rw [parts, List.takeWhile_cons_of_pos (by simpa using hnul),
    List.splitOn_cons_eq_if_modifyHead, if_neg (by simpa using hdot), parts]

private theorem fitFrom_parts_cons {c : UInt8} (hnul : c ≠ 0) (hdot : c ≠ 0x2e)
    (d : ℕ) (rest : List UInt8) :
    FitFrom d (parts (c :: rest)) ↔ FitFrom (d + 1) (parts rest) := by
  obtain ⟨first, others, hparts⟩ :=
    List.exists_cons_of_ne_nil (List.splitOn_ne_nil 0x2e (rest.takeWhile (· ≠ 0)))
  rw [parts_cons hnul hdot, parts, hparts]
  simp [FitFrom, Nat.add_assoc, Nat.add_comm 1]

private theorem lt_of_fitFrom {d : ℕ} {name : List UInt8}
    (hfit : FitFrom (d + 1) (parts name)) : d < granz := by
  obtain ⟨first, others, hparts⟩ :=
    List.exists_cons_of_ne_nil (List.splitOn_ne_nil 0x2e (name.takeWhile (· ≠ 0)))
  rw [parts, hparts] at hfit
  have hfirst := hfit.1 first (by simp)
  omega

/-- The copy stays inside `buf` exactly if the parts of the name fit, and then
leaves the name in entry format at its start. -/
theorem stringconvLoop_cases {name buf : List UInt8} {d : ℕ}
    (hbuf : buf.length = granz) (hd : d ≤ granz) :
    (FitFrom d (parts name) ∧ ∃ buf', stringconvLoop name d buf = some buf' ∧
      buf'.take 11 = nameFormFrom name d (buf.take 11)) ∨
    (¬ FitFrom d (parts name) ∧ stringconvLoop name d buf = none) := by
  have hempty : ∀ {d}, d ≤ granz → FitFrom d [[]] := by
    intro d hd
    simpa [FitFrom] using hd
  induction name generalizing d buf with
  | nil => exact .inl ⟨hempty hd, buf, rfl, rfl⟩
  | cons c rest ih =>
      rw [stringconvLoop, nameFormFrom]
      by_cases hnul : c = 0
      · rw [if_pos hnul, if_pos hnul, hnul, parts_nul]
        exact .inl ⟨hempty hd, buf, rfl, rfl⟩
      rw [if_neg hnul, if_neg hnul]
      by_cases hdot : c = 0x2e
      · rw [if_pos hdot, if_pos hdot, hdot, parts_dot]
        have hfit : FitFrom d ([] :: parts rest) ↔ FitFrom 8 (parts rest) := by
          obtain ⟨first, others, hparts⟩ := List.exists_cons_of_ne_nil
            (List.splitOn_ne_nil 0x2e (rest.takeWhile (· ≠ 0)))
          rw [parts, hparts]
          simpa [FitFrom] using fun _ _ => hd
        rw [hfit]
        exact ih hbuf (by decide)
      rw [if_neg hdot, if_neg hdot, fitFrom_parts_cons hnul hdot, hbuf]
      by_cases hroom : d < granz
      · rw [if_pos hroom, ← List.take_set]
        exact ih (by rw [List.length_set, hbuf]) hroom
      · rw [if_neg hroom]
        exact .inr ⟨fun hfit => hroom (lt_of_fitFrom hfit), rfl⟩

theorem stringconv_cases (name : List UInt8) :
    (Fits name ∧ ∃ buf, stringconv name = some buf ∧
      buf.take 11 = nameForm name) ∨
    (¬ Fits name ∧ stringconv name = none) := by
  have hbuf : (List.replicate 11 (0x20 : UInt8) ++
      List.replicate (granz - 11) 0).length = granz := by
    rw [List.length_append, List.length_replicate, List.length_replicate]
    decide
  have hcases := @stringconvLoop_cases name _ 0 hbuf (Nat.zero_le _)
  rwa [List.take_left' (List.length_replicate ..)] at hcases

/-- A name of one part fits if it is no longer than `buf`. -/
theorem not_fits_of_long {name : List UInt8} (hnul : 0 ∉ name)
    (hdot : 0x2e ∉ name) (hlong : granz < name.length) : ¬ Fits name := by
  have hwhole : name.takeWhile (· ≠ 0) = name := by
    rw [List.takeWhile_eq_self_iff]
    intro c hc
    exact decide_eq_true fun heq => hnul (heq ▸ hc)
  intro hfits
  have hpart := hfits.1 name (by
    rw [parts, hwhole, List.splitOn_eq_singleton hdot]
    exact List.mem_singleton_self name)
  omega

theorem stringconv_of_fits {name : List UInt8} (hfits : Fits name) :
    ∃ buf, stringconv name = some buf ∧ buf.take 11 = nameForm name := by
  rcases stringconv_cases name with
    ⟨_, hconv⟩ | ⟨hlong, _⟩
  · exact hconv
  · exact absurd hfits hlong

theorem stringconv_of_not_fits {name : List UInt8} (hlong : ¬ Fits name) :
    stringconv name = none := by
  rcases stringconv_cases name with
    ⟨hfits, _⟩ | ⟨_, hconv⟩
  · exact absurd hfits hlong
  · exact hconv

private theorem nameFormFrom_invariant (name : List UInt8) (d : ℕ)
    (form : List UInt8) (hlength : form.length = 11) (hzero : 0 ∉ form) :
    (nameFormFrom name d form).length = 11 ∧
      0 ∉ nameFormFrom name d form := by
  induction name generalizing d form with
  | nil => exact ⟨hlength, hzero⟩
  | cons c rest ih =>
      rw [nameFormFrom]
      split
      · exact ⟨hlength, hzero⟩
      split
      · exact ih 8 form hlength hzero
      · rename_i hc _
        refine ih (d + 1) (form.set d c) (by simpa using hlength) ?_
        intro hmem
        rcases List.mem_or_eq_of_mem_set hmem with hmem | heq
        · exact hzero hmem
        · exact hc heq.symm

@[simp]
theorem length_nameForm (name : List UInt8) :
    (nameForm name).length = 11 :=
  (nameFormFrom_invariant name 0 _ (by simp) (by decide)).1

/-- No byte of a converted name is 0, so it never matches a deleted slot. -/
theorem nameForm_ne_zero (name : List UInt8) :
    (nameForm name).getD 0 0 ≠ 0 := by
  have hinvariant := nameFormFrom_invariant name 0
    (List.replicate 11 0x20) (by simp) (by decide)
  intro hhead
  apply hinvariant.2
  rw [← hhead, List.getD_eq_getElem _ _ (by simp)]
  exact List.getElem_mem _

/-- A slot in use: neither deleted nor never used. -/
def Dirent.isLive (entry : Dirent) : Prop :=
  ¬ entry.isFree

section Directory

variable {image : List UInt8} {offset : ℕ}

/-- `find` of a name that is too long stores behind `buf`. -/
theorem find_overrun {name : List UInt8} (hlong : ¬ Fits name) :
    find image offset name = .error ⟨.overrun, image⟩ := by
  rw [find, stringconv_of_not_fits hlong]

theorem fits_of_find {name : List UInt8} {found : Option (ℕ × Dirent)}
    (hfind : find image offset name = .ok found) : Fits name := by
  by_contra hlong
  rw [find_overrun hlong] at hfind
  cases hfind

/-- `find` returns the first slot with the name unless a never used slot comes
before it. -/
theorem find_cases (hholds : Holds image offset) {name : List UInt8}
    (hfits : Fits name) :
    (∃ slot < slots,
      (entryOf image offset slot).key = nameForm name ∧
      (entryOf image offset slot).name 0 ≠ 0xff ∧
      (∀ earlier < slot, (entryOf image offset earlier).name 0 ≠ 0xff ∧
        (entryOf image offset earlier).key ≠ nameForm name) ∧
      find image offset name = .ok (some (slot, entryOf image offset slot))) ∨
    ((∀ slot < slots, (entryOf image offset slot).key = nameForm name →
        ∃ earlier ≤ slot, (entryOf image offset earlier).name 0 = 0xff) ∧
      find image offset name = .ok none) := by
  obtain ⟨buf, hconv, hform⟩ := stringconv_of_fits hfits
  have hnone : ∀ entry : Dirent,
      findVisit (nameForm name) entry = none →
        entry.name 0 ≠ 0xff ∧ entry.key ≠ nameForm name := by
    intro entry hvisit
    unfold findVisit at hvisit
    split_ifs at hvisit with hmark hkey
    exact ⟨hmark, hkey⟩
  rcases scan_cases hholds (findVisit (nameForm name)) with
    ⟨slot, verdict, hslot, hvisit, hearlier, hscan⟩ | ⟨hall, hscan⟩
  · unfold findVisit at hvisit
    split_ifs at hvisit with hmark hkey
    · cases hvisit
      refine .inr ⟨fun other hother hsame => ⟨slot, ?_, hmark⟩,
        by simp only [find, hconv, hform, hscan]⟩
      by_contra hlt
      exact (hnone _ (hearlier other (by omega))).2 hsame
    · cases hvisit
      exact .inl ⟨slot, hslot, hkey, hmark,
        fun earlier hlt => hnone _ (hearlier earlier hlt),
        by simp only [find, hconv, hform, hscan]⟩
  · refine .inr ⟨fun slot hslot hsame => ?_, by simp only [find, hconv, hform, hscan]⟩
    exact absurd hsame (hnone _ (hall slot hslot)).2

theorem find_eq_none (hholds : Holds image offset) {name : List UInt8}
    (hfits : Fits name) (hnew : ∀ slot < slots,
      (entryOf image offset slot).key ≠ nameForm name) :
    find image offset name = .ok none := by
  rcases find_cases hholds hfits with
    ⟨slot, hslot, hkey, _⟩ | ⟨_, hfind⟩
  · exact absurd hkey (hnew slot hslot)
  · exact hfind

/-- `find` hits a slot that no never used slot and no namesake precedes. -/
theorem find_eq_some (hholds : Holds image offset) {name : List UInt8}
    (hfits : Fits name) {slot : ℕ} (hslot : slot < slots)
    (hkey : (entryOf image offset slot).key = nameForm name)
    (hmark : ∀ earlier ≤ slot, (entryOf image offset earlier).name 0 ≠ 0xff)
    (hfirst : ∀ earlier < slot,
      (entryOf image offset earlier).key ≠ nameForm name) :
    find image offset name =
      .ok (some (slot, entryOf image offset slot)) := by
  rcases find_cases hholds hfits with
    ⟨found, hfound, hkey', hmark', hearlier, hfind⟩ | ⟨hnone, _⟩
  · rcases Nat.lt_trichotomy found slot with hlt | rfl | hgt
    · exact absurd hkey' (hfirst found hlt)
    · exact hfind
    · exact absurd hkey (hearlier slot hgt).2
  · obtain ⟨earlier, hle, hfree⟩ := hnone slot hslot hkey
    exact absurd hfree (hmark earlier hle)

/-- The slot that `put` takes: the first free one. -/
theorem scan_slotVisit_cases (hholds : Holds image offset) :
    (∃ slot < slots, (entryOf image offset slot).isFree ∧
      (∀ earlier < slot, (entryOf image offset earlier).isLive) ∧
      scan image offset slotVisit =
        .ok (some ((), slot, entryOf image offset slot))) ∨
    ((∀ slot < slots, (entryOf image offset slot).isLive) ∧
      scan image offset slotVisit = .ok none) := by
  have hnone : ∀ entry : Dirent, slotVisit entry = none → entry.isLive := by
    intro entry hvisit hfree
    simp [slotVisit, hfree] at hvisit
  rcases scan_cases hholds slotVisit with
    ⟨slot, verdict, hslot, hvisit, hearlier, hscan⟩ | ⟨hall, hscan⟩
  · refine .inl ⟨slot, hslot, ?_, fun earlier hlt => hnone _ (hearlier earlier hlt),
      hscan⟩
    by_contra hlive
    simp [slotVisit, hlive] at hvisit
  · exact .inr ⟨fun slot hslot => hnone _ (hall slot hslot), hscan⟩

end Directory

/-! ## put -/

/-- The effect of a successful `put` that found `slot` and allocated
`chain`. -/
structure PutDone (opts : Opts) (image src name image' : List UInt8)
    (slot : ℕ) (x : Fin 68) (tail : List (Fin 68)) : Prop where
  length_chain : (x :: tail).length = src.length / granz + 1
  chain_free : ∀ granule ∈ x :: tail,
    fatOf image opts.offset granule = 0xff
  chain : Chain (fatNext (fatOf image' opts.offset)) x (x :: tail)
    (lastByte (src.length % granz))
  fat_frame : ∀ granule, granule ∉ x :: tail →
    fatOf image' opts.offset granule = fatOf image opts.offset granule
  entries : ∀ other < slots, entryOf image' opts.offset other =
    if other = slot then
      putEntry opts (entryOf image opts.offset slot) (UInt8.ofNat x.val)
        (src.length % granz) (nameForm name)
    else entryOf image opts.offset other
  gran_frame : ∀ granule, granule ∉ x :: tail →
    granOf image' opts.offset granule = granOf image opts.offset granule
  contents : ((x :: tail).flatMap (granOf image' opts.offset)).take src.length =
    opts.toDisk src
  length_image : image'.length = image.length
  outside : ∀ index, ¬ (opts.offset ≤ index ∧ index < opts.offset + diskz) →
    image'[index]? = image[index]?

/-- The end mark that `put` stores counts the sectors of the last granule. -/
theorem toNat_lastByte {size : ℕ} (hsize : size < granz) :
    (lastByte size).toNat = 192 + (size + 255) / 256 := by
  have hsmall : (size + secz - 1) / secz ≤ 9 := by
    simp only [granz, secz] at *
    omega
  have hall : ∀ n : Fin 10,
      (0xc0 ||| UInt8.ofNat n : UInt8).toNat = 192 + n.val := by decide
  have hvalue := hall ⟨(size + secz - 1) / secz, by omega⟩
  have hround : (size + secz - 1) / secz = (size + 255) / 256 := by
    simp only [secz]
    omega
  exact hvalue.trans (congrArg (192 + ·) hround)

theorem lastByte_bounds {size : ℕ} (hsize : size < granz) :
    192 ≤ (lastByte size).toNat ∧ (lastByte size).toNat ≤ 201 := by
  rw [toNat_lastByte hsize]
  simp only [granz] at hsize
  omega

/-- `put` of a new name with room in the table and in the directory. -/
theorem put_spec (opts : Opts) (image src name : List UInt8)
    (hholds : Holds image opts.offset)
    (hfind : find image opts.offset name = .ok none) {slot : ℕ}
    (hslot : slot < slots)
    (hscan : scan image opts.offset slotVisit =
      .ok (some ((), slot, entryOf image opts.offset slot)))
    (hroom : src.length / granz + 1 ≤
      (freeGrans (fatOf image opts.offset)).card) :
    ∃ image' x tail, put opts image src name = .ok image' ∧
      PutDone opts image src name image' slot x tail := by
  have hrest : src.length % granz < granz := Nat.mod_lt _ (by decide)
  obtain ⟨x, hfree, hfirst⟩ := findgran_of_free
    (Finset.card_pos.mp (Nat.lt_of_lt_of_le (Nat.succ_pos _) hroom))
  obtain ⟨fat', image', tail, last, hloop, halloc⟩ :=
    putLoop_spec opts (UInt8.ofNat x) (Function.update (fatOf image opts.offset) x 0xc0) image x src
      hholds (by rw [Function.update_self]; decide) (by
        rw [freeGrans_update_used (by decide),
          Finset.card_erase_of_mem (mem_freeGrans.mpr hfree)]
        exact Nat.le_sub_of_add_le hroom)
  have hholds' : Holds image' opts.offset :=
    hholds.of_length_eq halloc.length_image
  generalize hentry : putEntry opts (entryOf image opts.offset slot)
    (UInt8.ofNat x.val) (src.length % granz) (nameForm name) = entry
  have hsaved := saveentry_frame hholds' entry hslot
  have hholds'' : Holds (saveentry image' opts.offset slot entry) opts.offset :=
    hholds'.of_length_eq hsaved.1
  generalize hfat : Function.update fat' last (lastByte (src.length % granz)) =
    newfat
  have hwritten := savefat_frame hholds'' newfat
  refine ⟨savefat (saveentry image' opts.offset slot entry) opts.offset newfat,
    x, tail, ?_, ?_⟩
  · obtain ⟨buf, hconv, hform⟩ := stringconv_of_fits (fits_of_find hfind)
    simp only [put, loadfat_eq hholds, hfind, hscan, hfirst, ofInt_granule,
      hloop, toNat_ofNat_granule, Fin.isLt, dite_true, Int.natCast_nonneg,
      not_lt.mpr, if_false, Fin.eta, hconv, hform, hfat, hentry]
  have htrack : ∀ index, opts.offset + 78336 ≤ index →
      index < opts.offset + 82944 → image'[index]? = image[index]? :=
    fun index hlow hhigh => halloc.image_frame index fun granule _ =>
      not_inGran_of_track granule hlow hhigh
  refine ⟨by simp [halloc.length_tail], ?_, ?_, ?_, ?_, ?_, ?_, ?_, ?_⟩
  · intro granule hmem
    rcases List.mem_cons.mp hmem with rfl | hmem
    · exact hfree
    · have hvalue := halloc.tail_free granule hmem
      by_cases heq : granule = x
      · rw [heq]
        exact hfree
      · rwa [Function.update_of_ne heq] at hvalue
  · rw [fatOf_savefat hholds'', ← hfat]
    refine halloc.linked _ ?_
    have hbounds := lastByte_bounds hrest
    omega
  · intro granule hgranule
    have hlast : granule ≠ last := fun heq => hgranule (heq ▸ halloc.last_mem)
    have hx : granule ≠ x := fun heq => hgranule (heq ▸ List.mem_cons_self)
    rw [fatOf_savefat hholds'', ← hfat, Function.update_of_ne hlast,
      halloc.fat_frame granule hgranule, Function.update_of_ne hx]
  · intro other hother
    rw [entryOf_savefat hholds'' newfat hother,
      entryOf_saveentry hholds' entry hslot other hother,
      entryOf_congr hother htrack, hentry]
  · intro granule hgranule
    rw [granOf_savefat hholds'', granOf_saveentry hholds' entry hslot,
      granOf_congr fun index hindex => halloc.image_frame index ?_]
    intro other hother
    refine not_inGran_of_ne ?_ hindex
    rintro rfl
    exact hgranule hother
  · rw [← halloc.contents]
    congr 2
    funext granule
    rw [granOf_savefat hholds'', granOf_saveentry hholds' entry hslot]
  · rw [hwritten.1, hsaved.1, halloc.length_image]
  · intro index hindex
    rw [hwritten.2, hsaved.2, halloc.image_frame]
    · intro granule _ hin
      have hbounds := seekgran_bounds opts.offset granule
      unfold inGran at hin
      omega
    · simp only [dirst, slots, diskz] at *
      omega
    · simp only [fatst, fatz, diskz] at *
      omega

theorem put_overrun {opts : Opts} {image src name : List UInt8}
    (hholds : Holds image opts.offset) (hlong : ¬ Fits name) :
    put opts image src name = .error ⟨.overrun, image⟩ := by
  simp only [put, loadfat_eq hholds, find_overrun hlong]

/-! ## rm -/

theorem rm_overrun {opts : Opts} {image name : List UInt8}
    (hholds : Holds image opts.offset) (hlong : ¬ Fits name) :
    rm opts image name = .error ⟨.overrun, image⟩ := by
  simp only [rm, loadfat_eq hholds, find_overrun hlong]

/-- Deleting a chain frees its granules and no others. -/
theorem delchain_chain {fat : Fat} {x : Fin 68} {nodes : List (Fin 68)}
    {mark : UInt8} (hchain : Chain (fatNext fat) x nodes mark)
    (hmark : isLast mark) :
    delchain fat (UInt8.ofNat x) =
      some fun granule => if granule ∈ nodes then 0xff else fat granule := by
  induction nodes generalizing fat x with
  | nil => exact absurd rfl hchain.ne_nil
  | cons head rest ih =>
      have hnodup := hchain.nodup
      rw [delchain_granule]
      cases hchain with
      | last hnext =>
          rw [(fatNext_eq_inr hnext).1, delchain_last hmark]
          congr 1
          funext granule
          simp [Function.update_apply]
      | @link _ succ _ _ hnext htail =>
          have hfree := (List.nodup_cons.mp hnodup).1
          rw [fatNext_eq_inl hnext, ih (Chain.fat_congr htail fun node hnode =>
            Function.update_of_ne (by rintro rfl; exact hfree hnode) _ _)]
          congr 1
          funext granule
          by_cases hgranule : granule = head
          · simp [hgranule]
          · simp [hgranule]

/-- The effect of a successful `rm` of the entry in `slot`. -/
structure RmDone (opts : Opts) (image image' : List UInt8) (slot : ℕ)
    (nodes : List (Fin 68)) : Prop where
  fat : ∀ granule, fatOf image' opts.offset granule =
    if granule ∈ nodes then 0xff else fatOf image opts.offset granule
  entries : ∀ other < slots, entryOf image' opts.offset other =
    if other = slot then (entryOf image opts.offset slot).delete
    else entryOf image opts.offset other
  grans : ∀ granule,
    granOf image' opts.offset granule = granOf image opts.offset granule
  length_image : image'.length = image.length
  outside : ∀ index, ¬ (opts.offset ≤ index ∧ index < opts.offset + diskz) →
    image'[index]? = image[index]?

theorem rm_spec (opts : Opts) (image name : List UInt8)
    (hholds : Holds image opts.offset) {slot : ℕ} (hslot : slot < slots)
    (hfind : find image opts.offset name =
      .ok (some (slot, entryOf image opts.offset slot)))
    {x : Fin 68} {nodes : List (Fin 68)} {mark : UInt8}
    (hfirst : (entryOf image opts.offset slot).first = UInt8.ofNat x.val)
    (hchain : Chain (fatNext (fatOf image opts.offset)) x nodes mark)
    (hmark : isLast mark) :
    ∃ image', rm opts image name = .ok image' ∧
      RmDone opts image image' slot nodes := by
  generalize hfat : (fun granule =>
    if granule ∈ nodes then 0xff else fatOf image opts.offset granule) = fat
  have hdel : delchain (fatOf image opts.offset) (UInt8.ofNat x) = some fat := by
    rw [delchain_chain hchain hmark, hfat]
  generalize hentry : (entryOf image opts.offset slot).delete = entry
  have hsaved := savefat_frame hholds fat
  have hholds' : Holds (savefat image opts.offset fat) opts.offset :=
    hholds.of_length_eq hsaved.1
  have hwritten := saveentry_frame hholds' entry hslot
  refine ⟨saveentry (savefat image opts.offset fat) opts.offset slot entry,
    ?_, ?_, ?_, ?_, ?_, ?_⟩
  · simp only [rm, loadfat_eq hholds, hfind, hfirst, hdel, hentry]
  · intro granule
    rw [fatOf_saveentry hholds' entry hslot, fatOf_savefat hholds, ← hfat]
  · intro other hother
    rw [entryOf_saveentry hholds' entry hslot other hother,
      entryOf_savefat hholds fat hother, hentry]
  · intro granule
    rw [granOf_saveentry hholds' entry hslot, granOf_savefat hholds]
  · rw [hwritten.1, hsaved.1]
  · intro index hindex
    rw [hwritten.2, hsaved.2]
    · simp only [fatst, fatz, diskz] at *
      omega
    · simp only [dirst, slots, diskz] at *
      omega

/-! ## get -/

section Get

variable {opts : Opts} {image : List UInt8}

/-- One round of `get` at a granule of the table. -/
theorem getLoop_granule {x : Fin 68} (hreaches : Reaches image opts.offset x) (fat : Fat)
    (entry : Dirent) (rounds : ℕ) (written : List UInt8) :
    getLoop opts image fat entry (rounds + 1) (UInt8.ofNat x) written =
      (let size : ℤ :=
        if isLast (fat x) then lastSize (fat x) entry else granz
      if size < 0 then ⟨if size = -1 then none else some (.exit "write"), written⟩
      else if granz < size then ⟨some .overread, written⟩
      else if size = granz then
        getLoop opts image fat entry rounds (fat x)
          (written ++ (opts.toHost (granOf image opts.offset x)).take size.toNat)
      else ⟨none, written ++
        (opts.toHost (granOf image opts.offset x)).take size.toNat⟩) := by
  simp only [getLoop, toNat_ofNat_granule, Fin.isLt, dite_true, Fin.eta, toNat_unmarked_granule,
    hreaches.loadgran_eq]

/-- An index outside the table ends the loop whatever the disk holds. -/
private theorem getLoop_outside (image image' : List UInt8) (fat fat' : Fat)
    (entry : Dirent) {gran : UInt8} (hout : 68 ≤ gran.toNat) (rounds : ℕ)
    (written : List UInt8) :
    getLoop opts image' fat' entry rounds gran written =
      getLoop opts image fat entry rounds gran written := by
  cases rounds with
  | zero => rfl
  | succ rounds =>
      simp only [getLoop, Nat.not_lt.mpr hout, dite_false]

/-- Frame: what `get` does depends on the chain and on the granules along
it. -/
theorem getLoop_congr {image' : List UInt8} (hholds : Holds image opts.offset)
    (hholds' : Holds image' opts.offset) {fat fat' : Fat} (entry : Dirent)
    {x : Fin 68} {nodes : List (Fin 68)} {mark : UInt8}
    (hchain : Chain (fatNext fat) x nodes mark)
    (hfat : ∀ granule ∈ nodes, fat' granule = fat granule)
    (hgran : ∀ granule ∈ nodes,
      granOf image' opts.offset granule = granOf image opts.offset granule)
    (rounds : ℕ) (written : List UInt8) :
    getLoop opts image' fat' entry rounds (UInt8.ofNat x) written =
      getLoop opts image fat entry rounds (UInt8.ofNat x) written := by
  induction hchain generalizing rounds written with
  | @last node mark hnext =>
      cases rounds with
      | zero => rfl
      | succ rounds =>
          have hvalue : 68 ≤ (fat node).toNat := by
            rw [(fatNext_eq_inr hnext).1]
            exact (fatNext_eq_inr hnext).2
          rw [getLoop_granule (hholds.reaches node), getLoop_granule (hholds'.reaches node),
            hfat node (by simp), hgran node (by simp)]
          simp only [getLoop_outside image image' fat fat' entry hvalue]
  | @link node succ nodes mark hnext htail ih =>
      cases rounds with
      | zero => rfl
      | succ rounds =>
          rw [getLoop_granule (hholds.reaches node), getLoop_granule (hholds'.reaches node),
            hfat node (by simp), hgran node (by simp), fatNext_eq_inl hnext]
          simp only [ih (fun granule hmem => hfat granule (by simp [hmem]))
            (fun granule hmem => hgran granule (by simp [hmem]))]

@[simp]
theorem length_toHost (opts : Opts) (bytes : List UInt8) :
    (opts.toHost bytes).length = bytes.length := by
  simp only [Opts.toHost, cr2nl]
  split <;> simp

theorem toHost_append (opts : Opts) (left right : List UInt8) :
    opts.toHost (left ++ right) = opts.toHost left ++ opts.toHost right := by
  simp only [Opts.toHost, cr2nl]
  split <;> simp

theorem toHost_take (opts : Opts) (bytes : List UInt8) (count : ℕ) :
    opts.toHost (bytes.take count) = (opts.toHost bytes).take count := by
  simp only [Opts.toHost, cr2nl]
  split <;> simp [List.map_take]

/-- `get` copies a granule that has a successor. -/
theorem getLoop_link {fat : Fat} {entry : Dirent} {x succ : Fin 68}
    (hreaches : Reaches image opts.offset x) (hlink : fat x = UInt8.ofNat succ)
    (rounds : ℕ) (written : List UInt8) :
    getLoop opts image fat entry (rounds + 1) (UInt8.ofNat x) written =
      getLoop opts image fat entry rounds (UInt8.ofNat succ)
        (written ++ opts.toHost (granOf image opts.offset x)) := by
  have hwhole : (opts.toHost (granOf image opts.offset x)).take granz =
      opts.toHost (granOf image opts.offset x) := by
    apply List.take_of_length_le
    rw [length_toHost, hreaches.length_granOf]
  rw [getLoop_granule hreaches, hlink, if_neg (not_isLast_granule succ)]
  dsimp only
  rw [if_neg (by omega), if_neg (lt_irrefl _), if_pos rfl, Int.toNat_natCast, hwhole]

/-- `get` copies a chain up to its last granule. -/
theorem getLoop_links {fat : Fat} (entry : Dirent) {x : Fin 68} {nodes : List (Fin 68)}
    {mark : UInt8} (hchain : Chain (fatNext fat) x nodes mark)
    (hreaches : ∀ node ∈ nodes, Reaches image opts.offset node)
    {rounds : ℕ} (hrounds : nodes.length ≤ rounds) (written : List UInt8) :
    ∃ front last left, nodes = front ++ [last] ∧ fat last = mark ∧
      rounds = nodes.length + left ∧
      getLoop opts image fat entry rounds (UInt8.ofNat x) written =
        getLoop opts image fat entry (left + 1) (UInt8.ofNat last)
          (written ++ opts.toHost (front.flatMap (granOf image opts.offset))) := by
  induction hchain generalizing rounds written with
  | @last node mark hnext =>
      obtain ⟨left, rfl⟩ := Nat.exists_eq_add_of_le' hrounds
      refine ⟨[], node, left, rfl, (fatNext_eq_inr hnext).1, Nat.add_comm left 1, ?_⟩
      have hempty : opts.toHost [] = [] := List.length_eq_zero_iff.mp (length_toHost opts [])
      rw [List.flatMap_nil, hempty, List.append_nil]
      rfl
  | @link node succ nodes mark hnext htail ih =>
      obtain ⟨rounds, rfl⟩ := Nat.exists_eq_add_of_le' (Nat.le_of_add_left_le hrounds)
      have hnode := hreaches node List.mem_cons_self
      obtain ⟨front, last, left, hnodes, hlast, hleft, hloop⟩ :=
        ih (fun other hmem => hreaches other (List.mem_cons_of_mem node hmem))
          (Nat.le_of_succ_le_succ hrounds)
          (written ++ opts.toHost (granOf image opts.offset node))
      refine ⟨node :: front, last, left, congrArg (node :: ·) hnodes, hlast, ?_, ?_⟩
      · rw [hleft, List.length_cons, Nat.add_right_comm]
      · rw [getLoop_link hnode (fatNext_eq_inl hnext), hloop, List.flatMap_cons,
          toHost_append, List.append_assoc]

/-- The granules in front of the last one of a chain. -/
theorem length_flatMap_granOf {front : List (Fin 68)}
    (hreaches : ∀ node ∈ front, Reaches image opts.offset node) :
    (front.flatMap (granOf image opts.offset)).length = granz * front.length := by
  induction front with
  | nil => rfl
  | cons node front ih =>
      rw [List.flatMap_cons, List.length_append,
        (hreaches node List.mem_cons_self).length_granOf,
        ih fun other hmem => hreaches other (List.mem_cons_of_mem node hmem),
        List.length_cons, Nat.mul_succ, Nat.add_comm]

/-- `get` along a chain whose last granule holds `size` bytes writes the
granules in order, cut there. -/
theorem getLoop_chain (hholds : Holds image opts.offset) {fat : Fat}
    {entry : Dirent} {x : Fin 68} {nodes : List (Fin 68)} {mark : UInt8}
    (hchain : Chain (fatNext fat) x nodes mark) (hmark : isLast mark)
    {size : ℕ} (hsize : lastSize mark entry = size) (hshort : size < granz)
    (rounds : ℕ) (hrounds : nodes.length ≤ rounds) (written : List UInt8) :
    getLoop opts image fat entry rounds (UInt8.ofNat x) written =
      ⟨none, written ++ opts.toHost
        ((nodes.flatMap (granOf image opts.offset)).take
          (granz * (nodes.length - 1) + size))⟩ := by
  obtain ⟨front, last, left, rfl, hlast, _, hloop⟩ := getLoop_links entry hchain
    (fun node _ => hholds.reaches node) hrounds written
  have hfront : (front.flatMap (granOf image opts.offset)).length = granz * front.length :=
    length_flatMap_granOf fun node _ => hholds.reaches node
  have hcut : ((front ++ [last]).flatMap (granOf image opts.offset)).take
      (granz * ((front ++ [last]).length - 1) + size) =
        front.flatMap (granOf image opts.offset) ++
          (granOf image opts.offset last).take size := by
    rw [List.flatMap_append, List.flatMap_singleton, List.length_append,
      List.length_singleton, Nat.add_sub_cancel, ← hfront, List.take_length_add_append]
  rw [hloop, getLoop_granule (hholds.reaches last), hlast, if_pos hmark, hsize, hcut,
    toHost_append, toHost_take, ← List.append_assoc]
  dsimp only
  rw [if_neg (by omega), if_neg (by omega), if_neg (by omega), Int.toNat_natCast]

/-- A byte count below -1 in the last granule is refused by the write. -/
theorem getLoop_negative (hholds : Holds image opts.offset) {fat : Fat}
    {entry : Dirent} {x : Fin 68} {nodes : List (Fin 68)} {mark : UInt8}
    (hchain : Chain (fatNext fat) x nodes mark) (hmark : isLast mark)
    (hsize : lastSize mark entry < -1)
    (rounds : ℕ) (hrounds : nodes.length ≤ rounds) (written : List UInt8) :
    (getLoop opts image fat entry rounds (UInt8.ofNat x) written).halt =
      some (.exit "write") := by
  obtain ⟨front, last, left, rfl, hlast, _, hloop⟩ := getLoop_links entry hchain
    (fun node _ => hholds.reaches node) hrounds written
  rw [hloop, getLoop_granule (hholds.reaches last), hlast, if_pos hmark]
  dsimp only
  rw [if_pos (by omega), if_neg (by omega)]

end Get

end Fip.Decb
