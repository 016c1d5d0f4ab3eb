import Fip.Decb.Walks
import Fip.Decb.Isolation

/-!
# The boot track and the files on it

`putboot` looks whether a file already has a granule of the boot track, reports it,
and then writes all the same.
-/

namespace Fip.Decb

open Fip.ByteFile

local instance neZero_bootFat : NeZero 68 := ⟨by decide⟩

/-- A file has a granule of the boot track. -/
def BootUsed (image : List UInt8) (offset : ℕ) : Prop :=
  InUse image offset 66 ∨ InUse image offset 67

/-- What `putboot` has to leave where no file is on the boot track. -/
structure BootDone (offset : ℕ) (image src image' : List UInt8) : Prop where
  data : src.take (2 * granz) <+: granOf image' offset 66 ++ granOf image' offset 67
  marks : fatOf image' offset 66 = 0xc0 ∧ fatOf image' offset 67 = 0xc0
  files : ∀ slot, LiveSlot image offset slot → SameFile offset image image' slot

/-- `putboot` fails and changes nothing if a file is on the boot track, and otherwise
does its work. -/
def RespectsFiles (opts : Opts) (image src : List UInt8) : Prop :=
  (BootUsed image opts.offset →
    ∃ stop, putb opts image src = .error stop ∧ stop.image = image) ∧
  (¬ BootUsed image opts.offset →
    ∃ done, putb opts image src = .ok done ∧ BootDone opts.offset image src done.image)

section

variable {opts : Opts} {image src : List UInt8} {offset : ℕ} {reserved : Finset (Fin 68)}

theorem FileChain.ends {slot : ℕ} {nodes : List (Fin 68)}
    (hfile : FileChain image offset slot nodes) :
    Ends (fatOf image offset) (entryOf image offset slot).first := by
  obtain ⟨x, mark, hfirst, hchain, hlow, _⟩ := hfile
  exact .inr ⟨x, nodes, mark, hfirst, hchain, (isLast_iff mark).mpr hlow⟩

/-- The search for the boot track comes to an end. -/
theorem FsInv.bootRefs_ok (hinv : FsInv image offset reserved) :
    ∃ refs, (eachEntry image offset fun entry =>
      bootRefs (fatOf image offset) entry.first) = .ok refs := by
  have hsearch : ∀ stop, (eachEntry image offset fun entry =>
      bootRefs (fatOf image offset) entry.first) = .error stop → False := by
    apply (eachEntryFrom_iff (fun _ _ _ => not_false) ?_ (slots + 1) (Nat.zero_add _)).mpr
    · intro slot hscanned
      obtain ⟨nodes, hfile, _⟩ := hinv.chain slot ⟨hscanned.lt, hscanned.live⟩
      exact walk_of_ends hfile.ends
    · intro slot hle hshort
      apply hshort
      have hholds := hinv.holds
      simp only [ReachesSlot, Holds, dirst, slots, diskz] at *
      omega
  cases heach : eachEntry image offset fun entry =>
      bootRefs (fatOf image offset) entry.first with
  | error stop => exact (hsearch stop heach).elim
  | ok refs => exact ⟨refs, rfl⟩

/-- The image with the source in the boot track. -/
def bootImage (offset : ℕ) (image src : List UInt8) : List UInt8 :=
  let written := writegran (writegran image offset 66 (src.take granz)) offset 67
    ((src.drop granz).take granz)
  savefat written offset
    (Function.update (Function.update (fatOf image offset) 67 0xc0) 66 0xc0)

/-- `putboot` writes the boot track, whoever uses it. -/
theorem putb_eq (hinv : FsInv image opts.offset reserved) (src : List UInt8) :
    ∃ stderr, putb opts image src = .ok ⟨bootImage opts.offset image src, stderr⟩ := by
  obtain ⟨refs, hrefs⟩ := hinv.bootRefs_ok
  simp only [putb, loadfat_eq hinv.holds, hrefs]
  exact ⟨_, rfl⟩

theorem length_take_granz (src : List UInt8) : (src.take granz).length ≤ granz :=
  List.length_take_le granz src

section Written

variable (hholds : Holds image offset)

include hholds

theorem holds_first :
    Holds (writegran image offset 66 (src.take granz)) offset :=
  hholds.of_length_eq (writegran_frame hholds 66 _ (length_take_granz src)).1

theorem holds_written :
    Holds (writegran (writegran image offset 66 (src.take granz)) offset 67
      ((src.drop granz).take granz)) offset :=
  (holds_first hholds).of_length_eq
    (writegran_frame (holds_first hholds) 67 _ (length_take_granz _)).1

theorem holds_bootImage : Holds (bootImage offset image src) offset :=
  (holds_written hholds).of_length_eq (savefat_frame (holds_written hholds) _).1

theorem fatOf_bootImage : fatOf (bootImage offset image src) offset =
    Function.update (Function.update (fatOf image offset) 67 0xc0) 66 0xc0 :=
  fatOf_savefat (holds_written hholds) _

/-- Outside the two granules nothing is written. -/
theorem written_frame {index : ℕ} (hfirst : ¬ inGran offset 66 index)
    (hsecond : ¬ inGran offset 67 index) :
    (writegran (writegran image offset 66 (src.take granz)) offset 67
      ((src.drop granz).take granz))[index]? = image[index]? := by
  rw [(writegran_frame (holds_first hholds) 67 _ (length_take_granz _)).2 index hsecond]
  exact (writegran_frame hholds 66 _ (length_take_granz src)).2 index hfirst

theorem entryOf_bootImage {slot : ℕ} (hslot : slot < slots) :
    entryOf (bootImage offset image src) offset slot = entryOf image offset slot := by
  rw [bootImage, entryOf_savefat (holds_written hholds) _ hslot]
  apply entryOf_congr hslot
  intro index hlow hhigh
  exact written_frame hholds (not_inGran_of_track 66 hlow hhigh)
    (not_inGran_of_track 67 hlow hhigh)

/-- The other granules keep their bytes. -/
theorem granOf_bootImage {granule : Fin 68} (hfirst : granule ≠ 66) (hsecond : granule ≠ 67) :
    granOf (bootImage offset image src) offset granule = granOf image offset granule := by
  rw [bootImage, granOf_savefat (holds_written hholds)]
  apply granOf_congr
  intro index hindex
  exact written_frame hholds (not_inGran_of_ne hfirst hindex)
    (not_inGran_of_ne hsecond hindex)

/-- The boot track itself begins with the source. -/
theorem bootTrack_bootImage :
    src.take (2 * granz) <+: granOf (bootImage offset image src) offset 66 ++
      granOf (bootImage offset image src) offset 67 := by
  have hfirst : granOf (bootImage offset image src) offset 66 =
      src.take granz ++ (granOf image offset 66).drop (src.take granz).length := by
    rw [bootImage, granOf_savefat (holds_written hholds),
      ← granOf_writegran_self hholds 66 (length_take_granz src)]
    apply granOf_congr
    intro index hindex
    exact (writegran_frame (holds_first hholds) 67 _ (length_take_granz _)).2 index
      (not_inGran_of_ne (by decide) hindex)
  have hsecond : (src.drop granz).take granz <+:
      granOf (bootImage offset image src) offset 67 := by
    rw [bootImage, granOf_savefat (holds_written hholds),
      granOf_writegran_self (holds_first hholds) 67 (length_take_granz _)]
    exact List.prefix_append _ _
  rw [Nat.two_mul, List.take_add]
  by_cases hlong : granz ≤ src.length
  · have hfull : (granOf image offset 66).drop (src.take granz).length = [] := by
      rw [List.length_take, Nat.min_eq_left hlong, ← length_granOf hholds 66,
        List.drop_length]
    rw [hfirst, hfull, List.append_nil]
    exact (List.prefix_append_right_inj _).mpr hsecond
  · rw [List.drop_eq_nil_of_le (Nat.le_of_not_le hlong), List.take_nil, List.append_nil, hfirst,
      List.append_assoc]
    exact List.prefix_append _ _

end Written

/-- Files that are not on the boot track stay. -/
theorem FsInv.bootDone (hinv : FsInv image offset reserved) (hunused : ¬ BootUsed image offset) :
    BootDone offset image src (bootImage offset image src) := by
  have hfat : fatOf (bootImage offset image src) offset =
      Function.update (Function.update (fatOf image offset) 67 0xc0) 66 0xc0 :=
    fatOf_bootImage hinv.holds
  refine ⟨bootTrack_bootImage hinv.holds, ⟨by rw [hfat]; rfl, by rw [hfat]; rfl⟩, ?_⟩
  intro slot hlive
  apply hinv.sameFile hlive (holds_bootImage hinv.holds)
    (entryOf_bootImage hinv.holds hlive.1)
  · intro earlier hlt
    exact .inl (entryOf_bootImage hinv.holds (hlt.trans hlive.1))
  · intro nodes hfile granule hmem
    have hfirst : granule ≠ 66 := by
      rintro rfl
      exact hunused (.inl ⟨slot, nodes, hlive, hfile, hmem⟩)
    have hsecond : granule ≠ 67 := by
      rintro rfl
      exact hunused (.inr ⟨slot, nodes, hlive, hfile, hmem⟩)
    constructor
    · rw [hfat, Function.update_of_ne hfirst, Function.update_of_ne hsecond]
    · exact granOf_bootImage hinv.holds hfirst hsecond

/-- `putboot` never fails on a sound disk. -/
theorem FsInv.not_respectsFiles (hinv : FsInv image opts.offset reserved)
    (hused : BootUsed image opts.offset) : ¬ RespectsFiles opts image src := by
  rintro ⟨hfails, _⟩
  obtain ⟨stop, hstop, _⟩ := hfails hused
  obtain ⟨stderr, hputb⟩ := putb_eq hinv src
  cases hstop.symm.trans hputb

/-- `putboot` respects the files exactly where none is on the boot track. -/
theorem respectsFiles_iff (hinv : FsInv image opts.offset reserved) (src : List UInt8) :
    RespectsFiles opts image src ↔ ¬ BootUsed image opts.offset := by
  constructor
  · intro hrespects hused
    exact hinv.not_respectsFiles hused hrespects
  · intro hunused
    obtain ⟨stderr, hputb⟩ := putb_eq hinv src
    exact ⟨fun hused => absurd hused hunused, fun _ => ⟨_, hputb, hinv.bootDone hunused⟩⟩

/-- A file of 68 granules is on each of them. -/
theorem PutDone.mem_of_full {name image' : List UInt8} {slot : ℕ} {x : Fin 68}
    {tail : List (Fin 68)} (hdone : PutDone opts image src name image' slot x tail)
    (hlong : src.length / granz + 1 = 68) (granule : Fin 68) : granule ∈ x :: tail := by
  have hcard : (x :: tail).toFinset.card = Fintype.card (Fin 68) := by
    rw [List.toFinset_card_of_nodup hdone.chain.nodup, hdone.length_chain, hlong,
      Fintype.card_fin]
  rw [← List.mem_toFinset, Finset.eq_univ_of_card _ hcard]
  exact Finset.mem_univ granule

end

/-- A disk made with `-p` and the file `A` on it, which is not on the boot track. -/
theorem respectsFiles_iff_oneFile :
    ∃ image image', mkfs { Opts.initial with boot := true } [] = .ok image ∧
      put .initial image [0x58] [0x41] = .ok image' ∧ LiveSlot image' 0 0 ∧
      ¬ BootUsed image' 0 ∧
      (RespectsFiles .initial image' [0x7e] ↔ ¬ BootUsed image' 0) := by
  obtain ⟨image, hmkfs, _, hfat, hentries⟩ :=
    mkfs_spec { Opts.initial with boot := true } []
  have hinv : FsInv image Opts.initial.offset
      (reservedGrans { Opts.initial with boot := true }) := .of_mkfs hmkfs
  have hfree : (entryOf image Opts.initial.offset 0).isFree :=
    .inr (hentries 0 (by decide))
  have hfind : find image Opts.initial.offset [0x41] = .ok none :=
    find_behind_marker hinv.holds (hentries 0 (by decide)) (by decide)
  have hroom : 1 ≤ (freeGrans (fatOf image Opts.initial.offset)).card := by
    have hfat' : fatOf image Opts.initial.offset = _ := hfat
    rw [hfat']
    decide
  obtain ⟨image', x, tail, hput, hdone⟩ := put_spec .initial image [0x58] [0x41]
    hinv.holds hfind (by decide : 0 < slots)
    (scan_slotVisit_eq hinv.holds (by decide) hfree (by simp)) hroom
  have hinv' := hinv.put hdone (by decide) hfree (by simp) hfind (by decide)
  have hunused : ¬ BootUsed image' 0 := by
    rintro (hused | hused)
    · exact (hinv'.reserved_free 66 (by decide)).2 hused
    · exact (hinv'.reserved_free 67 (by decide)).2 hused
  exact ⟨image, image', hmkfs, hput,
    (hdone.liveSlot_iff (by decide) (by decide) 0).mpr (.inl rfl), hunused,
    respectsFiles_iff hinv' [0x7e]⟩

/-- A file that fills a fresh disk is overwritten in its last two granules. -/
theorem not_respectsFiles_fullDisk :
    ∃ image image', mkfs .initial [] = .ok image ∧
      put .initial image (List.replicate 154368 0x58) [0x41] = .ok image' ∧
      FsInv image' 0 (reservedGrans .initial) ∧ BootUsed image' 0 ∧
      ¬ RespectsFiles .initial image' [0x7e] := by
  obtain ⟨image, hmkfs, hstorable⟩ := storable_fresh []
  have hfresh := hstorable (List.replicate 154368 0x58) [0x41]
    (by rw [List.length_replicate]; decide) (by decide)
  have hinv : FsInv image 0 (reservedGrans .initial) := .of_mkfs hmkfs
  have hfind := find_eq_none_of_new hinv (by decide) fun slot hlive => hfresh.new slot hlive.1
  rcases scan_slotVisit_cases hinv.holds with ⟨slot, hslot, hfree, hearlier, hscan⟩ | ⟨hall, _⟩
  · obtain ⟨image', x, tail, hput, hdone⟩ := put_spec .initial image _ [0x41]
      hinv.holds hfind hslot hscan hfresh.room
    have hinv' := hinv.put hdone hslot hfree hearlier hfind hfresh.visible
    have hused : BootUsed image' 0 := by
      refine .inl ⟨slot, x :: tail, ?_, hdone.fileChain_new hslot, ?_⟩
      · exact (hdone.liveSlot_iff hslot hfresh.visible slot).mpr (.inl rfl)
      · apply hdone.mem_of_full
        rw [List.length_replicate]
        rfl
    exact ⟨image, image', hmkfs, hput, hinv', hused, hinv'.not_respectsFiles hused⟩
  · obtain ⟨slot, hslot, hfree⟩ := hfresh.slot
    exact absurd hfree (hall slot hslot)

end Fip.Decb
