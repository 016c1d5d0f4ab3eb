import Fip.Decb.Transfer

/-!
# Runs of `decb`

A disk starts as the image that `mkfs` leaves and is then changed by `put` and
`rm`.
-/

namespace Fip.Decb

open Fip.ByteFile

/-! ## mkfs -/

private theorem mkfs_fill (image : List UInt8) (offset count : ℕ) :
    ∀ index, offset ≤ index → index < offset + granz * count →
      ((List.range count).foldl
        (fun image x =>
          pwrite image (offset + granz * x) (List.replicate granz 0xff))
        image)[index]? = some 0xff := by
  induction count with
  | zero => intro index hlow hhigh; omega
  | succ count ih =>
      intro index hlow hhigh
      rw [List.range_succ, List.foldl_append]
      simp only [List.foldl_cons, List.foldl_nil]
      rw [Nat.mul_succ] at hhigh
      rcases Nat.lt_or_ge index (offset + granz * count) with hold | hnew
      · have hvalue := ih index hlow hold
        have hlength := (List.getElem?_eq_some_iff.mp hvalue).1
        rw [getElem?_pwrite_below _ hlength hold, hvalue]
      · obtain ⟨inner, rfl⟩ := Nat.exists_eq_add_of_le hnew
        have hinner : inner < granz := by omega
        rw [getElem?_pwrite_inside _ _ _ (by simpa using hinner),
          List.getElem?_replicate, if_pos hinner]

/-- A fresh disk: no granule in use but the reserved ones, no entry ever
used. -/
theorem mkfs_spec (opts : Opts) (image : List UInt8) :
    ∃ image', mkfs opts image = .ok image' ∧
      Holds image' opts.offset ∧
      fatOf image' opts.offset = reserve opts (fun _ => 0xff) ∧
      ∀ slot < slots, (entryOf image' opts.offset slot).name 0 = 0xff := by
  generalize hblank : (List.range 70).foldl
    (fun image x =>
      pwrite image (opts.offset + granz * x) (List.replicate granz 0xff))
    image = blank
  have hfilled : ∀ index, opts.offset ≤ index → index < opts.offset + diskz →
      blank[index]? = some 0xff := by
    intro index hlow hhigh
    rw [← hblank]
    refine mkfs_fill image opts.offset 70 index hlow ?_
    simp only [granz, diskz] at *
    omega
  have hholds : Holds blank opts.offset := by
    have hend := hfilled (opts.offset + diskz - 1)
      (by simp only [diskz]; omega) (by simp only [diskz]; omega)
    have hlength := (List.getElem?_eq_some_iff.mp hend).1
    simp only [Holds, diskz] at *
    omega
  have hfat : fatOf blank opts.offset = fun _ => 0xff := by
    funext granule
    have hlt : granule.val < fatz := granule.isLt
    rw [fatOf, List.getD_eq_getElem?_getD, getElem?_pread, if_pos hlt,
      hfilled _ (by omega) (by simp only [fatst, fatz, diskz] at *; omega)]
    rfl
  refine ⟨savefat blank opts.offset (reserve opts fun _ => 0xff), ?_, ?_, ?_, ?_⟩
  · simp only [mkfs, hblank, loadfat_eq hholds, hfat]
  · exact hholds.of_length_eq (savefat_frame hholds _).1
  · exact fatOf_savefat hholds _
  · intro slot hslot
    rw [entryOf_savefat hholds _ hslot]
    change (pread blank (dirst + opts.offset + 32 * slot) 32).getD 0 0 = 0xff
    rw [List.getD_eq_getElem?_getD, getElem?_pread, if_pos (by omega),
      hfilled _ (by omega) (by simp only [dirst, diskz, slots] at *; omega)]
    rfl

/-! ## Commands -/

inductive Command where
  | put (opts : Opts) (src name : List UInt8)
  | rm (opts : Opts) (name : List UInt8)

namespace Command

def opts : Command → Opts
  | put opts _ _ => opts
  | rm opts _ => opts

def name : Command → List UInt8
  | put _ _ name => name
  | rm _ name => name

def exec (image : List UInt8) : Command → Except Stop (List UInt8)
  | put opts src name => Decb.put opts image src name
  | rm opts name => Decb.rm opts image name

end Command

/-- The image file after a command, refused or not.  A command that left its
arrays or never ends has none. -/
def imageAfter : Except Stop (List UInt8) → Option (List UInt8)
  | .ok image => some image
  | .error ⟨.exit _, image⟩ => some image
  | .error _ => none

/-- The image file after a run of commands. -/
def run (image : List UInt8) (commands : List Command) : Option (List UInt8) :=
  commands.foldlM (fun image command => imageAfter (command.exec image)) image

/-- Images reached from `mkfs` by successful `put` and `rm` commands. -/
inductive Built (offset : ℕ) : List UInt8 → Prop where
  | mkfs {opts : Opts} {image image' : List UInt8}
      (hoffset : opts.offset = offset)
      (hmkfs : Decb.mkfs opts image = .ok image') : Built offset image'
  | step {image image' : List UInt8} (command : Command)
      (hbuilt : Built offset image) (hoffset : command.opts.offset = offset)
      (hexec : command.exec image = .ok image') : Built offset image'

/-- The loop of `put` never shrinks the image. -/
theorem length_le_putLoop {opts : Opts} {first x : UInt8} {fat : Fat}
    {image src : List UInt8} {result : Fat × List UInt8 × UInt8 × ℕ}
    (hloop : putLoop opts first fat image x src = .ok result) :
    image.length ≤ result.2.1.length := by
  induction hsize : src.length using Nat.strong_induction_on
    generalizing fat image x src with
  | _ size ih =>
  subst hsize
  rw [putLoop] at hloop
  have hgrow := length_le_length_pwrite image (seekgran opts.offset x.toNat)
    (opts.toDisk (src.take granz))
  dsimp only at hloop
  split_ifs at hloop with hshort hindex hneg
  · cases hloop
    exact hgrow
  · split at hloop <;> cases hloop
  · refine hgrow.trans (ih _ ?_ hloop rfl)
    have hpositive : 0 < granz := by decide
    simp only [List.length_take, List.length_drop] at *
    omega

theorem length_le_exec {command : Command} {image image' : List UInt8}
    (hexec : command.exec image = .ok image') :
    image.length ≤ image'.length := by
  cases command with
  | put opts src name =>
      simp only [Command.exec, put] at hexec
      repeat' split at hexec
      all_goals cases hexec
      rename_i hloop _ _ _ _
      refine (length_le_putLoop hloop).trans ?_
      exact (length_le_length_pwrite _ _ _).trans (length_le_length_pwrite _ _ _)
  | rm opts name =>
      simp only [Command.exec, rm] at hexec
      repeat' split at hexec
      all_goals cases hexec
      exact (length_le_length_pwrite _ _ _).trans (length_le_length_pwrite _ _ _)

theorem Built.holds {offset : ℕ} {image : List UInt8}
    (hbuilt : Built offset image) : Holds image offset := by
  induction hbuilt with
  | @mkfs opts image image' hoffset hmkfs =>
      obtain ⟨fresh, hfresh, hholds, _⟩ := mkfs_spec opts image
      rw [hmkfs] at hfresh
      cases hfresh
      rwa [← hoffset]
  | step command _ _ hexec ih =>
      have hlength := length_le_exec hexec
      unfold Holds at *
      omega

end Fip.Decb
