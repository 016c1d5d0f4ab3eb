import Fip.Booter.Load
import Mathlib.Data.List.Induction

/-!
# Mounting a filesystem

`mount` reads the master boot record into `buf`, takes the start of the partition
from it and looks for the superblock there.  All of its reads go through
`dev_read`, which adds the start of the partition that was mounted before.
-/

namespace Fip.Booter

/-- A device: whether `dev_init` fails for a drive, and what the read of a block of
the drive delivers and whether it fails. -/
structure Device where
  init : ℕ → Bool
  read : ℕ → UInt32 → Block × Bool

/-- The variables of `mount`: the memory from `buf` on, the start of the partition,
whether a filesystem is mounted and its current directory; and the blocks that the
last call has read. -/
structure MountState where
  mem : ℕ → UInt8
  partOffset : UInt32
  mountf : Bool
  cd : ℕ
  blocks : List UInt32

/-- A long in memory. -/
def long (mem : ℕ → UInt8) (addr : ℕ) : UInt32 :=
  .ofNat ((((mem addr).toNat * 256 + (mem (addr + 1)).toNat) * 256 +
    (mem (addr + 2)).toNat) * 256 + (mem (addr + 3)).toNat)

/-- A long whose bytes are the other way round. -/
def littleLong (mem : ℕ → UInt8) (addr : ℕ) : UInt32 :=
  .ofNat ((mem addr).toNat + 256 * ((mem (addr + 1)).toNat +
    256 * ((mem (addr + 2)).toNat + 256 * (mem (addr + 3)).toNat)))

/-- The bytes are swapped where they are. -/
def swizzle32 (mem : ℕ → UInt8) (addr : ℕ) : (ℕ → UInt8) × UInt32 :=
  let swapped := Memory.write mem addr
    [mem (addr + 3), mem (addr + 2), mem (addr + 1), mem addr]
  (swapped, long swapped addr)

def mbrMagic (mem : ℕ → UInt8) : Bool :=
  mem 510 = 0x55 ∧ mem 511 = 0xaa

/-- `s_mounted` of the superblock is the magic number. -/
def superMagic (mem : ℕ → UInt8) : Bool :=
  (mem 0).toNat * 256 + (mem 1).toNat = 0x31c6

/-- Where the nth entry of the partition table, counted from one, has its first
block. -/
def lbaFirst (n : ℕ) : ℕ :=
  446 + 16 * n - 16 + 8

section

variable (dev : Device) (minor part : ℕ)

def devRead (blk : UInt32) (s : MountState) : MountState × Bool :=
  let (block, failed) := dev.read minor (blk + s.partOffset)
  ({ s with
      mem := Memory.write s.mem 0 block.1
      blocks := s.blocks ++ [blk + s.partOffset] }, failed)

/-- The label `bad`. -/
def bad (s : MountState) : MountState × Bool :=
  ({ s with mountf := false }, false)

/-- The superblock is checked. -/
def mountSuper (s : MountState) : MountState × Bool :=
  let (s, failed) := devRead dev minor 1 s
  if failed then bad s
  else if superMagic s.mem then ({ s with mountf := true, cd := 1 }, true) else bad s

/-- The start of the partition is looked up, in the entry that the number of the
drive says. -/
def mountPart (s : MountState) : MountState × Bool :=
  if mbrMagic s.mem then
    if part ≠ 0 then
      let (mem, offset) := swizzle32 s.mem (lbaFirst minor)
      mountSuper dev minor { s with mem := mem, partOffset := offset }
    else mountSuper dev minor s
  else
    let s := { s with partOffset := 0 }
    if part > 0 then bad s else mountSuper dev minor s

def mount (s : MountState) : MountState × Bool :=
  let s := { s with blocks := [] }
  if dev.init minor then bad s
  else
    let (s, failed) := devRead dev minor 0 s
    if failed then bad s else mountPart dev minor part s

/-- Calls of `mount` one after the other. -/
def mounts (history : List (ℕ × ℕ)) (s : MountState) : MountState :=
  history.foldl (fun s call => (mount dev call.1 call.2 s).1) s

/-- The start of the partition as the table on the device has it. -/
def partStart : UInt32 :=
  if part = 0 then 0
  else littleLong (fun index => (dev.read minor 0).1.1.getD index 0) (lbaFirst part)

/-- What is to come of a call: the master boot record is the first block of the
device, the start of the partition is that of the table, the superblock is behind
it, and nothing is mounted if that fails. -/
structure Lawful (r : MountState × Bool) : Prop where
  mbr : ∀ blk, r.1.blocks.head? = some blk → blk = 0
  offset : r.2 = true → r.1.partOffset = partStart dev minor part
  super : r.2 = true → r.1.blocks.getLast? = some (1 + r.1.partOffset)
  unmounted : r.2 = false → r.1.mountf = false

/-- The start of the partition that the code takes, when `mem` was in memory before
the master boot record. -/
def takenStart (mem : ℕ → UInt8) : UInt32 :=
  littleLong (Memory.write mem 0 (dev.read minor 0).1.1) (lbaFirst minor)

/-- There is a superblock behind that block. -/
def HasSuper (offset : UInt32) : Prop :=
  (dev.read minor (1 + offset)).2 = false ∧
    superMagic (fun index => (dev.read minor (1 + offset)).1.1.getD index 0) = true

/-- When `mount` does that: the drive cannot be used; or no partition was left from
before, and none is asked for, or there is no table, or the entry that is taken says
the same as that which is asked for or leads to no superblock. -/
def MountFits (s : MountState) : Prop :=
  dev.init minor = true ∨ s.partOffset = 0 ∧
    (part = 0 ∨ (dev.read minor 0).2 = true ∨
      mbrMagic (fun index => (dev.read minor 0).1.1.getD index 0) = false ∨
      takenStart dev minor s.mem = partStart dev minor part ∨
      ¬ HasSuper dev minor (takenStart dev minor s.mem))

end

section

variable {dev : Device} {minor part : ℕ} {s : MountState}

theorem swizzle32_snd (mem : ℕ → UInt8) (addr : ℕ) :
    (swizzle32 mem addr).2 = littleLong mem addr := by
  have hread : ∀ index, index < 4 → Memory.write mem addr
      [mem (addr + 3), mem (addr + 2), mem (addr + 1), mem addr] (addr + index) =
        [mem (addr + 3), mem (addr + 2), mem (addr + 1), mem addr].getD index 0 :=
    fun index hindex => Memory.write_add hindex mem addr 0
  have hfirst : Memory.write mem addr
      [mem (addr + 3), mem (addr + 2), mem (addr + 1), mem addr] addr = mem (addr + 3) :=
    hread 0 (by decide)
  rw [swizzle32, littleLong]
  dsimp only
  rw [long, hfirst, hread 1 (by decide), hread 2 (by decide), hread 3 (by decide)]
  refine congrArg UInt32.ofNat ?_
  simp only [List.getD_cons_zero, List.getD_cons_succ]
  omega

/-- What was read into the buffer. -/
theorem write_block (mem : ℕ → UInt8) (block : Block) {index : ℕ} (hindex : index < 512) :
    Memory.write mem 0 block.1 index = block.1.getD index 0 := by
  have hlength : index < block.1.length := block.2.symm ▸ hindex
  rw [← Memory.write_add hlength mem 0 0, Nat.zero_add]

theorem mbrMagic_write (mem : ℕ → UInt8) (block : Block) :
    mbrMagic (Memory.write mem 0 block.1) = mbrMagic fun index => block.1.getD index 0 := by
  rw [mbrMagic, write_block mem block (by decide), write_block mem block (by decide)]
  rfl

theorem superMagic_write (mem : ℕ → UInt8) (block : Block) :
    superMagic (Memory.write mem 0 block.1) = superMagic fun index => block.1.getD index 0 := by
  rw [superMagic, write_block mem block (by decide), write_block mem block (by decide)]
  rfl

/-- If the drive has the number of the partition, the entry is the right one. -/
theorem takenStart_self (hpart : 0 < part) (hle : part ≤ 4) (mem : ℕ → UInt8) :
    takenStart dev part mem = partStart dev part part := by
  have hinside : lbaFirst part + 3 < 512 := by
    rw [lbaFirst]
    omega
  rw [takenStart, partStart, if_neg (Nat.ne_of_gt hpart), littleLong, littleLong,
    write_block mem _ hinside, write_block mem _ (Nat.lt_of_succ_lt hinside),
    write_block mem _ (Nat.lt_of_succ_lt (Nat.lt_of_succ_lt hinside)),
    write_block mem _ (Nat.lt_of_succ_lt (Nat.lt_of_succ_lt (Nat.lt_of_succ_lt hinside)))]

/-- The check of the superblock succeeds where there is one, and reads one block. -/
theorem mountSuper_spec (dev : Device) (minor : ℕ) (s : MountState) :
    ((mountSuper dev minor s).2 = true ↔ HasSuper dev minor s.partOffset) ∧
      (mountSuper dev minor s).1.partOffset = s.partOffset ∧
      (mountSuper dev minor s).1.blocks = s.blocks ++ [1 + s.partOffset] ∧
      ((mountSuper dev minor s).2 = false → (mountSuper dev minor s).1.mountf = false) := by
  rw [mountSuper, HasSuper, devRead]
  dsimp only
  rw [← superMagic_write s.mem]
  split
  · next hfailed => simp [hfailed, bad]
  · next hfailed =>
      split
      · next hmagic => simp [hfailed, hmagic]
      · next hmagic => simp [hmagic, bad]

theorem mountPart_found (dev : Device) (minor part : ℕ) (s : MountState)
    (hmagic : mbrMagic s.mem = true) :
    ∃ t, mountPart dev minor part s = mountSuper dev minor t ∧ t.blocks = s.blocks ∧
      t.partOffset =
        if part = 0 then s.partOffset else littleLong s.mem (lbaFirst minor) := by
  rw [mountPart, if_pos hmagic]
  by_cases hpart : part = 0
  · rw [if_neg (not_not.mpr hpart), if_pos hpart]
    exact ⟨s, rfl, rfl, rfl⟩
  · rw [if_pos hpart, if_neg hpart, ← swizzle32_snd]
    exact ⟨_, rfl, rfl, rfl⟩

theorem mountPart_missing (hmagic : mbrMagic s.mem = false) :
    mountPart dev minor part s =
      if part > 0 then bad { s with partOffset := 0 }
      else mountSuper dev minor { s with partOffset := 0 } := by
  rw [mountPart, hmagic]
  rfl

/-- The first block that is read is that where the last partition starts. -/
theorem head_blocks (hinit : dev.init minor = false) :
    (mount dev minor part s).1.blocks.head? = some (0 + s.partOffset) := by
  rw [mount, hinit]
  dsimp only [devRead]
  rw [if_neg Bool.false_ne_true]
  split
  · rfl
  · rcases hmagic : mbrMagic (Memory.write s.mem 0 (dev.read minor (0 + s.partOffset)).1.1)
      with _ | _
    · rw [mountPart_missing hmagic]
      split
      · rfl
      · rw [(mountSuper_spec _ _ _).2.2.1]
        rfl
    · obtain ⟨t, hfound, hblocks, _⟩ :=
        mountPart_found dev minor part { s with mem := _, blocks := _ } hmagic
      rw [hfound, (mountSuper_spec _ _ _).2.2.1, hblocks]
      rfl

/-- A call that finds no partition from before. -/
theorem mount_zero (part : ℕ) (hinit : dev.init minor = false) (hzero : s.partOffset = 0) :
    ∃ read : MountState, read.partOffset = 0 ∧ read.blocks = [0] ∧
      read.mem = Memory.write s.mem 0 (dev.read minor 0).1.1 ∧
      mount dev minor part s =
        if (dev.read minor 0).2 then bad read else mountPart dev minor part read := by
  refine ⟨{ s with mem := Memory.write s.mem 0 (dev.read minor 0).1.1, blocks := [0] },
    hzero, rfl, rfl, ?_⟩
  rw [mount, hinit, devRead]
  dsimp only
  rw [hzero, UInt32.zero_add]
  rfl

/-- The superblock that is looked for has to be that of the partition if there is
one. -/
theorem lawful_mountSuper (hblocks : s.blocks = [0]) :
    Lawful dev minor part (mountSuper dev minor s) ↔
      (HasSuper dev minor s.partOffset → s.partOffset = partStart dev minor part) := by
  obtain ⟨hsuccess, hoffset, hread, hfails⟩ := mountSuper_spec dev minor s
  rw [hblocks] at hread
  constructor
  · intro hlawful hsuper
    rw [← hoffset]
    exact hlawful.offset (hsuccess.mpr hsuper)
  · intro hright
    refine ⟨?_, ?_, ?_, hfails⟩
    · intro blk hblk
      rw [hread] at hblk
      exact (Option.some.inj hblk).symm
    · intro hok
      rw [hoffset]
      exact hright (hsuccess.mp hok)
    · intro _
      rw [hread, hoffset]
      rfl

/-- A call does what it is to do exactly under these conditions. -/
theorem lawful_iff (dev : Device) (minor part : ℕ) (s : MountState) :
    Lawful dev minor part (mount dev minor part s) ↔ MountFits dev minor part s := by
  rw [MountFits]
  rcases hinit : dev.init minor with _ | _
  · by_cases hzero : s.partOffset = 0
    · obtain ⟨read, hoffset, hblocks, hmem, hmount⟩ := mount_zero part hinit hzero
      have hmagic := mbrMagic_write s.mem (dev.read minor 0).1
      have hstart : part = 0 → (0 : UInt32) = partStart dev minor part :=
        fun hpart => (if_pos hpart).symm
      rw [← hmem] at hmagic
      rw [hmount, ← hmagic, takenStart, ← hmem]
      rcases hfailed : (dev.read minor 0).2 with _ | _
      · rw [if_neg Bool.false_ne_true]
        rcases hfound : mbrMagic read.mem with _ | _
        · rw [mountPart_missing hfound]
          refine iff_of_true ?_ (.inr ⟨hzero, .inr (.inr (.inl rfl))⟩)
          split
          · exact ⟨by simp [bad, hblocks], nofun, nofun, fun _ => rfl⟩
          · next hpart =>
              exact (lawful_mountSuper (s := { read with partOffset := 0 }) hblocks).mpr
                fun _ => hstart (Nat.eq_zero_of_not_pos hpart)
        · obtain ⟨t, hpart, htblocks, htoffset⟩ := mountPart_found dev minor part read hfound
          rw [hpart, lawful_mountSuper (htblocks.trans hblocks), htoffset, hoffset]
          by_cases hnone : part = 0
          · rw [if_pos hnone]
            exact iff_of_true (fun _ => hstart hnone) (.inr ⟨hzero, .inl hnone⟩)
          · simp [hnone, hzero, imp_iff_or_not]
      · rw [if_pos rfl]
        exact iff_of_true ⟨by simp [bad, hblocks], nofun, nofun, fun _ => rfl⟩
          (.inr ⟨hzero, .inr (.inl rfl)⟩)
    · refine iff_of_false (fun hlawful => hzero ?_) (by simp [hzero])
      have hfirst := hlawful.mbr _ (head_blocks hinit)
      rw [← hfirst, UInt32.zero_add]
  · refine iff_of_true ?_ (.inl rfl)
    rw [mount, hinit]
    exact ⟨nofun, nofun, nofun, fun _ => rfl⟩

theorem partOffset_mount_zero (dev : Device) (minor : ℕ) (hzero : s.partOffset = 0) :
    (mount dev minor 0 s).1.partOffset = 0 := by
  rcases hinit : dev.init minor with _ | _
  · obtain ⟨read, hoffset, _, _, hmount⟩ := mount_zero 0 hinit hzero
    rw [hmount]
    split
    · exact hoffset
    · rcases hfound : mbrMagic read.mem with _ | _
      · rw [mountPart_missing hfound, if_neg (Nat.lt_irrefl 0), (mountSuper_spec _ _ _).2.1]
      · obtain ⟨t, hpart, _, htoffset⟩ := mountPart_found dev minor 0 read hfound
        rw [hpart, (mountSuper_spec _ _ _).2.1, htoffset, if_pos rfl, hoffset]
  · rw [mount, hinit]
    exact hzero

/-- After calls that ask for no partition none is left. -/
theorem partOffset_mounts_zero (dev : Device) {history : List (ℕ × ℕ)}
    (hzero : s.partOffset = 0) (hnone : ∀ call ∈ history, call.2 = 0) :
    (mounts dev history s).partOffset = 0 := by
  induction history generalizing s with
  | nil => exact hzero
  | cons call history ih =>
      have hcall : call.2 = 0 := hnone call List.mem_cons_self
      have hnext : (mount dev call.1 call.2 s).1.partOffset = 0 := by
        rw [hcall]
        exact partOffset_mount_zero dev call.1 hzero
      exact ih hnext fun other hother => hnone other (List.mem_cons_of_mem call hother)

/-- So the first partition that is asked for is found on the drive with its
number. -/
theorem lawful_first (dev : Device) {history : List (ℕ × ℕ)} (hzero : s.partOffset = 0)
    (hnone : ∀ call ∈ history, call.2 = 0) (hpart : 0 < part) (hle : part ≤ 4) :
    Lawful dev part part (mount dev part part (mounts dev history s)) :=
  (lawful_iff _ _ _ _).mpr (.inr ⟨partOffset_mounts_zero dev hzero hnone,
    .inr (.inr (.inr (.inl (takenStart_self hpart hle _))))⟩)

/-- After every history of calls, a call of `mount` depends on the device and its
arguments only, as it is to, exactly under these conditions. -/
theorem mount_lawful_iff (dev : Device) (history : List (ℕ × ℕ)) (start : MountState)
    (minor part : ℕ) :
    Lawful dev minor part (mount dev minor part (mounts dev history start)) ↔
      MountFits dev minor part (mounts dev history start) :=
  lawful_iff dev minor part (mounts dev history start)

end

/-- A block of zeros with some bytes changed. -/
def patched (changes : List (ℕ × UInt8)) : Block :=
  ⟨changes.foldl (fun bytes change => bytes.set change.1 change.2) (List.replicate 512 0), by
    induction changes using List.reverseRecOn with
    | nil => exact List.length_replicate
    | append_singleton changes change ih => rw [List.foldl_concat, List.length_set, ih]⟩

/-- A table whose first partition starts at block 8, and a superblock behind both
that block and the first. -/
def twoPartitions : Device where
  init _ := false
  read _ blk :=
    if blk = 0 then (patched [(454, 8), (510, 0x55), (511, 0xaa)], false)
    else if blk = 9 then (patched [(0, 0x31), (1, 0xc6)], false)
    else (patched [], false)

def started : MountState := ⟨fun _ => 0, 0, false, 1, []⟩

set_option maxRecDepth 8000 in
/-- The first partition of drive 1 can be mounted; the next call looks for the table
in that partition. -/
theorem not_lawful_again :
    (mount twoPartitions 1 1 started).2 = true ∧
      ¬ Lawful twoPartitions 1 1
        (mount twoPartitions 1 1 (mounts twoPartitions [(1, 1)] started)) := by
  have hoffset : (mounts twoPartitions [(1, 1)] started).partOffset = 8 := by decide
  refine ⟨by decide, fun hlawful => ?_⟩
  have hfirst := hlawful.mbr _ (head_blocks rfl)
  rw [hoffset] at hfirst
  exact absurd hfirst (by decide)

end Fip.Booter
