import Fip.Booter.Stream

/-!
# Directories

`lookup` searches the blocks of an inode for an entry with a name.  Its test of the
mode compares `F_DIR` with 0 first, so it takes every inode for a directory, and it
reads the last block to its end, whatever the size in the inode says.
-/

namespace Fip.Booter

/-- `ROOT` -/
def root : ℕ := 1

/-- `F_DIR` -/
def fDir : ℕ := 0x4000

/-- `struct dirent`, 32 bytes. -/
structure Dirent where
  inode : ℕ
  name : List UInt8
  deriving DecidableEq

def Dirent.decode (bytes : List UInt8) : Dirent where
  inode := word bytes 0
  name := (bytes.drop 2).take 30

/-- `_strcmp`, on the bytes of the memory from two addresses on. -/
def strcmp : List UInt8 → List UInt8 → Int
  | a :: left, b :: right => if a ≠ b then -1 else if a = 0 then 0 else strcmp left right
  -- not reached: the shorter string ends before this
  | _, _ => -1

/-- `!strcmp(d.name, name)`, where a byte of the memory stands behind `d`. -/
def Dirent.Matches (behind : UInt8) (name : List UInt8) (d : Dirent) : Prop :=
  strcmp (d.name ++ [behind]) (name ++ [0]) = 0

instance (behind : UInt8) (name : List UInt8) (d : Dirent) :
    Decidable (d.Matches behind name) :=
  inferInstanceAs (Decidable (strcmp _ _ = 0))

/-- `i_mode` of an inode, which `iopen` reads. -/
def State.mode (env : Env) (s : State) (no : ℕ) : ℕ :=
  word (((s.devRead env (2 + no >>> 3)).1.val.drop ((no &&& 0x7) * 64)).take 64) 0

/-- Once round the loop of `lookup`.  The blocks are read in pieces of 32 bytes, so an
entry is read as a whole. -/
def lookupStep (env : Env) (behind : UInt8) (name : List UInt8) (s : State) :
    State ⊕ ℕ × State :=
  match s.iread env 32 with
  | (ret, bytes, s) =>
      if ret = 0 then .inr (65535, s)
      else
        let d := Dirent.decode bytes
        if d.Matches behind name then .inr (d.inode, s) else .inl s

/-- lookup name in an directory inode; 65535 is -1. -/
def lookup (env : Env) (behind : UInt8) (s : State) (ino : ℕ) (name : List UInt8) :
    Option (ℕ × State) :=
  let mode := s.mode env ino
  let s := s.iopen env ino
  -- `i.i_mode & F_DIR == 0`
  if mode &&& (if fDir = 0 then 1 else 0) ≠ 0 then some (65535, s)
  else Machine.run (lookupStep env behind name) (16 * s.epos + 1) s

section

variable (env : Env) (content : ℕ → Block)

/-- A block of the partition. -/
def onDisk (blk : ℕ) : Block :=
  content ((blk + env.partOffset) % 2 ^ 32)

/-- The bytes of an inode of the partition. -/
def inodeBytes (no : ℕ) : List UInt8 :=
  ((onDisk env content (2 + no >>> 3)).val.drop ((no &&& 0x7) * 64)).take 64

def diskInode (no : ℕ) : Inode :=
  Inode.decode (inodeBytes env content no)

/-- The single indirect block of an inode. -/
def indirect (no : ℕ) : Block :=
  onDisk env content ((diskInode env content no).addr.getD 18 0)

/-- How many blocks an inode has. -/
def blockCount (no : ℕ) : ℕ :=
  (((diskInode env content no).size + 0x1ff) >>> 9) % 65536

/-- A block of an inode: its number is in the inode or in the indirect block, and from
the 274th on behind `idir` in memory. -/
def inodeBlock (no index : ℕ) : Block :=
  onDisk env content
    (if index < 274 then
      blockNumber (diskInode env content no) (indirect env content no) index
    else env.past (index - 18))

/-- The bytes of an entry in the blocks of an inode, 16 of them in each block. -/
def slotBytes (no index : ℕ) : List UInt8 :=
  ((inodeBlock env content no (index / 16)).val.drop (32 * (index % 16))).take 32

/-- All that can be read as an entry in the blocks of an inode. -/
def slots (no : ℕ) : List Dirent :=
  (List.range (16 * blockCount env content no)).map fun index =>
    Dirent.decode (slotBytes env content no index)

/-- The inode that the first match in the blocks of an inode has. -/
def firstMatch (behind : UInt8) (no : ℕ) (name : List UInt8) : Option ℕ :=
  ((slots env content no).find? fun d => d.Matches behind name).map Dirent.inode

end

namespace State

/-- The reader is in the blocks of the file, whatever was read. -/
structure Bounded (s : State) : Prop where
  left_le : s.left ≤ 512
  spos_le : s.spos ≤ s.epos
  epos_lt : s.epos < 65536

/-- The next entry is in one block. -/
structure Aligned (s : State) : Prop extends s.Bounded where
  left_mod : s.left % 32 = 0

variable {env : Env} {content : ℕ → Block} {s : State}

theorem bounded_iopen (no : ℕ) : (s.iopen env no).Bounded :=
  ⟨Nat.zero_le _, Nat.zero_le _, Nat.mod_lt _ (by decide)⟩

theorem aligned_iopen (no : ℕ) : (s.iopen env no).Aligned :=
  ⟨bounded_iopen no, rfl⟩

theorem iread_of_done (hdone : s.remaining = 0) (hbounded : s.Bounded) (n : ℕ) :
    s.iread env n = (0, [], s) := by
  have hspos := hbounded.spos_le
  rw [remaining] at hdone
  exact iread_of_eof (by omega) (by omega) n

theorem fill_of_empty (hleft : s.left = 0) (heof : s.spos ≠ s.epos) :
    s.fill env = some (s.refilled (s.devRead env (s.bmap env)).1) := by
  rw [fill, if_pos hleft, if_neg heof]
  rfl

/-- The buffer is filled if it is empty. -/
theorem Bounded.fill (env : Env) (hbounded : s.Bounded) (hmore : s.remaining ≠ 0) :
    ∃ t, s.fill env = some t ∧ t.left ≠ 0 ∧ (t.left = s.left ∨ t.left = 512) ∧ t.Bounded ∧
      t.remaining = s.remaining := by
  obtain ⟨hle, hspos, hepos⟩ := hbounded
  rw [remaining] at hmore
  by_cases hleft : s.left = 0
  · have hwrap : (s.spos + 1) % 65536 = s.spos + 1 := Nat.mod_eq_of_lt (by omega)
    have hnext : ∀ block, (s.refilled block).spos = s.spos + 1 := fun _ => hwrap
    have hend : ∀ block, (s.refilled block).epos = s.epos := fun _ => rfl
    have hfull : ∀ block, (s.refilled block).left = 512 := fun _ => rfl
    refine ⟨_, fill_of_empty hleft (by omega), ?_, .inr (hfull _), ⟨?_, ?_, hepos⟩, ?_⟩
    · rw [hfull]
      decide
    · rw [hfull]
    · rw [hnext, hend]
      omega
    · rw [remaining, remaining, hnext, hend, hfull]
      omega
  · exact ⟨s, by rw [State.fill, if_neg hleft], hleft, .inl rfl, ⟨hle, hspos, hepos⟩, rfl⟩

/-- Bytes are taken from the buffer, up to its end. -/
theorem Bounded.iread (env : Env) (hbounded : s.Bounded) (hmore : s.remaining ≠ 0)
    {n : ℕ} (hn : n ≠ 0) :
    ∃ t u, s.fill env = some t ∧ t.left ≠ 0 ∧ (t.left = s.left ∨ t.left = 512) ∧
      t.left ≤ 512 ∧
      u = { t with left := t.left - min n t.left, bpos := t.bpos + min n t.left } ∧
      s.iread env n = (min n t.left, (t.dbuf.val.drop t.bpos).take (min n t.left), u) ∧
      u.Bounded ∧ u.remaining + min n t.left = s.remaining := by
  obtain ⟨t, hfill, hleft, hfrom, ⟨hle, hspos, hepos⟩, hremaining⟩ :=
    hbounded.fill env hmore
  refine ⟨t, _, hfill, hleft, hfrom, hle, rfl, iread_of_fill hfill hn hleft,
    ⟨Nat.le_trans (Nat.sub_le _ _) hle, hspos, hepos⟩, ?_⟩
  rw [← hremaining]
  change t.left - min n t.left + 512 * (t.epos - t.spos) + min n t.left =
    t.left + 512 * (t.epos - t.spos)
  omega

/-- An entry is taken from the buffer. -/
theorem Aligned.iread (env : Env) (haligned : s.Aligned) (hmore : s.remaining ≠ 0) :
    ∃ t u, s.fill env = some t ∧ t.left ≠ 0 ∧
      u = { t with left := t.left - 32, bpos := t.bpos + 32 } ∧
      s.iread env 32 = (32, (t.dbuf.val.drop t.bpos).take 32, u) ∧
      u.Aligned ∧ u.remaining + 32 = s.remaining := by
  have hmod := haligned.left_mod
  obtain ⟨t, u, hfill, hleft, hfrom, _, hu, hiread, hbounded, hremaining⟩ :=
    haligned.toBounded.iread env hmore (by decide : (32 : ℕ) ≠ 0)
  have hmin : min 32 t.left = 32 := by omega
  rw [hmin] at hu hiread hremaining
  refine ⟨t, u, hfill, hleft, hu, hiread, ⟨hbounded, ?_⟩, hremaining⟩
  rw [hu]
  change (t.left - 32) % 32 = 0
  omega

end State

section

variable {env : Env} {behind : UInt8} {name : List UInt8}

theorem lookup_eq (s : State) (ino : ℕ) : lookup env behind s ino name =
    Machine.run (lookupStep env behind name) (16 * (s.iopen env ino).epos + 1)
      (s.iopen env ino) := by
  have hand : s.mode env ino &&& (if fDir = 0 then 1 else 0) = 0 := Nat.and_zero _
  rw [lookup, hand]
  exact if_neg (not_not_intro rfl)

/-- So many entries are left. -/
def entriesLeft (s : State) : ℕ :=
  s.remaining / 32

theorem entriesLeft_iopen (s : State) (ino : ℕ) :
    entriesLeft (s.iopen env ino) < 16 * (s.iopen env ino).epos + 1 := by
  change (0 + 512 * ((s.iopen env ino).epos - 0)) / 32 < _
  omega

/-- The search of a directory comes to an end, whatever the device delivers. -/
theorem lookup_stops (env : Env) (behind : UInt8) (s : State) (ino : ℕ)
    (name : List UInt8) :
    ∃ result, lookup env behind s ino name = some result := by
  have hstep : ∀ s : State, s.Aligned → Machine.Advances State.Aligned (fun _ => True)
      entriesLeft (entriesLeft s) (lookupStep env behind name s) := by
    intro s haligned
    rw [lookupStep]
    by_cases hmore : s.remaining = 0
    · rw [State.iread_of_done hmore haligned.toBounded]
      trivial
    · obtain ⟨t, u, _, _, _, hiread, hualigned, hremaining⟩ :=
        haligned.iread env hmore
      rw [hiread]
      dsimp only
      rw [if_neg (by decide)]
      split
      · trivial
      · refine ⟨hualigned, ?_⟩
        rw [entriesLeft, entriesLeft]
        omega
  rw [lookup_eq]
  obtain ⟨result, hrun, _⟩ := Machine.run_total hstep (State.aligned_iopen ino)
    (entriesLeft_iopen s ino)
  exact ⟨result, hrun⟩

end

/-- So many entries of the blocks of an inode were read. -/
structure State.Scan (env : Env) (content : ℕ → Block) (no : ℕ) (s : State) (count : ℕ) :
    Prop where
  inode : s.i = diskInode env content no
  idir : s.idir = indirect env content no
  epos : s.epos = blockCount env content no
  position : 32 * count + s.left = 512 * s.spos
  buffer : s.left ≠ 0 →
    s.bpos + s.left = 512 ∧ s.dbuf = inodeBlock env content no (s.spos - 1)

section

variable {env : Env} {content : ℕ → Block} {behind : UInt8} {name : List UInt8}
  {s : State} {no count : ℕ}

theorem State.scan_iopen (hreliable : Reliable env content) (s : State) (no : ℕ) :
    (s.iopen env no).Scan env content no 0 := by
  have hdelivered : ∀ (s : State) (blk : ℕ), (s.devRead env blk).1 = onDisk env content blk := by
    intro s blk
    exact congrArg Prod.fst (hreliable s.reads _)
  have hinode : (s.iopen env no).i = diskInode env content no := by
    change Inode.decode (((s.devRead env (2 + no >>> 3)).1.val.drop _).take 64) = _
    rw [hdelivered]
    rfl
  have hidir : (s.iopen env no).idir = indirect env content no := by
    change (State.devRead env _ ((s.iopen env no).i.addr.getD 18 0)).1 = _
    rw [hdelivered, hinode]
    rfl
  have hepos : (s.iopen env no).epos = blockCount env content no := by
    change (((s.iopen env no).i.size + 0x1ff) >>> 9) % 65536 = _
    rw [hinode]
    rfl
  exact ⟨hinode, hidir, hepos, rfl, fun hleft => absurd rfl hleft⟩

namespace State.Scan

theorem nextBlock (hscan : s.Scan env content no count) :
    Booter.nextBlock env content s = inodeBlock env content no s.spos := by
  rw [inodeBlock]
  split
  · next hspos =>
      rw [nextBlock_eq hspos, fileBlock, hscan.inode, hscan.idir]
      rfl
  · next hspos =>
      rw [Booter.nextBlock, State.bmap, if_neg (by omega), if_neg (by omega)]
      rfl

theorem lt_iff (hscan : s.Scan env content no count) (haligned : s.Aligned) :
    s.remaining ≠ 0 ↔ count < 16 * blockCount env content no := by
  have hposition := hscan.position
  have hspos := haligned.spos_le
  rw [← hscan.epos, State.remaining]
  omega

/-- The buffer that the next entry is taken from. -/
theorem fill (hreliable : Reliable env content) (hscan : s.Scan env content no count)
    (haligned : s.Aligned) (hmore : s.remaining ≠ 0) {t : State}
    (hfill : s.fill env = some t) :
    t.Scan env content no count ∧ t.bpos = 32 * (count % 16) ∧ t.spos = count / 16 + 1 ∧
      t.dbuf = inodeBlock env content no (count / 16) := by
  have hposition := hscan.position
  have hmod := haligned.left_mod
  have hle := haligned.left_le
  have hspos := haligned.spos_le
  have hepos := haligned.epos_lt
  rw [State.remaining] at hmore
  by_cases hleft : s.left = 0
  · have hcount : count / 16 = s.spos := by omega
    have hwrap : (s.spos + 1) % 65536 = s.spos + 1 := Nat.mod_eq_of_lt (by omega)
    rw [fill_reliable hreliable hleft (by omega)] at hfill
    cases hfill
    have hblock : (s.refilled (Booter.nextBlock env content s)).dbuf =
        inodeBlock env content no s.spos := hscan.nextBlock
    have hnext : (s.refilled (Booter.nextBlock env content s)).spos = s.spos + 1 := hwrap
    refine ⟨⟨hscan.inode, hscan.idir, hscan.epos, ?_, ?_⟩, ?_, ?_, ?_⟩
    · rw [hnext]
      change 32 * count + 512 = _
      omega
    · rw [hnext]
      exact fun _ => ⟨rfl, hblock⟩
    · change 0 = _
      omega
    · rw [hnext, hcount]
    · rw [hcount, hblock]
  · obtain ⟨hbpos, hdbuf⟩ := hscan.buffer hleft
    have hcount : count / 16 = s.spos - 1 := by omega
    rw [State.fill, if_neg hleft] at hfill
    cases hfill
    refine ⟨hscan, by omega, by omega, ?_⟩
    rw [hcount, hdbuf]

/-- The next entry is read. -/
theorem iread (hreliable : Reliable env content) (hscan : s.Scan env content no count)
    (haligned : s.Aligned) (hmore : s.remaining ≠ 0) :
    ∃ u, s.iread env 32 = (32, slotBytes env content no count, u) ∧
      u.Scan env content no (count + 1) ∧ u.Aligned ∧ u.remaining + 32 = s.remaining := by
  obtain ⟨t, u, hfill, hleft, rfl, hiread, hualigned, hremaining⟩ :=
    haligned.iread env hmore
  obtain ⟨htscan, hbpos, hspos, hdbuf⟩ := hscan.fill hreliable haligned hmore hfill
  have hposition := htscan.position
  have hbytes : (t.dbuf.val.drop t.bpos).take 32 = slotBytes env content no count := by
    rw [hdbuf, hbpos, slotBytes]
  rw [hbytes] at hiread
  refine ⟨_, hiread, ⟨htscan.inode, htscan.idir, htscan.epos, ?_, ?_⟩, hualigned, hremaining⟩
  · change 32 * (count + 1) + (t.left - 32) = 512 * t.spos
    omega
  · intro _
    have hbuffer := htscan.buffer hleft
    refine ⟨?_, hbuffer.2⟩
    change t.bpos + 32 + (t.left - 32) = 512
    omega

end State.Scan

theorem slots_drop (hcount : count < 16 * blockCount env content no) :
    (slots env content no).drop count =
      Dirent.decode (slotBytes env content no count) ::
        (slots env content no).drop (count + 1) := by
  have hlength : count < (slots env content no).length := by
    rw [slots, List.length_map, List.length_range]
    exact hcount
  rw [List.drop_eq_getElem_cons hlength]
  congr 1
  simp only [slots, List.getElem_map, List.getElem_range]

variable (env content behind name no) in
/-- The invariant of `lookup`: no entry read so far matches. -/
def Searching (s : State) : Prop :=
  s.Aligned ∧ ∃ count, s.Scan env content no count ∧
    ((slots env content no).drop count).find? (fun d => d.Matches behind name) =
      (slots env content no).find? fun d => d.Matches behind name

variable (env content behind name no) in
/-- What `lookup` returns. -/
def Found (result : ℕ × State) : Prop :=
  result.1 = (firstMatch env content behind no name).getD 65535

theorem lookupStep_advances (hreliable : Reliable env content)
    (hsearching : Searching env content behind name no s) :
    Machine.Advances (Searching env content behind name no)
      (Found env content behind name no) entriesLeft (entriesLeft s)
      (lookupStep env behind name s) := by
  obtain ⟨haligned, count, hscan, hfind⟩ := hsearching
  by_cases hmore : s.remaining = 0
  · have hcount := (hscan.lt_iff haligned).not.mp (not_not_intro hmore)
    have hnil : (slots env content no).drop count = [] := by
      apply List.drop_eq_nil_of_le
      rw [slots, List.length_map, List.length_range]
      exact Nat.le_of_not_lt hcount
    rw [lookupStep, State.iread_of_done hmore haligned.toBounded]
    rw [hnil] at hfind
    change 65535 = _
    rw [firstMatch, ← hfind]
    rfl
  · obtain ⟨u, hiread, huscan, hualigned, hremaining⟩ :=
      hscan.iread hreliable haligned hmore
    rw [slots_drop ((hscan.lt_iff haligned).mp hmore)] at hfind
    rw [lookupStep, hiread]
    dsimp only
    rw [if_neg (by decide)]
    by_cases hmatch : (Dirent.decode (slotBytes env content no count)).Matches behind name
    · rw [List.find?_cons, decide_eq_true hmatch] at hfind
      rw [if_pos hmatch]
      change _ = _
      rw [firstMatch, ← hfind]
      rfl
    · rw [List.find?_cons, decide_eq_false hmatch] at hfind
      rw [if_neg hmatch]
      refine ⟨⟨hualigned, count + 1, huscan, hfind⟩, ?_⟩
      rw [entriesLeft, entriesLeft]
      omega

/-- `lookup` finds the first match in the blocks of the inode, of whatever kind it
is. -/
theorem lookup_reliable (hreliable : Reliable env content) (s : State) (no : ℕ) :
    ∃ t, lookup env behind s no name =
      some ((firstMatch env content behind no name).getD 65535, t) := by
  have hstart : Searching env content behind name no (s.iopen env no) :=
    ⟨State.aligned_iopen no, 0, State.scan_iopen hreliable s no, rfl⟩
  obtain ⟨result, hrun, hfound⟩ := Machine.run_total
    (fun _ hsearching => lookupStep_advances hreliable hsearching) hstart
    (entriesLeft_iopen s no)
  refine ⟨result.2, ?_⟩
  rw [lookup_eq, hrun, ← hfound]

end

end Fip.Booter
