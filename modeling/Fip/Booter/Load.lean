import Fip.Core.Machine
import Fip.Core.Memory

/-!
# booter

The kernel loader of `booter.c`: the open file, whose blocks are read one at a
time through `iread`, the physical memory behind an 8 KB window, and the load
loop of `boot`.  Words are 16 bits wide and big endian.
-/

namespace Fip.Booter

/-- A device block of 512 bytes. -/
def Block : Type := { bytes : List UInt8 // bytes.length = 512 }

/-- The word at an offset. -/
def word (bytes : List UInt8) (offset : ℕ) : ℕ :=
  (bytes.getD offset 0).toNat * 256 + (bytes.getD (offset + 1) 0).toNat

/-- What happens around the program: what the nth device read delivers and
whether it fails, and whether the control key is down when it is polled for the
nth time; also the start of the partition, and the words that stand in memory
behind `idir`. -/
structure Env where
  read : ℕ → ℕ → Block × Bool
  iscntldown : ℕ → Bool
  partOffset : ℕ
  past : ℕ → ℕ

/-- The fields of the disk inode that the loader reads. -/
structure Inode where
  size : ℕ
  addr : List ℕ

/-- `struct inode`, 64 bytes of them: the size is behind 8 bytes, the block
numbers are behind 24. -/
def Inode.decode (bytes : List UInt8) : Inode where
  size := word bytes 8 * 65536 + word bytes 10
  addr := (List.range 20).map fun index => word bytes (24 + 2 * index)

/-- The open file, the memory file, and how often the device was read and the
keyboard was polled. -/
structure State where
  i : Inode
  idir : Block
  dbuf : Block
  left : ℕ
  bpos : ℕ
  spos : ℕ
  epos : ℕ
  mmu : ℕ
  mleft : ℕ
  maddr : ℕ
  paddr : ℕ
  mem : ℕ → UInt8
  reads : ℕ
  polls : ℕ

namespace State

def devRead (env : Env) (s : State) (blk : ℕ) : Block × Bool × State :=
  let (block, failed) := env.read s.reads ((blk + env.partOffset) % 2 ^ 32)
  (block, failed, { s with reads := s.reads + 1 })

/-- Open the disk inode. -/
def iopen (env : Env) (s : State) (no : ℕ) : State :=
  let (buf, _, s) := s.devRead env (2 + no >>> 3)
  let i := Inode.decode ((buf.val.drop ((no &&& 0x7) * 64)).take 64)
  let (idir, _, s) := s.devRead env (i.addr.getD 18 0)
  { s with i, idir, left := 0, spos := 0, epos := ((i.size + 0x1ff) >>> 9) % 65536 }

def bmap (env : Env) (s : State) : ℕ :=
  if s.spos < 18 then s.i.addr.getD s.spos 0
  else if s.spos - 18 < 256 then word s.idir.val (2 * (s.spos - 18))
  else env.past (s.spos - 18)

/-- The data buffer is filled again when it is empty; `none` at the end of the
file. -/
def fill (env : Env) (s : State) : Option State :=
  if s.left = 0 then
    if s.spos = s.epos then none
    else
      let (dbuf, _, s) := s.devRead env (s.bmap env)
      some { s with dbuf, spos := (s.spos + 1) % 65536, bpos := 0, left := 512 }
  else some s

/-- Bytes of the file: what is returned, what is put into the buffer, and the
state behind it. -/
def iread (env : Env) (s : State) (n : ℕ) : ℕ × List UInt8 × State :=
  match s.fill env with
  | none => (0, [], s)
  | some s =>
      let n := if n < s.left then n else s.left
      -- -1, behind `error(1)`
      if n = 0 then (65535, [], s)
      else
        (n, (s.dbuf.val.drop s.bpos).take n,
          { s with left := s.left - n, bpos := s.bpos + n })

/-- Seek and map the physical memory file. -/
def mseek (s : State) (addr : ℕ) : State :=
  let off := addr &&& 0x1fff
  { s with
    paddr := addr
    mmu := addr >>> 13
    mleft := 0x2000 - off
    maddr := 0x2000 + off }

/-- The physical address behind `maddr`. -/
def phys (s : State) : ℕ :=
  s.mmu * 0x2000 + (s.maddr - 0x2000)

/-- Bytes copied to `maddr`, and what the program makes of its counters. -/
def put (s : State) (bytes : List UInt8) (max : ℕ) : State :=
  { s with
    mem := Memory.write s.mem s.phys bytes
    mleft := s.mleft - max
    maddr := s.maddr + max
    paddr := (s.paddr + max) % 65536 }

def mwriteLoop : ℕ → State → List UInt8 → State
  | 0, s, _ => s
  | fuel + 1, s, data =>
      if data = [] then s
      else
        let s := if s.mleft = 0 then s.mseek s.paddr else s
        let max := if s.mleft < data.length then s.mleft else data.length
        mwriteLoop fuel (s.put (data.take max) max) (data.drop max)

/-- Write bytes to the physical memory file.  A byte at least is written each
time round. -/
def mwrite (s : State) (data : List UInt8) : State :=
  mwriteLoop data.length s data

end State

/-- How `boot` ends before it starts the kernel: a key was pressed, or the
number of an error. -/
inductive Stop where
  | key
  | error (no : ℕ)
  deriving DecidableEq

/-- `m` bytes directly from the device to memory. -/
def directRead (env : Env) (s : State) (todo m : ℕ) : State × ℕ ⊕ Stop × State :=
  if s.spos = s.epos then .inr (.error 7, s)
  else
    let (block, failed, s) := s.devRead env (s.bmap env)
    if failed then
      .inr (.error 6, { s with mem := Memory.write s.mem s.phys block.val })
    else
      let s := s.put block.val m
      .inl ({ s with spos := (s.spos + 1) % 65536 }, todo - m)

/-- Bytes through the temporary buffer. -/
def bufferedRead (env : Env) (s : State) (todo : ℕ) : State × ℕ ⊕ Stop × State :=
  let (ret, tmp, s) := s.iread env todo
  if ret = 0 then .inr (.error 4, s)
  else if ret = 65535 then .inr (.error 5, s)
  else .inl (s.mwrite tmp, todo - ret)

/-- `m = min(todo, mleft); m = min(m, 512)` -/
def piece (s : State) (todo : ℕ) : ℕ :=
  let m := if todo < s.mleft then todo else s.mleft
  if m < 512 then m else 512

/-- The body of the loop over a segment of which `todo` bytes are left.  The
branch that reads the device straight into memory is there if `direct` is
set. -/
def segmentBody (direct : Bool) (env : Env) (s : State) (todo : ℕ) :
    State × ℕ ⊕ Stop × State :=
  let pressed := env.iscntldown s.polls
  let s := { s with polls := s.polls + 1 }
  if pressed then .inr (.key, s)
  else if direct ∧ piece s todo = 512 ∧ s.left = 0 then
    directRead env s todo (piece s todo)
  else bufferedRead env s todo

/-- `while(todo)`; the first component of the result is `none` when the whole
segment is loaded. -/
def segmentStep (direct : Bool) (env : Env) (s : State × ℕ) :
    State × ℕ ⊕ Option Stop × State :=
  if s.2 = 0 then .inr (none, s.1)
  else (segmentBody direct env s.1 s.2).map id fun (stop, s) => (some stop, s)

/-- The loop over a segment.  A byte at least is loaded each time round. -/
def segmentLoop (direct : Bool) (env : Env) (s : State) (todo : ℕ) :
    Option (Option Stop × State) :=
  Machine.run (segmentStep direct env) (todo + 1) (s, todo)

/-- `struct binhdr_s` -/
structure Binhdr where
  flag : UInt8
  len : ℕ
  addr : ℕ
  deriving DecidableEq

def Binhdr.decode (bytes : List UInt8) : Binhdr where
  flag := bytes.getD 0 0
  len := word bytes 1
  addr := word bytes 3

/-- `PRE` -/
def pre : UInt8 := 0x00

/-- The load loop ends with the header of the record that is no segment, or is
stopped. -/
abbrev Loaded := Binhdr ⊕ Stop

/-- Once round the load loop: a header, or a piece of a segment of which so many
bytes are left. -/
def loadStep (env : Env) (s : State × Option ℕ) : State × Option ℕ ⊕ Loaded × State :=
  match s with
  | (s, none) =>
      match s.iread env 5 with
      | (ret, bytes, s) =>
          if ret ≠ 5 then .inr (.inr (.error 3), s)
          else
            let h := Binhdr.decode bytes
            if h.flag ≠ pre then .inr (.inl h, s)
            else .inl (s.mseek h.addr, some h.len)
  | (s, some todo) =>
      if todo = 0 then .inl (s, none)
      else
        (segmentBody true env s todo).map (fun (s, todo) => (s, some todo))
          fun (stop, s) => (.inr stop, s)

/-- The load loop of `boot` on the inode that `open` has found.  A byte of the
file is read at least every other time round, so this fuel lasts. -/
def load (env : Env) (s : State) (no : ℕ) : Option (Loaded × State) :=
  let s := s.iopen env no
  Machine.run (loadStep env) (1024 * s.epos + 1) (s, none)

end Fip.Booter
