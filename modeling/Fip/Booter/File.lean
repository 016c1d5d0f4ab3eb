import Fip.Booter.FastPath

/-!
# The open file as a stream

What is left of a file of at most 274 blocks is what the data buffer holds and
the blocks behind it.  `iread` takes a prefix of that, which ends with the block
at the latest, and a direct read takes the whole next block.
-/

namespace Fip.Booter

/-- The block number at an index of the file: 18 of the inode, then those of the
indirect block. -/
def blockNumber (i : Inode) (idir : Block) (index : ℕ) : ℕ :=
  if index < 18 then i.addr.getD index 0 else word idir.val (2 * (index - 18))

/-- The block at an index of the open file. -/
def fileBlock (env : Env) (content : ℕ → Block) (s : State) (index : ℕ) : Block :=
  content ((blockNumber s.i s.idir index + env.partOffset) % 2 ^ 32)

def fileBlocks (env : Env) (content : ℕ → Block) (s : State) (first count : ℕ) :
    List UInt8 :=
  (List.range' first count).flatMap fun index => (fileBlock env content s index).val

section

variable {env : Env} {content : ℕ → Block} {s : State}

theorem nextBlock_eq (hspos : s.spos < 274) :
    nextBlock env content s = fileBlock env content s s.spos := by
  have hbmap : s.bmap env = blockNumber s.i s.idir s.spos := by
    rw [State.bmap, blockNumber]
    split
    · rfl
    · rw [if_pos (by omega)]
  rw [nextBlock, fileBlock, hbmap]

theorem fileBlocks_succ {first count : ℕ} (hcount : count ≠ 0) :
    fileBlocks env content s first count =
      (fileBlock env content s first).val ++
        fileBlocks env content s (first + 1) (count - 1) := by
  obtain ⟨count, rfl⟩ := Nat.exists_eq_succ_of_ne_zero hcount
  rw [fileBlocks, fileBlocks, List.range'_succ, List.flatMap_cons, Nat.succ_sub_one]

theorem length_fileBlocks (first count : ℕ) :
    (fileBlocks env content s first count).length = 512 * count := by
  induction count generalizing first with
  | zero => rfl
  | succ count ih =>
      rw [fileBlocks_succ (Nat.succ_ne_zero count), List.length_append, Nat.succ_sub_one,
        ih, (fileBlock env content s first).property]
      omega

end

/-- The file is open at a position, and these bytes are left of its blocks. -/
structure State.At (env : Env) (content : ℕ → Block) (s : State) (pos : ℕ)
    (rest : List UInt8) : Prop where
  position : pos + s.left = 512 * s.spos
  left_le : s.left ≤ 512
  bpos : s.left ≠ 0 → s.bpos + s.left = 512
  spos_le : s.spos ≤ s.epos
  epos_le : s.epos ≤ 274
  rest : rest = s.unread ++ fileBlocks env content s s.spos (s.epos - s.spos)

namespace State

/-- The memory file, which only `mseek` and `mwrite` change. -/
def memory (s : State) : (ℕ → UInt8) × ℕ × ℕ × ℕ × ℕ :=
  (s.mem, s.mmu, s.mleft, s.maddr, s.paddr)

/-- The bytes of the file behind the position. -/
def remaining (s : State) : ℕ :=
  s.left + 512 * (s.epos - s.spos)

variable {env : Env} {content : ℕ → Block} {s : State} {pos : ℕ} {rest : List UInt8}

theorem epos_iopen {no : ℕ} (hsize : (s.iopen env no).i.size ≤ 274 * 512) :
    (s.iopen env no).epos = ((s.iopen env no).i.size + 511) / 512 := by
  change (((s.iopen env no).i.size + 0x1ff) >>> 9) % 65536 = _
  rw [Nat.shiftRight_eq_div_pow]
  omega

/-- The file that was opened lies ahead. -/
theorem at_iopen {no : ℕ} (hsize : (s.iopen env no).i.size ≤ 274 * 512) :
    (s.iopen env no).At env content 0
      (fileBlocks env content (s.iopen env no) 0 (s.iopen env no).epos) := by
  have hepos := epos_iopen hsize
  have hunread : (s.iopen env no).unread = [] := List.take_zero
  have hspos : (s.iopen env no).spos = 0 := rfl
  refine ⟨rfl, Nat.zero_le _, fun h => absurd rfl h, Nat.zero_le _, ?_, ?_⟩
  · omega
  · rw [hunread, hspos, List.nil_append, Nat.sub_zero]

theorem At.length_unread (hat : s.At env content pos rest) : s.unread.length = s.left := by
  rw [unread, List.length_take, List.length_drop, s.dbuf.property]
  by_cases hleft : s.left = 0
  · omega
  · have hbpos := hat.bpos hleft
    omega

theorem At.length_rest (hat : s.At env content pos rest) : rest.length = s.remaining := by
  rw [hat.rest, List.length_append, hat.length_unread, length_fileBlocks, remaining]

/-- With an empty buffer the next block is what is left first. -/
theorem At.next (hat : s.At env content pos rest) (hleft : s.left = 0)
    (hrest : rest ≠ []) :
    s.spos < s.epos ∧
      rest = (nextBlock env content s).val ++
        fileBlocks env content s (s.spos + 1) (s.epos - (s.spos + 1)) := by
  have hpos : 0 < s.epos - s.spos := by
    have hlength := List.length_pos_iff.mpr hrest
    rw [hat.length_rest, remaining] at hlength
    omega
  have hspos := hat.spos_le
  have hepos := hat.epos_le
  have hunread : s.unread = [] := by rw [unread, hleft, List.take_zero]
  refine ⟨by omega, ?_⟩
  rw [hat.rest, hunread, List.nil_append, fileBlocks_succ (Nat.ne_of_gt hpos),
    nextBlock_eq (by omega), Nat.sub_sub]

/-- Behind the last byte nothing is read. -/
theorem At.iread_end (hat : s.At env content pos []) (n : ℕ) : s.iread env n = (0, [], s) := by
  have hlength := hat.length_rest
  have hspos := hat.spos_le
  rw [List.length_nil, remaining] at hlength
  exact iread_of_eof (by omega) (by omega) n

/-- The buffer is filled up to the end of a block. -/
theorem At.fill (hreliable : Reliable env content) (hat : s.At env content pos rest)
    (hrest : rest ≠ []) :
    ∃ t, s.fill env = some t ∧ t.At env content pos rest ∧ t.left = 512 - pos % 512 ∧
      t.memory = s.memory := by
  by_cases hleft : s.left = 0
  · obtain ⟨hspos, hnext⟩ := hat.next hleft hrest
    have hposition := hat.position
    have hepos := hat.epos_le
    have hwrap : (s.spos + 1) % 65536 = s.spos + 1 := Nat.mod_eq_of_lt (by omega)
    refine ⟨_, fill_reliable hreliable hleft (Nat.ne_of_lt hspos), ?_, ?_, rfl⟩
    · refine ⟨?_, Nat.le_refl _, fun _ => rfl, ?_, hepos, ?_⟩
      · change pos + 512 = 512 * ((s.spos + 1) % 65536)
        omega
      · change (s.spos + 1) % 65536 ≤ s.epos
        omega
      · have hblock : (s.refilled (nextBlock env content s)).unread =
            (nextBlock env content s).val :=
          List.take_of_length_le (Nat.le_of_eq (nextBlock env content s).property)
        rw [hblock]
        change rest = _ ++
          fileBlocks env content s ((s.spos + 1) % 65536) (s.epos - (s.spos + 1) % 65536)
        rw [hwrap]
        exact hnext
    · change 512 = _
      omega
  · have hposition := hat.position
    have hle := hat.left_le
    refine ⟨s, by rw [State.fill, if_neg hleft], hat, by omega, rfl⟩

/-- `iread` takes bytes off the rest of the file, up to the end of a block. -/
theorem At.iread (hreliable : Reliable env content) (hat : s.At env content pos rest)
    (hrest : rest ≠ []) {n : ℕ} (hn : n ≠ 0) {k : ℕ} (hk : min n (512 - pos % 512) = k) :
    ∃ t, s.iread env n = (k, rest.take k, t) ∧ t.At env content (pos + k) (rest.drop k) ∧
      t.memory = s.memory ∧ k ≤ rest.length := by
  obtain ⟨t, hfill, htat, htleft, htmemory⟩ := hat.fill hreliable hrest
  have hleft : t.left ≠ 0 := by omega
  have hmin : min n t.left = k := by rw [htleft, hk]
  have hkle : k ≤ t.left := by omega
  have hkunread : k ≤ t.unread.length := by
    rw [htat.length_unread]
    exact hkle
  have hposition := htat.position
  have hle := htat.left_le
  have hbpos := htat.bpos hleft
  have hkrest : k ≤ rest.length := by
    rw [htat.rest, List.length_append]
    omega
  have htake : rest.take k = (t.dbuf.val.drop t.bpos).take k := by
    rw [htat.rest, List.take_append_of_le_length hkunread, unread, List.take_take,
      Nat.min_eq_left hkle]
  have hiread := iread_of_fill hfill hn hleft
  rw [hmin, ← htake] at hiread
  refine ⟨_, hiread, ⟨?_, ?_, ?_, htat.spos_le, htat.epos_le, ?_⟩, htmemory, hkrest⟩
  · change pos + k + (t.left - k) = 512 * t.spos
    omega
  · exact Nat.le_trans (Nat.sub_le _ _) hle
  · intro _
    change t.bpos + k + (t.left - k) = 512
    omega
  · rw [htat.rest, List.drop_append_of_le_length hkunread]
    change _ = (t.dbuf.val.drop (t.bpos + k)).take (t.left - k) ++ _
    rw [unread, List.drop_take, List.drop_drop]
    rfl

end State

end Fip.Booter
