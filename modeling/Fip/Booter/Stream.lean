import Fip.Booter.Kernel

/-!
# Reading a file to its end

`iread` takes whole blocks for what is in the file: the last one is not cut at the
size in the inode.
-/

namespace Fip.Booter

/-- So many calls of `iread` with these counts: what they return, one behind the
other, and the state behind them. -/
def State.ireads (env : Env) (counts : ℕ → ℕ) (s : State) : ℕ → List UInt8 × State
  | 0 => ([], s)
  | calls + 1 =>
      let (front, s) := s.ireads env counts calls
      let (_, piece, s) := s.iread env (counts calls)
      (front ++ piece, s)

/-- Whatever the counts, the calls return the contents of the open file, and then
each further call returns 0. -/
def ReadsExactly (env : Env) (content : ℕ → Block) (s : State) : Prop :=
  ∀ counts : ℕ → ℕ, (∀ call, 0 < counts call ∧ counts call < 65536) →
    ∃ calls, (s.ireads env counts calls).1 = fileBytes env content s ∧
      ∀ later, calls ≤ later →
        ((s.ireads env counts later).2.iread env (counts later)).1 = 0

section

variable {env : Env} {content : ℕ → Block} {s : State} {counts : ℕ → ℕ}
  {whole : List UInt8}

theorem ireads_succ (calls : ℕ) : s.ireads env counts (calls + 1) =
    ((s.ireads env counts calls).1 ++
        ((s.ireads env counts calls).2.iread env (counts calls)).2.1,
      ((s.ireads env counts calls).2.iread env (counts calls)).2.2) := rfl

/-- The calls work off the blocks of the file, and each takes a byte at least while
there is one. -/
theorem ireads_at (hreliable : Reliable env content) (hat : s.At env content 0 whole)
    (hcounts : ∀ call, counts call ≠ 0) (calls : ℕ) :
    ∃ pos rest, (s.ireads env counts calls).2.At env content pos rest ∧
      (s.ireads env counts calls).1 ++ rest = whole ∧
      (rest = [] ∨ calls ≤ (s.ireads env counts calls).1.length) := by
  induction calls with
  | zero => exact ⟨0, whole, hat, rfl, .inr (Nat.zero_le _)⟩
  | succ calls ih =>
      obtain ⟨pos, rest, hat, hwhole, hprogress⟩ := ih
      rw [ireads_succ]
      by_cases hrest : rest = []
      · subst hrest
        rw [hat.iread_end, List.append_nil]
        exact ⟨pos, [], hat, hwhole, .inl rfl⟩
      · obtain ⟨t, hiread, htat, _, hle⟩ := hat.iread hreliable hrest (hcounts calls) rfl
        rw [hiread]
        refine ⟨_, _, htat, ?_, .inr ?_⟩
        · rw [List.append_assoc, List.take_append_drop]
          exact hwhole
        · have hbefore := hprogress.resolve_left hrest
          have hpos : 0 < min (counts calls) (512 - pos % 512) := by
            have := Nat.pos_of_ne_zero (hcounts calls)
            omega
          rw [List.length_append, List.length_take, Nat.min_eq_left hle]
          omega

/-- When nothing more is returned, all blocks were. -/
theorem ireads_of_end (hreliable : Reliable env content) (hat : s.At env content 0 whole)
    (hcounts : ∀ call, counts call ≠ 0) {calls : ℕ}
    (hend : ((s.ireads env counts calls).2.iread env (counts calls)).1 = 0) :
    (s.ireads env counts calls).1 = whole := by
  obtain ⟨pos, rest, hat, hwhole, _⟩ := ireads_at hreliable hat hcounts calls
  by_cases hrest : rest = []
  · rwa [hrest, List.append_nil] at hwhole
  · obtain ⟨t, hiread, _⟩ := hat.iread hreliable hrest (hcounts calls) rfl
    rw [hiread] at hend
    have := Nat.pos_of_ne_zero (hcounts calls)
    dsimp only at hend
    omega

/-- In the end all blocks are returned, and then nothing. -/
theorem ireads_total (hreliable : Reliable env content) (hat : s.At env content 0 whole)
    (hcounts : ∀ call, counts call ≠ 0) {calls : ℕ} (hcalls : whole.length < calls) :
    (s.ireads env counts calls).1 = whole ∧
      ((s.ireads env counts calls).2.iread env (counts calls)).1 = 0 := by
  obtain ⟨pos, rest, hat, hwhole, hprogress⟩ := ireads_at hreliable hat hcounts calls
  have hrest : rest = [] := by
    apply hprogress.resolve_right
    rw [← hwhole, List.length_append] at hcalls
    omega
  subst hrest
  rw [hat.iread_end]
  exact ⟨by rwa [List.append_nil] at hwhole, rfl⟩

theorem blocks_of_readsExactly (hreliable : Reliable env content) {no : ℕ}
    (hsize : (s.iopen env no).i.size ≤ 274 * 512)
    (hexact : ReadsExactly env content (s.iopen env no)) :
    (s.iopen env no).i.size % 512 = 0 := by
  have hlength : (fileBlocks env content (s.iopen env no) 0 (s.iopen env no).epos).length =
      512 * (s.iopen env no).epos := length_fileBlocks 0 _
  have hepos := State.epos_iopen hsize
  obtain ⟨calls, hread, hend⟩ := hexact (fun _ => 1) fun _ => ⟨by decide, by decide⟩
  rw [ireads_of_end hreliable (State.at_iopen hsize) (fun _ => Nat.one_ne_zero)
    (hend calls (Nat.le_refl _)), fileBytes] at hread
  have hcut := congrArg List.length hread
  rw [List.length_take, hlength] at hcut
  omega

/-- A file is read exactly if its size is a number of whole blocks. -/
theorem readsExactly_iff (hreliable : Reliable env content) {no : ℕ}
    (hsize : (s.iopen env no).i.size ≤ 274 * 512) :
    ReadsExactly env content (s.iopen env no) ↔ (s.iopen env no).i.size % 512 = 0 := by
  constructor
  · exact blocks_of_readsExactly hreliable hsize
  · intro hblocks counts hcounts
    have hwhole : fileBytes env content (s.iopen env no) =
        fileBlocks env content (s.iopen env no) 0 (s.iopen env no).epos := by
      have hepos := State.epos_iopen hsize
      apply List.take_of_length_le
      rw [length_fileBlocks]
      omega
    have hne : ∀ call, counts call ≠ 0 := fun call => Nat.ne_of_gt (hcounts call).1
    have hat : (s.iopen env no).At env content 0
        (fileBlocks env content (s.iopen env no) 0 (s.iopen env no).epos) :=
      State.at_iopen hsize
    refine ⟨512 * (s.iopen env no).epos + 1, ?_, ?_⟩
    · rw [hwhole]
      exact (ireads_total hreliable hat hne (by rw [length_fileBlocks]; omega)).1
    · intro later hlater
      exact (ireads_total hreliable hat hne (by rw [length_fileBlocks]; omega)).2

end

/-- A file of two blocks is read as it is. -/
theorem readsExactly_iff_twoBlocks :
    ReadsExactly (quiet (disk 1024 (padded [] (by decide)) (padded [] (by decide))))
        (disk 1024 (padded [] (by decide)) (padded [] (by decide)))
        (atStart.iopen
          (quiet (disk 1024 (padded [] (by decide)) (padded [] (by decide)))) 8) ↔
      (atStart.iopen (quiet (disk 1024 (padded [] (by decide)) (padded [] (by decide))))
        8).i.size % 512 = 0 :=
  readsExactly_iff (quiet_reliable _) (by decide +kernel)

/-- Of a file of twelve bytes, 500 more are returned. -/
theorem not_readsExactly_twelve :
    (atStart.iopen (quiet smallDisk) 8).i.size = 12 ∧
      ¬ ReadsExactly (quiet smallDisk) smallDisk (atStart.iopen (quiet smallDisk) 8) := by
  have hsize : (atStart.iopen (quiet smallDisk) 8).i.size = 12 := by decide +kernel
  refine ⟨hsize, ?_⟩
  intro hexact
  have hblocks := blocks_of_readsExactly (quiet_reliable smallDisk)
    (by rw [hsize]; decide) hexact
  rw [hsize] at hblocks
  exact absurd hblocks (by decide)

end Fip.Booter
