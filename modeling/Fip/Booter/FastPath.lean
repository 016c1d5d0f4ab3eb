import Fip.Booter.Load

/-!
# The direct reads of the booter

Reading a block straight into memory does what `iread` and `mwrite` do, except
for the data buffer, which has no unread byte before and after.  So the loop
over a segment with the direct branch and the loop without it go in lockstep.
-/

namespace Fip.Booter

/-- All device reads succeed, with these blocks. -/
def Reliable (env : Env) (content : ℕ → Block) : Prop :=
  ∀ count blk, env.read count blk = (content blk, false)

/-- The block at the block position of the file. -/
def nextBlock (env : Env) (content : ℕ → Block) (s : State) : Block :=
  content ((s.bmap env + env.partOffset) % 2 ^ 32)

namespace State

theorem devRead_reliable {env : Env} {content : ℕ → Block}
    (hreliable : Reliable env content) (s : State) :
    s.devRead env (s.bmap env) =
      (nextBlock env content s, false, { s with reads := s.reads + 1 }) := by
  rw [devRead, hreliable]
  rfl

/-- The state behind a refill of the buffer. -/
def refilled (s : State) (dbuf : Block) : State :=
  { s with
    dbuf := dbuf
    spos := (s.spos + 1) % 65536
    bpos := 0
    left := 512
    reads := s.reads + 1 }

theorem fill_reliable {env : Env} {content : ℕ → Block}
    (hreliable : Reliable env content) {s : State} (hleft : s.left = 0)
    (heof : s.spos ≠ s.epos) :
    s.fill env = some (s.refilled (nextBlock env content s)) := by
  rw [fill, if_pos hleft, if_neg heof, devRead_reliable hreliable]
  rfl

theorem iread_of_fill {env : Env} {s t : State} {n : ℕ} (hfill : s.fill env = some t)
    (hn : n ≠ 0) (hleft : t.left ≠ 0) :
    s.iread env n = (min n t.left, (t.dbuf.val.drop t.bpos).take (min n t.left),
      { t with left := t.left - min n t.left, bpos := t.bpos + min n t.left }) := by
  have hmin : (if n < t.left then n else t.left) = min n t.left := by
    split <;> omega
  have hpos : min n t.left ≠ 0 := by omega
  rw [iread, hfill]
  dsimp only
  rw [hmin, if_neg hpos]

theorem iread_of_eof {env : Env} {s : State} (hleft : s.left = 0)
    (heof : s.spos = s.epos) (n : ℕ) : s.iread env n = (0, [], s) := by
  rw [iread, fill, if_pos hleft, if_pos heof]

/-- The bytes of the data buffer that are not read yet. -/
def unread (s : State) : List UInt8 :=
  (s.dbuf.val.drop s.bpos).take s.left

/-- The states differ at most in a data buffer that is used up. -/
structure SameButBuffer (s s' : State) : Prop where
  others : s' = { s with dbuf := s'.dbuf, bpos := s'.bpos }
  buffer : s.left ≠ 0 → s'.dbuf = s.dbuf ∧ s'.bpos = s.bpos

theorem SameButBuffer.refl (s : State) : SameButBuffer s s :=
  ⟨rfl, fun _ => ⟨rfl, rfl⟩⟩

theorem SameButBuffer.eq {s s' : State} (hsame : SameButBuffer s s')
    (hleft : s.left ≠ 0) : s' = s := by
  obtain ⟨hdbuf, hbpos⟩ := hsame.buffer hleft
  rw [hsame.others, hdbuf, hbpos]

theorem SameButBuffer.unread {s s' : State} (hsame : SameButBuffer s s') :
    s'.unread = s.unread := by
  by_cases hleft : s.left = 0
  · have hleft' : s'.left = 0 := by
      rw [hsame.others]
      exact hleft
    rw [State.unread, State.unread, hleft, hleft', List.take_zero, List.take_zero]
  · rw [hsame.eq hleft]

/-- A refilled buffer does not depend on the old one. -/
theorem SameButBuffer.fill {env : Env} {s s' : State} (hsame : SameButBuffer s s') :
    s'.fill env = s.fill env := by
  by_cases hleft : s.left = 0
  · rw [hsame.others]
    simp only [State.fill, devRead, bmap, hleft, if_true]
  · rw [hsame.eq hleft]

/-- Up to the end of the window one copy does. -/
theorem mwrite_inside {s : State} {data : List UInt8} (hne : data ≠ [])
    (hfits : data.length ≤ s.mleft) : s.mwrite data = s.put data data.length := by
  have hpos := List.length_pos_iff.mpr hne
  obtain ⟨fuel, hfuel⟩ := Nat.exists_eq_succ_of_ne_zero (Nat.ne_zero_of_lt hpos)
  have hmleft : s.mleft ≠ 0 := by omega
  have hmax : (if s.mleft < data.length then s.mleft else data.length) = data.length :=
    if_neg (Nat.not_lt.mpr hfits)
  have hdone : ∀ (fuel : ℕ) (s : State), mwriteLoop fuel s [] = s := by
    intro fuel s
    cases fuel with
    | zero => rfl
    | succ fuel => rw [mwriteLoop, if_pos rfl]
  have hloop : s.mwrite data = mwriteLoop (fuel + 1) s data := by rw [mwrite, hfuel]
  rw [hloop, mwriteLoop, if_neg hne, if_neg hmleft]
  dsimp only
  rw [hmax, List.take_length, List.drop_length, hdone]

end State

open State

/-- The errors that report a premature end of the file. -/
def Premature (stop : Option Stop) : Prop :=
  stop = some (.error 4) ∨ stop = some (.error 7)

/-- How the two loops agree. -/
structure Agree (result result' : Option Stop × State) : Prop where
  finished : result.1 = none ↔ result'.1 = none
  premature : Premature result.1 ↔ Premature result'.1
  key : result.1 = some .key ↔ result'.1 = some .key
  state : SameButBuffer result.2 result'.2

theorem Agree.stop {stop : Option Stop} {s s' : State} (hsame : SameButBuffer s s') :
    Agree (stop, s) (stop, s') :=
  ⟨Iff.rfl, Iff.rfl, Iff.rfl, hsame⟩

/-- Both go on, or both end alike. -/
def Lockstep : State × ℕ ⊕ Stop × State → State × ℕ ⊕ Stop × State → Prop
  | .inl (s, todo), .inl (s', todo') => SameButBuffer s s' ∧ todo' = todo
  | .inr (stop, s), .inr (stop', s') => Agree (some stop, s) (some stop', s')
  | _, _ => False

theorem Lockstep.next {s s' : State} (hsame : SameButBuffer s s') (todo : ℕ) :
    Lockstep (.inl (s, todo)) (.inl (s', todo)) :=
  ⟨hsame, rfl⟩

theorem Lockstep.refl (next : State × ℕ ⊕ Stop × State) : Lockstep next next := by
  rcases next with ⟨s, todo⟩ | ⟨stop, s⟩
  · exact ⟨.refl s, rfl⟩
  · exact .stop (.refl s)

theorem SameButBuffer.bufferedRead {env : Env} {s s' : State}
    (hsame : SameButBuffer s s') (todo : ℕ) :
    Lockstep (bufferedRead env s todo) (bufferedRead env s' todo) := by
  rw [Booter.bufferedRead, Booter.bufferedRead, iread, iread, hsame.fill]
  rcases s.fill env with _ | filled
  · exact .stop hsame
  · exact .refl _

/-- The direct read and the buffered one: both read the same block, and the
buffer is used up at once. -/
theorem directRead_agrees {env : Env} {content : ℕ → Block}
    (hreliable : Reliable env content) {s s' : State} (hsame : SameButBuffer s s')
    {todo : ℕ} (hleft : s.left = 0) (htodo : 512 ≤ todo) (hmleft : 512 ≤ s.mleft) :
    Lockstep (directRead env s todo 512) (bufferedRead env s' todo) := by
  by_cases heof : s.spos = s.epos
  · rw [directRead, if_pos heof, Booter.bufferedRead, iread, hsame.fill, fill,
      if_pos hleft, if_pos heof]
    refine ⟨?_, ?_, ?_, hsame⟩ <;> simp [Premature]
  · have hlength := (nextBlock env content s).property
    have hne : (nextBlock env content s).val ≠ [] := by
      rw [← List.length_pos_iff, hlength]
      decide
    have hmin : min todo 512 = 512 := Nat.min_eq_right htodo
    have hfill : s'.fill env = some (s.refilled (nextBlock env content s)) := by
      rw [hsame.fill, fill_reliable hreliable hleft heof]
    have hiread : s'.iread env todo = (512, (nextBlock env content s).val,
        { s.refilled (nextBlock env content s) with left := 0, bpos := 512 }) := by
      have htodo' : todo ≠ 0 := by omega
      rw [iread_of_fill hfill htodo' (by decide : (512 : ℕ) ≠ 0)]
      change (min todo 512, ((nextBlock env content s).val.drop 0).take (min todo 512),
        { s.refilled _ with left := 512 - min todo 512, bpos := 0 + min todo 512 }) = _
      rw [hmin, List.drop_zero, List.take_of_length_le (Nat.le_of_eq hlength)]
    have hmwrite : ({ s.refilled (nextBlock env content s) with left := 0, bpos := 512 }
        : State).mwrite (nextBlock env content s).val =
          State.put { s.refilled (nextBlock env content s) with left := 0, bpos := 512 }
            (nextBlock env content s).val 512 := by
      rw [mwrite_inside hne (by rw [hlength]; exact hmleft), hlength]
    rw [directRead, if_neg heof, devRead_reliable hreliable, Booter.bufferedRead, hiread]
    dsimp only
    rw [if_neg Bool.false_ne_true, if_neg (show ¬ (512 : ℕ) = 0 by decide),
      if_neg (show ¬ (512 : ℕ) = 65535 by decide), hmwrite]
    apply Lockstep.next
    cases s
    cases hleft
    exact ⟨rfl, fun hunread => absurd rfl hunread⟩

theorem piece_eq_iff {s : State} {todo : ℕ} :
    piece s todo = 512 ↔ 512 ≤ todo ∧ 512 ≤ s.mleft := by
  rw [piece]
  split <;> split <;> omega

theorem segmentBody_agrees {env : Env} {content : ℕ → Block}
    (hreliable : Reliable env content) {s s' : State} (hsame : SameButBuffer s s')
    (todo : ℕ) :
    Lockstep (segmentBody true env s todo) (segmentBody false env s' todo) := by
  have hpolls : s'.polls = s.polls := by rw [hsame.others]
  have hpolled : SameButBuffer { s with polls := s.polls + 1 }
      { s' with polls := s'.polls + 1 } := by
    refine ⟨?_, hsame.buffer⟩
    rw [hsame.others]
  rw [segmentBody, segmentBody, hpolls]
  dsimp only
  rw [hpolls] at hpolled
  by_cases hpressed : env.iscntldown s.polls = true
  · rw [if_pos hpressed, if_pos hpressed]
    exact .stop hpolled
  · have hbuffered : ¬ (false = true ∧ piece { s' with polls := s.polls + 1 } todo = 512 ∧
        s'.left = 0) := fun h => Bool.false_ne_true h.1
    rw [if_neg hpressed, if_neg hpressed, if_neg hbuffered]
    split
    · next hdirect =>
        obtain ⟨_, hm, hleft⟩ := hdirect
        obtain ⟨htodo, hmleft⟩ := piece_eq_iff.mp hm
        rw [hm]
        exact directRead_agrees hreliable hpolled hleft htodo hmleft
    · exact SameButBuffer.bufferedRead hpolled todo

theorem segmentStep_agrees {env : Env} {content : ℕ → Block}
    (hreliable : Reliable env content) (s s' : State × ℕ)
    (hrelated : SameButBuffer s.1 s'.1 ∧ s'.2 = s.2) :
    (∃ t t', segmentStep true env s = .inl t ∧ segmentStep false env s' = .inl t' ∧
      SameButBuffer t.1 t'.1 ∧ t'.2 = t.2) ∨
    ∃ result result', segmentStep true env s = .inr result ∧
      segmentStep false env s' = .inr result' ∧ Agree result result' := by
  obtain ⟨hsame, htodo⟩ := hrelated
  rw [segmentStep, segmentStep, htodo]
  by_cases hdone : s.2 = 0
  · rw [if_pos hdone, if_pos hdone]
    exact .inr ⟨_, _, rfl, rfl, .stop hsame⟩
  · have hbody := segmentBody_agrees hreliable hsame s.2
    rw [if_neg hdone, if_neg hdone]
    rcases hdirect : segmentBody true env s.1 s.2 with ⟨t, todo⟩ | ⟨stop, t⟩ <;>
      rcases hbuffered : segmentBody false env s'.1 s.2 with ⟨t', todo'⟩ | ⟨stop', t'⟩ <;>
      rw [hdirect, hbuffered] at hbody
    · exact .inl ⟨_, _, rfl, rfl, hbody⟩
    · exact absurd hbody id
    · exact absurd hbody id
    · exact .inr ⟨_, _, rfl, rfl, hbody⟩

/-- A round of the loop over a segment loads a byte at least. -/
theorem segmentBody_lt {direct : Bool} {env : Env} {s t : State} {todo left : ℕ}
    (htodo : todo ≠ 0) (hbody : segmentBody direct env s todo = .inl (t, left)) :
    left < todo := by
  rw [segmentBody] at hbody
  dsimp only at hbody
  split at hbody
  · cases hbody
  · split at hbody
    · next hdirect =>
        rw [hdirect.2.1, directRead] at hbody
        dsimp only at hbody
        split at hbody
        · cases hbody
        · split at hbody
          · cases hbody
          · cases hbody
            omega
    · rw [bufferedRead] at hbody
      dsimp only at hbody
      split at hbody
      · cases hbody
      · next hret =>
          split at hbody
          · cases hbody
          · cases hbody
            omega

theorem segmentStep_advances (direct : Bool) (env : Env) (s : State × ℕ) :
    Machine.Advances (fun _ => True) (fun _ => True) Prod.snd s.2
      (segmentStep direct env s) := by
  rw [segmentStep]
  split
  · trivial
  · next htodo =>
      rcases hbody : segmentBody direct env s.1 s.2 with ⟨t, left⟩ | stop
      · exact ⟨trivial, segmentBody_lt htodo hbody⟩
      · trivial

/-- The loop over a segment comes to an end. -/
theorem segmentLoop_stops (direct : Bool) (env : Env) (s : State) (todo : ℕ) :
    ∃ result, segmentLoop direct env s todo = some result := by
  have hrun := Machine.run_total (fun s _ => segmentStep_advances direct env s)
    (s := (s, todo)) trivial (Nat.lt_succ_self todo)
  obtain ⟨result, hresult, _⟩ := hrun
  exact ⟨result, hresult⟩

/-- The file position: what of the blocks that were read is not buffered. -/
def State.position (s : State) : Int :=
  512 * (s.spos : Int) - (s.left : Int)

/-- From any state and for any rest of a segment, the loop with the direct
branch and the loop without it end with the same memory, the same window onto
it, the same file position and the same unread bytes; one loads the whole
segment, is stopped by the key or meets a premature end of the file exactly if
the other does. -/
theorem segmentLoop_direct_agrees {env : Env} {content : ℕ → Block}
    (hreliable : Reliable env content) (s : State) (todo : ℕ) :
    ∃ stop stop' t t',
      segmentLoop true env s todo = some (stop, t) ∧
      segmentLoop false env s todo = some (stop', t') ∧
      t'.mem = t.mem ∧ t'.position = t.position ∧ t'.unread = t.unread ∧
      (t'.mmu, t'.mleft, t'.maddr, t'.paddr) = (t.mmu, t.mleft, t.maddr, t.paddr) ∧
      (Premature stop' ↔ Premature stop) ∧ (stop' = none ↔ stop = none) ∧
      (stop' = some .key ↔ stop = some .key) := by
  obtain ⟨⟨stop, t⟩, hdirect⟩ := segmentLoop_stops true env s todo
  have hstart : SameButBuffer s s ∧ todo = todo := ⟨.refl s, rfl⟩
  have hlockstep : ∃ result, segmentLoop false env s todo = some result ∧
      Agree (stop, t) result :=
    Machine.run_related (segmentStep_agrees hreliable) hstart hdirect
  obtain ⟨⟨stop', t'⟩, hbuffered, hagree⟩ := hlockstep
  have hothers : t' = { t with dbuf := t'.dbuf, bpos := t'.bpos } := hagree.state.others
  refine ⟨stop, stop', t, t', hdirect, hbuffered, ?_, ?_, hagree.state.unread, ?_,
    hagree.premature.symm, hagree.finished.symm, hagree.key.symm⟩
  · rw [hothers]
  · rw [hothers]
    rfl
  · rw [hothers]

/-- A disk that holds 0x41 only, and no key is pressed. -/
def letters : Env where
  read _ _ := (⟨List.replicate 512 0x41, List.length_replicate⟩, false)
  iscntldown _ := false
  partOffset := 0
  past _ := 0

/-- At the start of a file of two blocks, with the window at address 0. -/
def atStart : State where
  i := { size := 1024, addr := List.replicate 20 9 }
  idir := ⟨List.replicate 512 0, List.length_replicate⟩
  dbuf := ⟨List.replicate 512 0, List.length_replicate⟩
  left := 0
  bpos := 0
  spos := 0
  epos := 2
  mmu := 0
  mleft := 0x2000
  maddr := 0x2000
  paddr := 0
  mem _ := 0
  reads := 0
  polls := 0

theorem segmentLoop_direct_agrees_sixHundred :
    ∃ stop stop' t t',
      segmentLoop true letters atStart 600 = some (stop, t) ∧
      segmentLoop false letters atStart 600 = some (stop', t') ∧
      t'.mem = t.mem ∧ t'.position = t.position ∧ t'.unread = t.unread ∧
      (t'.mmu, t'.mleft, t'.maddr, t'.paddr) = (t.mmu, t.mleft, t.maddr, t.paddr) ∧
      (Premature stop' ↔ Premature stop) ∧ (stop' = none ↔ stop = none) ∧
      (stop' = some .key ↔ stop = some .key) :=
  segmentLoop_direct_agrees (fun _ _ => rfl) atStart 600

end Fip.Booter
