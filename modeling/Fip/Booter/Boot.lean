import Fip.Booter.Path

/-!
# The device errors that boot notices

`boot` reads the device from five places.  A direct read that fails stops it, but
`iopen` and `iread` do not look at what `dev_read` returns, so that whatever is in
the buffer then goes for an inode, a directory or a piece of the kernel.
-/

namespace Fip.Booter

/-- `open` and the load loop of `boot`.  Behind them nothing is read any more, and
the kernel is started. -/
def boot (env : Env) (behind : UInt8) (cd : ℕ) (s : State) (name : CString) :
    Option (Loaded × State) :=
  match dopath env behind cd s name with
  | none => none
  | some (ino, s) => if ino = 65535 then some (.inr (.error 2), s) else load env s ino

/-- Who issues a read. -/
inductive Reader where
  | iopen
  | iread
  | direct
  deriving DecidableEq

/-- A call of `dev_read`. -/
structure Read where
  reader : Reader
  failed : Bool
  deriving DecidableEq

section

variable (env : Env) (behind : UInt8)

namespace State

/-- The two reads of `iopen`. -/
def iopenReads (s : State) (no : ℕ) : List Read :=
  let (buf, failed, s) := s.devRead env (2 + no >>> 3)
  let i := Inode.decode ((buf.val.drop ((no &&& 0x7) * 64)).take 64)
  [⟨.iopen, failed⟩, ⟨.iopen, (s.devRead env (i.addr.getD 18 0)).2.1⟩]

/-- The read of the next block. -/
def nextRead (s : State) (reader : Reader) : Read :=
  ⟨reader, (s.devRead env (s.bmap env)).2.1⟩

def ireadReads (s : State) : List Read :=
  if s.left = 0 ∧ s.spos ≠ s.epos then [s.nextRead env .iread] else []

end State

def lookupReads (s : State) (ino : ℕ) (name : List UInt8) : List Read :=
  s.iopenReads env ino ++
    (Machine.visited (lookupStep env behind name) (16 * (s.iopen env ino).epos + 1)
      (s.iopen env ino)).flatMap (State.ireadReads env)

def dopathStepReads : List UInt8 × ℕ × State → List Read
  | (path, ino, s) =>
      if path = [] ∨ ino = 65535 then []
      else
        let c := (path.dropWhile (· == slash)).takeWhile (· != slash)
        if 31 ≤ c.length then [] else lookupReads env behind s ino c

def dopathReads (cd : ℕ) (s : State) (path : CString) : List Read :=
  let (ino, rest) := start cd path
  (Machine.visited (dopathStep env behind) (rest.length + 1) (rest, ino, s)).flatMap
    (dopathStepReads env behind)

def segmentReads (s : State) (todo : ℕ) : List Read :=
  if env.iscntldown s.polls then []
  else if piece s todo = 512 ∧ s.left = 0 then
    if s.spos = s.epos then [] else [s.nextRead env .direct]
  else s.ireadReads env

def loadStepReads : State × Option ℕ → List Read
  | (s, none) => s.ireadReads env
  | (s, some todo) => if todo = 0 then [] else segmentReads env s todo

def loadReads (s : State) (no : ℕ) : List Read :=
  s.iopenReads env no ++
    (Machine.visited (loadStep env) (1024 * (s.iopen env no).epos + 1)
      (s.iopen env no, none)).flatMap (loadStepReads env)

/-- The reads that `boot` issues, in their order. -/
def bootReads (cd : ℕ) (s : State) (name : CString) : List Read :=
  dopathReads env behind cd s name ++
    match dopath env behind cd s name with
    | none => []
    | some (ino, s) => if ino = 65535 then [] else loadReads env s ino

/-- `boot` ends, and starts the kernel only if no read has failed. -/
def Careful (cd : ℕ) (s : State) (name : CString) : Prop :=
  ∃ loaded t, boot env behind cd s name = some (loaded, t) ∧
    ((∃ stop, loaded = .inr stop) ∨
      ∀ read ∈ bootReads env behind cd s name, read.failed = false)

end

namespace State

/-- Writing memory neither touches the open file nor reads the device. -/
theorem mwrite_frame (s : State) (data : List UInt8) :
    (s.mwrite data).reader = s.reader ∧ (s.mwrite data).reads = s.reads := by
  have hloop : ∀ (fuel : ℕ) (s : State) (data : List UInt8),
      (mwriteLoop fuel s data).reader = s.reader ∧
        (mwriteLoop fuel s data).reads = s.reads := by
    intro fuel
    induction fuel with
    | zero => exact fun _ _ => ⟨rfl, rfl⟩
    | succ fuel ih =>
        intro s data
        rw [mwriteLoop]
        by_cases hdata : data = []
        · rw [if_pos hdata]
          exact ⟨rfl, rfl⟩
        · rw [if_neg hdata]
          by_cases hmleft : s.mleft = 0
          · rw [if_pos hmleft]
            exact ih _ _
          · rw [if_neg hmleft]
            exact ih _ _
  exact hloop data.length s data

theorem Bounded.of_reader {s t : State} (hbounded : s.Bounded)
    (hreader : t.reader = s.reader) : t.Bounded ∧ t.remaining = s.remaining := by
  cases s
  cases t
  simp only [reader, Prod.mk.injEq] at hreader
  obtain ⟨rfl, rfl, rfl, rfl, rfl, rfl, rfl⟩ := hreader
  exact ⟨⟨hbounded.left_le, hbounded.spos_le, hbounded.epos_lt⟩, rfl⟩

variable {env : Env} {s : State}

/-- What `iread` leaves of the file. -/
theorem Bounded.iread_leaves (env : Env) (hbounded : s.Bounded) {n : ℕ} (hn : n ≠ 0) :
    ∃ k bytes u, s.iread env n = (k, bytes, u) ∧ k ≤ 512 ∧ u.Bounded ∧
      u.remaining + k = s.remaining := by
  by_cases hmore : s.remaining = 0
  · exact ⟨0, [], s, iread_of_done hmore hbounded n, Nat.zero_le _, hbounded, rfl⟩
  · obtain ⟨t, u, _, _, _, hle, _, hiread, hu, hremaining⟩ :=
      hbounded.iread env hmore hn
    exact ⟨_, _, u, hiread, Nat.le_trans (Nat.min_le_right _ _) hle, hu, hremaining⟩

theorem reads_iread (s : State) (n : ℕ) :
    (s.iread env n).2.2.reads = s.reads + (s.ireadReads env).length := by
  have htake : ∀ t : State, s.fill env = some t → (s.iread env n).2.2.reads = t.reads := by
    intro t hfill
    rw [iread, hfill]
    dsimp only
    split <;> split <;> rfl
  rw [ireadReads]
  by_cases hleft : s.left = 0
  · by_cases heof : s.spos = s.epos
    · rw [iread_of_eof hleft heof, if_neg fun h => h.2 heof]
      rfl
    · rw [if_pos ⟨hleft, heof⟩, htake _ (fill_of_empty hleft heof)]
      rfl
  · rw [if_neg fun h => hleft h.1, htake s (by rw [fill, if_neg hleft])]
    rfl

end State

section

variable {env : Env} {behind : UInt8}

/-- The state behind a round of the loop over a segment. -/
def segmentEnd : State × ℕ ⊕ Stop × State → State :=
  Sum.elim Prod.fst Prod.snd

/-- The state behind a poll of the keyboard. -/
def State.polled (s : State) : State :=
  { s with polls := s.polls + 1 }

theorem segmentBody_eq (s : State) (todo : ℕ) :
    segmentBody true env s todo =
      if env.iscntldown s.polls then .inr (.key, s.polled)
      else if piece s todo = 512 ∧ s.left = 0 then
        directRead env s.polled todo (piece s todo)
      else bufferedRead env s.polled todo := by
  rw [segmentBody]
  simp only [true_and]
  rfl

theorem reads_directRead (s : State) (todo m : ℕ) :
    (segmentEnd (directRead env s todo m)).reads =
      s.reads + (if s.spos = s.epos then [] else [s.nextRead env .direct]).length := by
  rw [directRead]
  dsimp only
  split
  · rfl
  · split <;> rfl

theorem reads_bufferedRead (s : State) (todo : ℕ) :
    (segmentEnd (bufferedRead env s todo)).reads =
      s.reads + (s.ireadReads env).length := by
  rw [← State.reads_iread s todo, bufferedRead]
  dsimp only
  split
  · rfl
  · split
    · rfl
    · exact (State.mwrite_frame _ _).2

/-- A round reads what `segmentReads` says. -/
theorem reads_segmentBody (s : State) (todo : ℕ) :
    (segmentEnd (segmentBody true env s todo)).reads =
      s.reads + (segmentReads env s todo).length := by
  rw [segmentBody_eq, segmentReads]
  split
  · rfl
  · split
    · exact reads_directRead s.polled todo _
    · exact reads_bufferedRead s.polled todo

theorem reads_loadStep (state : State × Option ℕ) :
    Machine.Counts (fun state => state.1.reads) (fun result total => result.2.reads = total)
      (state.1.reads + (loadStepReads env state).length) (loadStep env state) := by
  obtain ⟨s, _ | todo⟩ := state
  · rw [loadStepReads, ← State.reads_iread s 5, loadStep]
    dsimp only
    split
    · exact rfl
    · split <;> exact rfl
  · rw [loadStepReads, loadStep]
    dsimp only
    split
    · exact rfl
    · rw [← reads_segmentBody]
      rcases segmentBody true env s todo with ⟨t, left⟩ | ⟨stop, t⟩ <;> exact rfl

theorem reads_lookupStep (name : List UInt8) (s : State) :
    Machine.Counts State.reads (fun result total => result.2.reads = total)
      (s.reads + (s.ireadReads env).length) (lookupStep env behind name s) := by
  rw [← State.reads_iread s 32, lookupStep]
  dsimp only
  split
  · exact rfl
  · split <;> exact rfl

theorem reads_lookup {s t : State} {ino no : ℕ} {name : List UInt8}
    (hlookup : lookup env behind s ino name = some (no, t)) :
    t.reads = s.reads + (lookupReads env behind s ino name).length := by
  rw [lookup_eq] at hlookup
  rw [lookupReads, List.length_append, ← Nat.add_assoc]
  exact Machine.run_logged (reads_lookupStep name) hlookup

theorem reads_dopathStep (state : List UInt8 × ℕ × State) :
    Machine.Counts (fun state => state.2.2.reads)
      (fun result total => ∀ ino t, result = some (ino, t) → t.reads = total)
      (state.2.2.reads + (dopathStepReads env behind state).length)
      (dopathStep env behind state) := by
  obtain ⟨path, ino, s⟩ := state
  rw [dopathStep, dopathStepReads]
  split
  · rintro _ _ ⟨⟩
    rfl
  · dsimp only
    split
    · rintro _ _ ⟨⟩
    · rcases hlookup : lookup env behind s ino
        ((path.dropWhile (· == slash)).takeWhile (· != slash)) with _ | ⟨next, t⟩
      · rintro _ _ ⟨⟩
      · exact reads_lookup hlookup

theorem reads_dopath {s t : State} {cd ino : ℕ} {path : CString}
    (hdopath : dopath env behind cd s path = some (ino, t)) :
    t.reads = s.reads + (dopathReads env behind cd s path).length := by
  have hrun := Option.join_eq_some_iff.mp hdopath
  exact Machine.run_logged reads_dopathStep hrun ino t rfl

theorem reads_load {s t : State} {no : ℕ} {loaded : Loaded}
    (hload : load env s no = some (loaded, t)) :
    t.reads = s.reads + (loadReads env s no).length := by
  rw [loadReads, List.length_append, ← Nat.add_assoc]
  exact Machine.run_logged reads_loadStep hload

/-- `bootReads` is all that `boot` reads. -/
theorem reads_boot {s t : State} {cd : ℕ} {name : CString} {loaded : Loaded}
    (hboot : boot env behind cd s name = some (loaded, t)) :
    t.reads = s.reads + (bootReads env behind cd s name).length := by
  rw [boot] at hboot
  rw [bootReads, List.length_append]
  rcases hdopath : dopath env behind cd s name with _ | ⟨ino, u⟩
  · rw [hdopath] at hboot
    cases hboot
  · have hreads := reads_dopath hdopath
    rw [hdopath] at hboot
    dsimp only at hboot ⊢
    split at hboot
    · next hnone =>
        cases hboot
        rw [if_pos hnone, hreads]
        rfl
    · next hsome =>
        rw [if_neg hsome, reads_load hboot, hreads, Nat.add_assoc]

theorem directRead_leaves {s t : State} (hbounded : s.Bounded)
    {todo m left : ℕ} (hread : directRead env s todo m = .inl (t, left)) :
    t.Bounded ∧ t.remaining < s.remaining := by
  obtain ⟨hle, hspos, hepos⟩ := hbounded
  rw [directRead] at hread
  split at hread
  · cases hread
  · next heof =>
      dsimp only at hread
      split at hread
      · cases hread
      · cases hread
        have hwrap : (s.spos + 1) % 65536 = s.spos + 1 := Nat.mod_eq_of_lt (by omega)
        refine ⟨⟨hle, ?_, hepos⟩, ?_⟩
        · change (s.spos + 1) % 65536 ≤ s.epos
          omega
        · change s.left + 512 * (s.epos - (s.spos + 1) % 65536) <
            s.left + 512 * (s.epos - s.spos)
          omega

theorem bufferedRead_leaves {s t : State} (hbounded : s.Bounded) {todo left : ℕ}
    (htodo : todo ≠ 0) (hread : bufferedRead env s todo = .inl (t, left)) :
    t.Bounded ∧ t.remaining < s.remaining := by
  obtain ⟨k, bytes, u, hiread, hle, hu, hremaining⟩ :=
    hbounded.iread_leaves env htodo
  rw [bufferedRead, hiread] at hread
  dsimp only at hread
  split at hread
  · cases hread
  · rw [if_neg (by omega)] at hread
    cases hread
    have hwritten := hu.of_reader (u.mwrite_frame bytes).1
    refine ⟨hwritten.1, ?_⟩
    rw [hwritten.2]
    omega

/-- A round of the loop over a segment that goes on has read a part of the file. -/
theorem segmentBody_leaves {s t : State} (hbounded : s.Bounded) {todo left : ℕ}
    (htodo : todo ≠ 0) (hbody : segmentBody true env s todo = .inl (t, left)) :
    t.Bounded ∧ t.remaining < s.remaining := by
  have hpolled : s.polled.Bounded ∧ s.polled.remaining = s.remaining :=
    hbounded.of_reader rfl
  rw [segmentBody_eq] at hbody
  split at hbody
  · cases hbody
  · split at hbody
    · rw [← hpolled.2]
      exact directRead_leaves hpolled.1 hbody
    · rw [← hpolled.2]
      exact bufferedRead_leaves hpolled.1 htodo hbody

theorem loadStep_advances {state : State × Option ℕ} (hbounded : state.1.Bounded) :
    Machine.Advances (fun state => state.1.Bounded) (fun _ => True) loadMeasure
      (loadMeasure state) (loadStep env state) := by
  obtain ⟨s, _ | todo⟩ := state
  · obtain ⟨k, bytes, u, hiread, _, hu, hremaining⟩ :=
      hbounded.iread_leaves env (by decide : (5 : ℕ) ≠ 0)
    rw [loadStep, hiread]
    dsimp only
    split
    · trivial
    · next hk =>
        split
        · trivial
        · have hseek : (u.mseek (Binhdr.decode bytes).addr).Bounded ∧ _ := hu.of_reader rfl
          refine ⟨hseek.1, ?_⟩
          change 2 * u.remaining + 1 < 2 * s.remaining + 0
          have : k = 5 := not_not.mp hk
          dsimp only at hremaining
          omega
  · rw [loadStep]
    dsimp only
    split
    · exact ⟨hbounded, Nat.lt_succ_self _⟩
    · next htodo =>
        rcases hbody : segmentBody true env s todo with ⟨t, left⟩ | stop
        · obtain ⟨ht, hlt⟩ := segmentBody_leaves hbounded htodo hbody
          refine ⟨ht, ?_⟩
          change 2 * t.remaining + 1 < 2 * s.remaining + 1
          dsimp only at hlt
          omega
        · trivial

/-- The load loop ends, whatever the device delivers. -/
theorem load_stops (env : Env) (s : State) (no : ℕ) : ∃ result, load env s no = some result := by
  have hfuel : loadMeasure (s.iopen env no, none) < 1024 * (s.iopen env no).epos + 1 := by
    change 2 * (0 + 512 * ((s.iopen env no).epos - 0)) + 0 < _
    omega
  have hstart : (s.iopen env no).Bounded := State.bounded_iopen no
  obtain ⟨result, hrun, _⟩ := Machine.run_total
    (fun _ hbounded => loadStep_advances hbounded) hstart hfuel
  exact ⟨result, hrun⟩

/-- The path is walked to an end, whatever the device delivers. -/
theorem dopath_stops (env : Env) (behind : UInt8) (cd : ℕ) (s : State) {path : CString}
    (hshort : ∀ name ∈ components path.val, name.length ≤ 30) :
    ∃ result, dopath env behind cd s path = some result := by
  have hstep : ∀ state : List UInt8 × ℕ × State,
      (∀ name ∈ sought state.1, name.length ≤ 30) →
      Machine.Advances (fun state => ∀ name ∈ sought state.1, name.length ≤ 30)
        (fun result => result ≠ none) (fun state => state.1.length) state.1.length
        (dopathStep env behind state) := by
    rintro ⟨path, no, s⟩ hfits
    rw [dopathStep]
    split
    · exact Option.some_ne_none _
    · next hmore =>
        have hne : path ≠ [] := fun hnil => hmore (.inl hnil)
        dsimp only at hfits
        rw [sought_next hne, List.forall_mem_cons] at hfits
        obtain ⟨⟨next, t⟩, hlookup⟩ := lookup_stops env behind s no
          ((path.dropWhile (· == slash)).takeWhile (· != slash))
        dsimp only
        rw [if_neg (Nat.not_le.mpr (Nat.lt_succ_of_le hfits.1)), hlookup]
        exact ⟨hfits.2, length_next_lt hne⟩
  let state : List UInt8 × ℕ × State := ((start cd path).2, (start cd path).1, s)
  have hstart : ∀ name ∈ sought state.1, name.length ≤ 30 := by
    intro name hname
    apply length_of_sought _ hname
    rw [components_start]
    exact hshort
  obtain ⟨result, hrun, hsome⟩ := Machine.run_total hstep hstart (Nat.lt_succ_self _)
  obtain ⟨found, rfl⟩ := Option.ne_none_iff_exists'.mp hsome
  exact ⟨found, Option.join_eq_some_iff.mpr hrun⟩

theorem boot_stops (env : Env) (behind : UInt8) (cd : ℕ) (s : State) {name : CString}
    (hshort : ∀ part ∈ components name.val, part.length ≤ 30) :
    ∃ loaded t, boot env behind cd s name = some (loaded, t) := by
  obtain ⟨⟨ino, u⟩, hdopath⟩ := dopath_stops env behind cd s hshort
  rw [boot, hdopath]
  dsimp only
  split
  · exact ⟨_, _, rfl⟩
  · obtain ⟨⟨loaded, t⟩, hload⟩ := load_stops env u ino
    exact ⟨loaded, t, hload⟩

theorem reader_of_ireadReads {s : State} {read : Read} (hread : read ∈ s.ireadReads env) :
    read.reader = .iread := by
  rw [State.ireadReads] at hread
  split at hread
  · rw [List.mem_singleton.mp hread]
    rfl
  · cases hread

theorem reader_of_iopenReads {s : State} {no : ℕ} {read : Read}
    (hread : read ∈ s.iopenReads env no) : read.reader = .iopen := by
  rcases List.mem_cons.mp hread with rfl | hread
  · rfl
  · rw [List.mem_singleton.mp hread]

/-- On the way to the kernel nothing is read directly. -/
theorem reader_of_dopathReads {s : State} {cd : ℕ} {path : CString} {read : Read}
    (hread : read ∈ dopathReads env behind cd s path) : read.reader ≠ .direct := by
  obtain ⟨⟨rest, ino, t⟩, _, hread⟩ := List.mem_flatMap.mp hread
  rw [dopathStepReads] at hread
  split at hread
  · cases hread
  · dsimp only at hread
    split at hread
    · cases hread
    · rcases List.mem_append.mp hread with hread | hread
      · rw [reader_of_iopenReads hread]
        decide
      · obtain ⟨u, _, hread⟩ := List.mem_flatMap.mp hread
        rw [reader_of_ireadReads hread]
        decide

theorem directRead_failed {s : State} (heof : s.spos ≠ s.epos)
    (hfailed : (s.nextRead env .direct).failed = true) (todo m : ℕ) :
    ∃ t, directRead env s todo m = .inr (.error 6, t) := by
  have hdevice : (s.devRead env (s.bmap env)).2.1 = true := hfailed
  rw [directRead, if_neg heof]
  dsimp only
  rw [if_pos hdevice]
  exact ⟨_, rfl⟩

/-- The direct reads of a round are at most one, behind which it stops if it fails. -/
theorem segmentBody_of_failed {s : State} {todo : ℕ} {read : Read}
    (hread : read ∈ segmentReads env s todo) (hdirect : read.reader = .direct)
    (hfailed : read.failed = true) :
    ∃ t, segmentBody true env s todo = .inr (.error 6, t) := by
  rw [segmentReads] at hread
  rw [segmentBody_eq]
  split at hread
  · cases hread
  · next hkey =>
      rw [if_neg hkey]
      split at hread
      · next hpiece =>
          rw [if_pos hpiece]
          split at hread
          · cases hread
          · next heof =>
              rw [List.mem_singleton.mp hread] at hfailed
              have hpolled : s.polled.spos ≠ s.polled.epos := heof
              exact directRead_failed hpolled hfailed todo _
      · rw [reader_of_ireadReads hread] at hdirect
        cases hdirect

/-- A direct read that fails is the last one. -/
theorem loadStep_of_failed {state : State × Option ℕ} {read : Read}
    (hread : read ∈ loadStepReads env state) (hdirect : read.reader = .direct)
    (hfailed : read.failed = true) :
    ∃ t, loadStep env state = .inr (.inr (.error 6), t) := by
  obtain ⟨s, _ | todo⟩ := state
  · rw [reader_of_ireadReads hread] at hdirect
    cases hdirect
  · rw [loadStepReads] at hread
    split at hread
    · cases hread
    · next htodo =>
        obtain ⟨t, hbody⟩ := segmentBody_of_failed hread hdirect hfailed
        rw [loadStep]
        dsimp only
        rw [if_neg htodo, hbody]
        exact ⟨t, rfl⟩

theorem load_of_failed {s t : State} {no : ℕ} {loaded : Loaded} {read : Read}
    (hload : load env s no = some (loaded, t)) (hread : read ∈ loadReads env s no)
    (hdirect : read.reader = .direct) (hfailed : read.failed = true) :
    loaded = .inr (.error 6) := by
  rcases List.mem_append.mp hread with hread | hread
  · rw [reader_of_iopenReads hread] at hdirect
    cases hdirect
  · obtain ⟨state, hvisited, hread⟩ := List.mem_flatMap.mp hread
    obtain ⟨u, hstep⟩ := loadStep_of_failed hread hdirect hfailed
    rcases Machine.step_of_visited hload hvisited with ⟨next, hnext⟩ | hlast
    · rw [hstep] at hnext
      cases hnext
    · rw [hstep] at hlast
      cases hlast
      rfl

/-- `boot` notices a direct read that fails. -/
theorem boot_of_failed {s t : State} {cd : ℕ} {name : CString} {loaded : Loaded}
    {read : Read} (hboot : boot env behind cd s name = some (loaded, t))
    (hread : read ∈ bootReads env behind cd s name) (hdirect : read.reader = .direct)
    (hfailed : read.failed = true) : loaded = .inr (.error 6) := by
  rw [boot] at hboot
  rcases List.mem_append.mp hread with hread | hread
  · exact absurd hdirect (reader_of_dopathReads hread)
  · rcases hdopath : dopath env behind cd s name with _ | ⟨ino, u⟩
    · rw [hdopath] at hread
      cases hread
    · rw [hdopath] at hread hboot
      dsimp only at hread hboot
      split at hread
      · cases hread
      · next hsome =>
          rw [if_neg hsome] at hboot
          exact load_of_failed hboot hread hdirect hfailed

/-- If no read fails but direct ones, the kernel is not started behind a failed
read. -/
theorem careful_of_reads {cd : ℕ} {s : State} {name : CString}
    (hshort : ∀ part ∈ components name.val, part.length ≤ 30)
    (hreads : ∀ read ∈ bootReads env behind cd s name,
      read.reader ≠ .direct → read.failed = false) :
    Careful env behind cd s name := by
  obtain ⟨loaded, t, hboot⟩ := boot_stops env behind cd s hshort
  refine ⟨loaded, t, hboot, ?_⟩
  by_cases hfailed : ∃ read ∈ bootReads env behind cd s name, read.failed = true
  · obtain ⟨read, hread, hfailed⟩ := hfailed
    have hdirect : read.reader = .direct := by
      by_contra hother
      rw [hreads read hread hother] at hfailed
      cases hfailed
    exact .inl ⟨_, boot_of_failed hboot hread hdirect hfailed⟩
  · right
    intro read hread
    exact Bool.eq_false_iff.mpr fun htrue => hfailed ⟨read, hread, htrue⟩

/-- The device with the same blocks that reports no error. -/
def Env.deaf (env : Env) : Env :=
  { env with read := fun count blk => ((env.read count blk).1, false) }

theorem directRead_deaf {s : State}
    (hread : s.spos ≠ s.epos → (s.nextRead env .direct).failed = false) (todo m : ℕ) :
    directRead env.deaf s todo m = directRead env s todo m := by
  by_cases heof : s.spos = s.epos
  · rw [directRead, directRead, if_pos heof, if_pos heof]
  · have hdevice : (s.devRead env (s.bmap env)).2.1 = false := hread heof
    have hdeaf : (s.devRead env.deaf (s.bmap env.deaf)).2.1 = false := rfl
    rw [directRead, directRead, if_neg heof, if_neg heof]
    dsimp only
    rw [hdevice, hdeaf]
    rfl

theorem segmentBody_deaf {s : State} {todo : ℕ}
    (hreads : ∀ read ∈ segmentReads env s todo, read.reader = .direct → read.failed = false) :
    segmentBody true env.deaf s todo = segmentBody true env s todo := by
  have hkey : env.deaf.iscntldown = env.iscntldown := rfl
  rw [segmentReads] at hreads
  rw [segmentBody_eq, segmentBody_eq, hkey]
  split at hreads
  · next hpressed => rw [if_pos hpressed, if_pos hpressed]
  · next hpressed =>
      rw [if_neg hpressed, if_neg hpressed]
      split at hreads
      · next hpiece =>
          rw [if_pos hpiece, if_pos hpiece]
          apply directRead_deaf
          intro heof
          have hpolled : ¬ s.spos = s.epos := heof
          rw [if_neg hpolled] at hreads
          exact hreads _ (List.mem_singleton_self _) rfl
      · next hpiece =>
          rw [if_neg hpiece, if_neg hpiece]
          rfl

theorem loadStep_deaf {state : State × Option ℕ}
    (hreads : ∀ read ∈ loadStepReads env state, read.reader = .direct → read.failed = false) :
    loadStep env.deaf state = loadStep env state := by
  obtain ⟨s, _ | todo⟩ := state
  · rfl
  · rw [loadStepReads] at hreads
    rw [loadStep, loadStep]
    dsimp only
    split at hreads
    · next htodo => rw [if_pos htodo, if_pos htodo]
    · next htodo => rw [if_neg htodo, if_neg htodo, segmentBody_deaf hreads]

/-- The reads of `iopen` and `iread` may fail or not: it makes no difference. -/
theorem boot_deaf {cd : ℕ} {s : State} {name : CString}
    (hreads : ∀ read ∈ bootReads env behind cd s name,
      read.reader = .direct → read.failed = false) :
    boot env.deaf behind cd s name = boot env behind cd s name := by
  have hdopath : dopath env.deaf behind cd s name = dopath env behind cd s name := rfl
  rw [boot, boot, hdopath]
  rw [bootReads] at hreads
  rcases hfound : dopath env behind cd s name with _ | ⟨ino, u⟩
  · rfl
  · rw [hfound] at hreads
    dsimp only at hreads ⊢
    split
    · rfl
    · next hsome =>
        rw [if_neg hsome] at hreads
        apply Machine.run_congr
        intro state hvisited
        apply loadStep_deaf
        intro read hread
        apply hreads
        exact List.mem_append_right _ (List.mem_append_right _
          (List.mem_flatMap.mpr ⟨state, hvisited, hread⟩))

end

/-- A disk with a small kernel `k` in the root directory. -/
def kernelDisk (blk : ℕ) : Block :=
  if blk = 2 then
    padded (List.replicate 64 0 ++ blockInode 0x40 32 20 ++ blockInode 0x80 12 21)
      (by decide +kernel)
  else if blk = 20 then padded (direntBytes 2 [0x6b]) (by decide +kernel)
  else smallDisk 20

/-- `/k` -/
def kernelPath : CString := ⟨[0x2f, 0x6b], by decide⟩

/-- A kernel with a segment that goes on in a second block. -/
def longDisk (blk : ℕ) : Block :=
  if blk = 2 then
    padded (List.replicate 64 0 ++ blockInode 0x40 32 20 ++
      ([0x80, 0, 0, 0, 0, 0, 0, 0, 0, 0, 4, 0] ++ List.replicate 12 0 ++ [0, 21, 0, 22] ++
        List.replicate 36 0)) (by decide +kernel)
  else if blk = 20 then padded (direntBytes 2 [0x6b]) (by decide +kernel)
  else padded [0, 3, 0xfb, 1, 0] (by decide)

/-- This block cannot be read. -/
def worn : Env where
  read _ blk := (longDisk blk, blk == 22)
  iscntldown _ := false
  partOffset := 0
  past _ := 0

/-- It is the last one that is read, straight into memory. -/
theorem careful_of_reads_worn :
    (bootReads worn 0 root atStart kernelPath).getLast? = some ⟨.direct, true⟩ ∧
      Careful worn 0 root atStart kernelPath :=
  ⟨by decide +kernel, careful_of_reads (by decide) (by decide +kernel)⟩

/-- The kernel with other instructions. -/
def garbled : List UInt8 :=
  [0, 0, 2, 1, 0, 0, 0, 0xff, 0, 0, 1, 0]

/-- The read of the kernel itself, the sixth one, fails. -/
def faulty : Env where
  read count blk := if count = 5 then (padded garbled (by decide), true)
    else (kernelDisk blk, false)
  iscntldown _ := false
  partOffset := 0
  past _ := 0


/-- The start address comes from a block that was not read. -/
theorem not_careful_faulty :
    (bootReads faulty 0 root atStart kernelPath).getLast? = some ⟨.iread, true⟩ ∧
      (boot faulty 0 root atStart kernelPath).map Prod.fst = some (.inl small.final) ∧
      ¬ Careful faulty 0 root atStart kernelPath := by
  have hlast : (bootReads faulty 0 root atStart kernelPath).getLast? =
      some ⟨.iread, true⟩ := by decide +kernel
  have hboot : (boot faulty 0 root atStart kernelPath).map Prod.fst =
      some (.inl small.final) := by decide +kernel
  refine ⟨hlast, hboot, ?_⟩
  rintro ⟨loaded, t, hresult, hcareful⟩
  rw [hresult] at hboot
  obtain rfl : loaded = .inl small.final := Option.some.inj hboot
  rcases hcareful with ⟨stop, hstop⟩ | hall
  · cases hstop
  · exact Bool.noConfusion (hall _ (List.mem_of_getLast? hlast))

end Fip.Booter
