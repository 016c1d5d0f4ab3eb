import Fip.Booter.File
import Fip.Booter.Window

/-!
# Which kernels the booter loads

A kernel is a DECB binary: segments with a load address each, and a record that
is none and carries the start address.  The headers are read by one `iread`, and
`iread` does not read past the end of a block, so a kernel is loaded exactly if
none of its headers straddles two blocks.
-/

namespace Fip.Booter

/-- A segment of a binary. -/
structure Segment where
  addr : ℕ
  data : List UInt8
  addr_lt : addr < 65536
  length_lt : data.length < 65536

/-- The header of a record on disk. -/
def Binhdr.encode (h : Binhdr) : List UInt8 :=
  [h.flag, .ofNat (h.len / 256), .ofNat (h.len % 256),
    .ofNat (h.addr / 256), .ofNat (h.addr % 256)]

theorem Binhdr.length_encode (h : Binhdr) : h.encode.length = 5 := rfl

theorem Binhdr.decode_encode {h : Binhdr} (hlen : h.len < 65536)
    (haddr : h.addr < 65536) : Binhdr.decode h.encode = h := by
  have hword : ∀ w : ℕ, w < 65536 →
      (UInt8.ofNat (w / 256)).toNat * 256 + (UInt8.ofNat (w % 256)).toNat = w := by
    intro w hw
    rw [UInt8.toNat_ofNat', UInt8.toNat_ofNat']
    omega
  obtain ⟨flag, len, addr⟩ := h
  calc Binhdr.decode (Binhdr.encode ⟨flag, len, addr⟩)
      = ⟨flag, (UInt8.ofNat (len / 256)).toNat * 256 + (UInt8.ofNat (len % 256)).toNat,
          (UInt8.ofNat (addr / 256)).toNat * 256 + (UInt8.ofNat (addr % 256)).toNat⟩ := rfl
    _ = ⟨flag, len, addr⟩ := by rw [hword len hlen, hword addr haddr]

namespace Segment

def header (segment : Segment) : Binhdr :=
  ⟨pre, segment.data.length, segment.addr⟩

def bytes (segment : Segment) : List UInt8 :=
  segment.header.encode ++ segment.data

/-- The segment copied to its load address. -/
def copy (mem : ℕ → UInt8) (segment : Segment) : ℕ → UInt8 :=
  Memory.wrapWrite 65536 mem segment.addr segment.data

end Segment

/-- A DECB binary, whose last record is no segment. -/
structure Binary where
  segments : List Segment
  final : Binhdr
  flag_ne : final.flag ≠ pre
  len_lt : final.len < 65536
  addr_lt : final.addr < 65536

/-- Segments and the record behind them. -/
def records (segments : List Segment) (final : Binhdr) : List UInt8 :=
  segments.flatMap Segment.bytes ++ final.encode

/-- Where the headers of the records are, the first one at `pos`. -/
def headers (pos : ℕ) : List Segment → List ℕ
  | [] => [pos]
  | segment :: segments => pos :: headers (pos + 5 + segment.data.length) segments

/-- A header at this position lies in one block. -/
def InBlock (pos : ℕ) : Prop :=
  pos % 512 + 5 ≤ 512

namespace Binary

def bytes (binary : Binary) : List UInt8 :=
  records binary.segments binary.final

/-- The memory with each segment copied to its load address, in file order. -/
def image (binary : Binary) (mem : ℕ → UInt8) : ℕ → UInt8 :=
  binary.segments.foldl Segment.copy mem

/-- No header straddles two blocks. -/
def HeadersInBlocks (binary : Binary) : Prop :=
  ∀ pos ∈ headers 0 binary.segments, InBlock pos

end Binary

/-- The contents of the open file. -/
def fileBytes (env : Env) (content : ℕ → Block) (s : State) : List UInt8 :=
  (fileBlocks env content s 0 s.epos).take s.i.size

/-- The load loop ends without an error, with each segment in its place and the
address of the last record in `h`. -/
def Loads (env : Env) (s : State) (no : ℕ) (binary : Binary) : Prop :=
  ∃ h t, load env s no = some (.inl h, t) ∧ t.mem = binary.image s.mem ∧
    h.addr = binary.final.addr

section

variable {env : Env} {content : ℕ → Block} {s : State} {pos addr : ℕ}
  {rest : List UInt8}

/-- Bytes were moved from the file to the memory: the reader and the window are
behind them. -/
structure Moved (env : Env) (content : ℕ → Block) (mem : ℕ → UInt8) (t : State)
    (pos addr : ℕ) (rest : List UInt8) (count : ℕ) : Prop where
  file : t.At env content (pos + count) (rest.drop count)
  window : t.Window (addr + count)
  copied : t.mem = Memory.wrapWrite 65536 mem addr (rest.take count)

theorem State.At.of_reader {t : State} (hat : s.At env content pos rest)
    (hreader : t.reader = s.reader) : t.At env content pos rest := by
  cases s
  cases t
  simp only [State.reader, Prod.mk.injEq] at hreader
  obtain ⟨rfl, rfl, rfl, rfl, rfl, rfl, rfl⟩ := hreader
  exact ⟨hat.position, hat.left_le, hat.bpos, hat.spos_le, hat.epos_le, hat.rest⟩

theorem State.Window.of_memory {t : State} (hwindow : s.Window addr)
    (hmemory : t.memory = s.memory) : t.Window addr := by
  cases s
  cases t
  simp only [State.memory, Prod.mk.injEq] at hmemory
  obtain ⟨rfl, rfl, rfl, rfl, rfl⟩ := hmemory
  exact ⟨hwindow.next, hwindow.size, hwindow.finish, hwindow.page, hwindow.mapped⟩

theorem bufferedRead_moved (hreliable : Reliable env content)
    (hat : s.At env content pos rest) (hwindow : s.Window addr) (hrest : rest ≠ [])
    {todo : ℕ} (htodo : todo ≠ 0) :
    ∃ t k, bufferedRead env s todo = .inl (t, todo - k) ∧ k ≠ 0 ∧ k ≤ todo ∧
      Moved env content s.mem t pos addr rest k := by
  generalize hk : min todo (512 - pos % 512) = k
  have hkpos : k ≠ 0 := by omega
  have hkle : k ≤ todo := by omega
  have hktop : k ≠ 65535 := by omega
  obtain ⟨t, hiread, htat, htmemory, hkrest⟩ := hat.iread hreliable hrest htodo hk
  have hmem : t.mem = s.mem := congrArg Prod.fst htmemory
  have hlength : (rest.take k).length = k := List.length_take_of_le hkrest
  have hwritten := State.mwrite_written (hwindow.of_memory htmemory) (rest.take k)
  refine ⟨t.mwrite (rest.take k), k, ?_, hkpos, hkle, ?_, ?_, ?_⟩
  · rw [bufferedRead, hiread]
    dsimp only
    rw [if_neg hkpos, if_neg hktop]
  · exact htat.of_reader hwritten.reader
  · have hnext := hwritten.window
    rw [hlength] at hnext
    exact hnext
  · rw [hwritten.mem, hmem]

theorem directRead_moved (hreliable : Reliable env content)
    (hat : s.At env content pos rest) (hwindow : s.Window addr) (hleft : s.left = 0)
    (hmleft : 512 ≤ s.mleft) (hrest : rest ≠ []) (todo : ℕ) :
    ∃ t, directRead env s todo 512 = .inl (t, todo - 512) ∧
      Moved env content s.mem t pos addr rest 512 := by
  obtain ⟨hspos, hnext⟩ := hat.next hleft hrest
  have hlength := (nextBlock env content s).property
  have hfits : (nextBlock env content s).val.length ≤ s.mleft := by
    rw [hlength]
    exact hmleft
  have hwrap : (s.spos + 1) % 65536 = s.spos + 1 := by
    have hepos := hat.epos_le
    omega
  have htake : rest.take 512 = (nextBlock env content s).val := by
    rw [hnext, List.take_left' hlength]
  have hdrop : rest.drop 512 =
      fileBlocks env content s (s.spos + 1) (s.epos - (s.spos + 1)) := by
    rw [hnext, List.drop_left' hlength]
  let t : State := { s with spos := s.spos + 1, reads := s.reads + 1 }
  have htat : t.At env content (pos + 512) (rest.drop 512) := by
    refine ⟨?_, hat.left_le, hat.bpos, hspos, hat.epos_le, ?_⟩
    · have hposition := hat.position
      change pos + 512 + s.left = 512 * (s.spos + 1)
      omega
    · have hunread : s.unread = [] := by rw [State.unread, hleft, List.take_zero]
      change rest.drop 512 = s.unread ++ _
      rw [hunread, hdrop]
      rfl
  have htwindow : t.Window addr := hwindow.of_memory rfl
  have hwritten := htwindow.written hfits
  rw [hlength] at hwritten
  have hwindow' := hwritten.window
  rw [hlength] at hwindow'
  refine ⟨t.put (nextBlock env content s).val 512, ?_, htat.of_reader hwritten.reader,
    hwindow', ?_⟩
  · have heof : s.spos ≠ s.epos := Nat.ne_of_lt hspos
    rw [directRead, if_neg heof, State.devRead_reliable hreliable]
    dsimp only
    rw [if_neg Bool.false_ne_true, State.put, hwrap]
    rfl
  · rw [hwritten.mem, htake]

/-- A round of the loop over a segment moves a byte at least. -/
theorem segmentBody_moved (hreliable : Reliable env content)
    (hkey : ∀ poll, env.iscntldown poll = false) (hat : s.At env content pos rest)
    (hwindow : s.Window addr) (hrest : rest ≠ []) {todo : ℕ} (htodo : todo ≠ 0) :
    ∃ t k, segmentBody true env s todo = .inl (t, todo - k) ∧ k ≠ 0 ∧ k ≤ todo ∧
      Moved env content s.mem t pos addr rest k := by
  let polled : State := { s with polls := s.polls + 1 }
  have hpolledAt : polled.At env content pos rest := hat.of_reader rfl
  have hpolledWindow : polled.Window addr := hwindow.of_memory rfl
  have hbody : segmentBody true env s todo =
      if true ∧ piece polled todo = 512 ∧ polled.left = 0 then
        directRead env polled todo (piece polled todo)
      else bufferedRead env polled todo := by
    rw [segmentBody]
    dsimp only
    rw [hkey, if_neg Bool.false_ne_true]
  rw [hbody]
  split
  · next hdirect =>
      obtain ⟨_, hm, hleft⟩ := hdirect
      obtain ⟨hle, hmleft⟩ := piece_eq_iff.mp hm
      obtain ⟨t, ht, hmoved⟩ :=
        directRead_moved hreliable hpolledAt hpolledWindow hleft hmleft hrest todo
      rw [hm]
      exact ⟨t, 512, ht, by decide, hle, hmoved⟩
  · exact bufferedRead_moved hreliable hpolledAt hpolledWindow hrest htodo

theorem records_cons (segment : Segment) (segments : List Segment) (final : Binhdr) :
    records (segment :: segments) final =
      segment.header.encode ++ (segment.data ++ records segments final) := by
  rw [records, List.flatMap_cons, Segment.bytes, records, List.append_assoc,
    List.append_assoc]

theorem records_ne_nil (segments : List Segment) (final : Binhdr) (more : List UInt8) :
    records segments final ++ more ≠ [] := by
  cases segments with
  | nil => exact nofun
  | cons segment segments =>
      rw [records_cons]
      exact nofun

variable (env content) in
/-- The invariant of the load loop: what is left of the file is what is left of
the binary, copying it gives the memory that is wanted, and the headers so far
were each in one block. -/
def Loading (binary : Binary) (mem : ℕ → UInt8) : State × Option ℕ → Prop
  | (s, none) => ∃ segments pos more,
      s.At env content pos (records segments binary.final ++ more) ∧
      segments.foldl Segment.copy s.mem = mem ∧
      (binary.HeadersInBlocks ↔ ∀ start ∈ headers pos segments, InBlock start)
  | (s, some todo) => ∃ data segments pos addr more,
      data.length = todo ∧
      s.At env content pos (data ++ (records segments binary.final ++ more)) ∧
      s.Window addr ∧
      segments.foldl Segment.copy (Memory.wrapWrite 65536 s.mem addr data) = mem ∧
      (binary.HeadersInBlocks ↔
        ∀ start ∈ headers (pos + data.length) segments, InBlock start)

/-- How the load loop ends. -/
def Outcome (binary : Binary) (mem : ℕ → UInt8) (result : Loaded × State) : Prop :=
  (binary.HeadersInBlocks ∧ result.1 = .inl binary.final ∧ result.2.mem = mem) ∨
    (¬ binary.HeadersInBlocks ∧ result.1 = .inr (.error 3))

/-- Bytes are read at least every other time round. -/
def loadMeasure (s : State × Option ℕ) : ℕ :=
  2 * s.1.remaining + if s.2.isSome then 1 else 0

variable {binary : Binary} {mem : ℕ → UInt8}

/-- A round of the load loop at a header. -/
theorem loadStep_header (hreliable : Reliable env content)
    (hloading : Loading env content binary mem (s, none)) :
    Machine.Advances (Loading env content binary mem) (Outcome binary mem) loadMeasure
      (loadMeasure (s, none)) (loadStep env (s, none)) := by
  obtain ⟨segments, pos, more, hat, hmem, hheaders⟩ := hloading
  have hrest := records_ne_nil segments binary.final more
  generalize hk : min 5 (512 - pos % 512) = k
  obtain ⟨t, hiread, htat, htmemory, hkrest⟩ := hat.iread hreliable hrest (by decide) hk
  have htmem : t.mem = s.mem := congrArg Prod.fst htmemory
  by_cases hin : InBlock pos
  · have hk5 : k = 5 := by
      rw [InBlock] at hin
      omega
    subst hk5
    have hlt : t.remaining + 5 = s.remaining := by
      rw [← htat.length_rest, ← hat.length_rest, List.length_drop]
      omega
    cases segments with
    | nil =>
        have hbytes : (records [] binary.final ++ more).take 5 = binary.final.encode := rfl
        have hgood : binary.HeadersInBlocks := by
          rw [hheaders]
          intro start hstart
          rw [List.mem_singleton.mp hstart]
          exact hin
        have hstep : loadStep env (s, none) = .inr (.inl binary.final, t) := by
          rw [loadStep, hiread, hbytes]
          dsimp only
          rw [if_neg (not_not_intro rfl),
            Binhdr.decode_encode binary.len_lt binary.addr_lt, if_pos binary.flag_ne]
        rw [hstep]
        exact .inl ⟨hgood, rfl, htmem.trans hmem⟩
    | cons segment segments =>
        have hbytes : (records (segment :: segments) binary.final ++ more).take 5 =
            segment.header.encode := by
          rw [records_cons]
          rfl
        have hdrop : (records (segment :: segments) binary.final ++ more).drop 5 =
            segment.data ++ (records segments binary.final ++ more) := by
          rw [records_cons, List.append_assoc, List.append_assoc]
          rfl
        have hflag : segment.header.flag = pre := rfl
        have hstep : loadStep env (s, none) =
            .inl (t.mseek segment.addr, some segment.data.length) := by
          rw [loadStep, hiread, hbytes]
          dsimp only
          rw [if_neg (not_not_intro rfl),
            Binhdr.decode_encode segment.length_lt segment.addr_lt,
            if_neg (not_not_intro hflag)]
          rfl
        rw [hdrop] at htat
        rw [hstep]
        refine ⟨⟨segment.data, segments, pos + 5, segment.addr, more, rfl,
          htat.of_reader rfl, t.window_mseek segment.addr_lt, ?_, ?_⟩, ?_⟩
        · change segments.foldl Segment.copy (segment.copy t.mem) = mem
          rw [htmem]
          exact hmem
        · rw [hheaders, headers, List.forall_mem_cons]
          exact and_iff_right hin
        · change 2 * t.remaining + 1 < 2 * s.remaining + 0
          omega
  · have hk5 : k ≠ 5 := by
      rw [InBlock] at hin
      omega
    have hmem_headers : pos ∈ headers pos segments := by
      cases segments with
      | nil => exact List.mem_singleton_self pos
      | cons segment segments => exact List.mem_cons_self
    have hbad : ¬ binary.HeadersInBlocks := by
      rw [hheaders]
      exact fun hall => hin (hall pos hmem_headers)
    have hstep : loadStep env (s, none) = .inr (.inr (.error 3), t) := by
      rw [loadStep, hiread]
      dsimp only
      rw [if_pos hk5]
    rw [hstep]
    exact .inr ⟨hbad, rfl⟩

/-- A round of the load loop in a segment. -/
theorem loadStep_segment (hreliable : Reliable env content)
    (hkey : ∀ poll, env.iscntldown poll = false) {todo : ℕ}
    (hloading : Loading env content binary mem (s, some todo)) :
    Machine.Advances (Loading env content binary mem) (Outcome binary mem) loadMeasure
      (loadMeasure (s, some todo)) (loadStep env (s, some todo)) := by
  obtain ⟨data, segments, pos, addr, more, rfl, hat, hwindow, hmem, hheaders⟩ := hloading
  by_cases hnil : data = []
  · subst hnil
    exact ⟨⟨segments, pos, more, hat, hmem, hheaders⟩, Nat.lt_succ_self _⟩
  · have hdata : data.length ≠ 0 := fun h => hnil (List.length_eq_zero_iff.mp h)
    have hrest : data ++ (records segments binary.final ++ more) ≠ [] :=
      List.append_ne_nil_of_left_ne_nil hnil _
    obtain ⟨t, k, hbody, hkpos, hkle, hmoved⟩ :=
      segmentBody_moved hreliable hkey hat hwindow hrest hdata
    have hstep : loadStep env (s, some data.length) =
        .inl (t, some (data.length - k)) := by
      rw [loadStep]
      dsimp only
      rw [if_neg hdata, hbody]
      rfl
    have hfile := hmoved.file
    rw [List.drop_append_of_le_length hkle] at hfile
    have hcopied := hmoved.copied
    rw [List.take_append_of_le_length hkle] at hcopied
    have hlength : (data.take k).length = k := List.length_take_of_le hkle
    rw [hstep]
    refine ⟨⟨data.drop k, segments, pos + k, addr + k, more, List.length_drop, hfile,
      hmoved.window, ?_, ?_⟩, ?_⟩
    · have hboth := Memory.wrapWrite_append 65536 s.mem addr (data.take k) (data.drop k)
      rw [List.take_append_drop, hlength] at hboth
      rw [hcopied, ← hboth]
      exact hmem
    · rw [hheaders, List.length_drop, Nat.add_assoc, Nat.add_sub_cancel' hkle]
    · have hlt : t.remaining + k = s.remaining := by
        rw [← hmoved.file.length_rest, ← hat.length_rest, List.length_drop,
          List.length_append]
        omega
      change 2 * t.remaining + 1 < 2 * s.remaining + 1
      omega

/-- The binary lies ahead in the file that was opened. -/
theorem binary_ahead {no : ℕ} (hsize : (s.iopen env no).i.size ≤ 274 * 512)
    (hholds : binary.bytes <+: fileBytes env content (s.iopen env no)) :
    ∃ more, (s.iopen env no).At env content 0 (binary.bytes ++ more) := by
  obtain ⟨more, hmore⟩ := hholds.trans (List.take_prefix _ _)
  exact ⟨more, hmore ▸ State.at_iopen hsize⟩

theorem load_outcome (hreliable : Reliable env content)
    (hkey : ∀ poll, env.iscntldown poll = false) {no : ℕ}
    (hsize : (s.iopen env no).i.size ≤ 274 * 512)
    (hholds : binary.bytes <+: fileBytes env content (s.iopen env no)) :
    ∃ result, load env s no = some result ∧
      Outcome binary (binary.image s.mem) result := by
  obtain ⟨more, hat⟩ := binary_ahead hsize hholds
  have hloading : Loading env content binary (binary.image s.mem) (s.iopen env no, none) :=
    ⟨binary.segments, 0, more, hat, rfl, Iff.rfl⟩
  have hfuel : loadMeasure (s.iopen env no, none) < 1024 * (s.iopen env no).epos + 1 := by
    change 2 * (0 + 512 * ((s.iopen env no).epos - 0)) + 0 < _
    omega
  have hstep : ∀ state, Loading env content binary (binary.image s.mem) state →
      Machine.Advances (Loading env content binary (binary.image s.mem))
        (Outcome binary (binary.image s.mem)) loadMeasure (loadMeasure state)
        (loadStep env state) := by
    rintro ⟨s, _ | todo⟩ hloading
    · exact loadStep_header hreliable hloading
    · exact loadStep_segment hreliable hkey hloading
  exact Machine.run_total hstep hloading hfuel

theorem Outcome.decides {no : ℕ} {result : Loaded × State}
    (hload : load env s no = some result)
    (houtcome : Outcome binary (binary.image s.mem) result) :
    Loads env s no binary ↔ binary.HeadersInBlocks := by
  rcases houtcome with ⟨hgood, hfinal, hmem⟩ | ⟨hbad, herror⟩
  · refine iff_of_true ⟨binary.final, result.2, ?_, hmem, rfl⟩ hgood
    rw [hload, ← hfinal]
  · refine iff_of_false ?_ hbad
    rintro ⟨h, t, hloads, _, _⟩
    rw [hload] at hloads
    cases hloads
    cases herror

/-- The booter loads a kernel exactly if none of the headers straddles two
blocks. -/
theorem loads_iff (hreliable : Reliable env content)
    (hkey : ∀ poll, env.iscntldown poll = false) {no : ℕ}
    (hsize : (s.iopen env no).i.size ≤ 274 * 512)
    (hholds : binary.bytes <+: fileBytes env content (s.iopen env no)) :
    Loads env s no binary ↔ binary.HeadersInBlocks := by
  obtain ⟨result, hload, houtcome⟩ := load_outcome hreliable hkey hsize hholds
  exact houtcome.decides hload

end

/-- A block that starts with these bytes. -/
def padded (bytes : List UInt8) (hle : bytes.length ≤ 512) : Block :=
  ⟨bytes ++ List.replicate (512 - bytes.length) 0, by
    rw [List.length_append, List.length_replicate, Nat.add_sub_cancel' hle]⟩

/-- A disk with one inode, number 8, of a file of at most two blocks. -/
def disk (size : ℕ) (first second : Block) (blk : ℕ) : Block :=
  if blk = 20 then first
  else if blk = 21 then second
  else padded (List.replicate 8 0 ++ [0, 0, .ofNat (size / 256), .ofNat (size % 256)] ++
    List.replicate 12 0 ++ [0, 20, 0, 21]) (Nat.le_of_ble_eq_true rfl)

/-- The disk is read without an error and no key is pressed. -/
def quiet (content : ℕ → Block) : Env where
  read _ blk := (content blk, false)
  iscntldown _ := false
  partOffset := 0
  past _ := 0

/-- Two bytes to 0x100, and a start at 0x100. -/
def small : Binary where
  segments := [⟨0x100, [0x12, 0x39], by decide, by decide⟩]
  final := ⟨0xff, 0, 0x100⟩
  flag_ne := by decide
  len_lt := by decide
  addr_lt := by decide

def smallDisk : ℕ → Block :=
  disk 12 (padded small.bytes (by decide)) (padded [] (by decide))

theorem quiet_reliable (content : ℕ → Block) : Reliable (quiet content) content :=
  fun _ _ => rfl

theorem loads_iff_small :
    Loads (quiet smallDisk) atStart 8 small ↔ small.HeadersInBlocks :=
  loads_iff (quiet_reliable smallDisk) (fun _ => rfl) (by decide +kernel)
    (by decide +kernel)

/-- A segment that ends four bytes before the end of the first block. -/
def straddling : Binary where
  segments := [⟨0x100, List.replicate 503 0x12, by decide,
    by rw [List.length_replicate]; decide⟩]
  final := ⟨0xff, 0, 0x100⟩
  flag_ne := by decide
  len_lt := by decide
  addr_lt := by decide

def straddlingDisk : ℕ → Block :=
  disk 513 (padded (straddling.bytes.take 512) (List.length_take_le 512 _))
    (padded [0] (by decide))

/-- The last header is cut by the end of the block. -/
theorem not_loads_straddling :
    Reliable (quiet straddlingDisk) straddlingDisk ∧
      (∀ poll, (quiet straddlingDisk).iscntldown poll = false) ∧
      (atStart.iopen (quiet straddlingDisk) 8).i.size ≤ 274 * 512 ∧
      straddling.bytes <+: fileBytes (quiet straddlingDisk) straddlingDisk
        (atStart.iopen (quiet straddlingDisk) 8) ∧
      ¬ Loads (quiet straddlingDisk) atStart 8 straddling := by
  have hreliable := quiet_reliable straddlingDisk
  have hkey : ∀ poll, (quiet straddlingDisk).iscntldown poll = false := fun _ => rfl
  have hsize : (atStart.iopen (quiet straddlingDisk) 8).i.size ≤ 274 * 512 := by
    decide +kernel
  have hholds : straddling.bytes <+: fileBytes (quiet straddlingDisk) straddlingDisk
      (atStart.iopen (quiet straddlingDisk) 8) := by
    decide +kernel
  have hbad : ¬ straddling.HeadersInBlocks := by
    intro hgood
    have hlast : InBlock 508 := by
      apply hgood
      rw [straddling, headers, headers, List.length_replicate]
      decide
    exact absurd hlast (by rw [InBlock]; decide)
  obtain ⟨result, hload, houtcome⟩ := load_outcome hreliable hkey hsize hholds
  exact ⟨hreliable, hkey, hsize, hholds, fun hloads =>
    hbad ((houtcome.decides hload).mp hloads)⟩

end Fip.Booter
