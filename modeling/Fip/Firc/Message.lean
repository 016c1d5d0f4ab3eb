import Fip.Firc.Layout

/-!
# Messages

Names, questions and answers as sequences of bytes.  Where the buffer holds them, the
cursor of the parser goes over them and ends behind them.
-/

namespace Fip.Firc.Resolver

/-- The bytes of a name: labels, then a zero byte or a pointer. -/
inductive WireName : List UInt8 → Prop
  | root : WireName [0]
  | pointer {high low : UInt8} (hhigh : high &&& 0xc0 = 0xc0) : WireName [high, low]
  | label {len : UInt8} {label rest : List UInt8} (hlen : label.length = len.toNat)
      (hpos : 0 < label.length) (hshort : label.length ≤ 63) (hrest : WireName rest) :
      WireName (len :: (label ++ rest))

/-- A number of two bytes. -/
def bytes16 (n : ℕ) : List UInt8 := [UInt8.ofNat (n / 256), UInt8.ofNat n]

/-- A name with its type and class. -/
structure Question where
  name : List UInt8
  tail : List UInt8

/-- A record with its class and time to live in one. -/
structure Record where
  name : List UInt8
  type : ℕ
  tail : List UInt8
  data : List UInt8

/-- The parts of a message; the counts of the other sections are in `tail`, and `rest`
are their records. -/
structure Message where
  id : ℕ
  cntl : UInt8
  ret : UInt8
  questions : List Question
  answers : List Record
  tail : List UInt8
  rest : List UInt8

def Question.bytes (q : Question) : List UInt8 := q.name ++ q.tail

def Record.bytes (r : Record) : List UInt8 :=
  r.name ++ (bytes16 r.type ++ (r.tail ++ (bytes16 r.data.length ++ r.data)))

def Message.header (m : Message) : List UInt8 :=
  bytes16 m.id ++ ([m.cntl, m.ret] ++ (bytes16 m.questions.length ++
    (bytes16 m.answers.length ++ m.tail)))

def Message.bytes (m : Message) : List UInt8 :=
  m.header ++ (m.questions.flatMap Question.bytes ++ (m.answers.flatMap Record.bytes ++ m.rest))

structure Question.WellFormed (q : Question) : Prop where
  name : WireName q.name
  tail : q.tail.length = 4

/-- The data of an address are four bytes. -/
structure Record.WellFormed (r : Record) : Prop where
  name : WireName r.name
  type : r.type < 65536
  tail : r.tail.length = 6
  data : r.data.length < 65536
  address : r.type = 1 → r.data.length = 4

/-- A response, with no more questions than are skipped. -/
structure Message.WellFormed (m : Message) : Prop where
  id : m.id < 65536
  response : m.cntl &&& 0x80 ≠ 0
  tail : m.tail.length = 4
  few : m.questions.length ≤ 4
  many : m.answers.length < 65536
  question : ∀ q ∈ m.questions, q.WellFormed
  answer : ∀ r ∈ m.answers, r.WellFormed

/-- The addresses among these answers. -/
def addressesOf (answers : List Record) : List (List UInt8) :=
  (answers.filter fun r => r.type = 1).map Record.data

theorem addressesOf_cons (r : Record) (answers : List Record) :
    addressesOf (r :: answers) =
      if r.type = 1 then r.data :: addressesOf answers else addressesOf answers := by
  by_cases haddress : r.type = 1
  · simp [addressesOf, haddress]
  · simp [addressesOf, haddress]

theorem addressesOf_ne_nil_iff (answers : List Record) :
    addressesOf answers ≠ [] ↔ ∃ r ∈ answers, r.type = 1 := by
  simp [addressesOf]

/-- The buffer has these bytes at an offset. -/
def Holds (buf : Buf) : ℤ → List UInt8 → Prop
  | _, [] => True
  | ptr, byte :: bytes => load buf ptr = some byte ∧ Holds buf (ptr + 1) bytes

variable {buf : Buf} {ptr : ℤ} {front bytes : List UInt8} (signed : Bool)

theorem holds_append :
    Holds buf ptr (front ++ bytes) ↔
      Holds buf ptr front ∧ Holds buf (ptr + front.length) bytes := by
  induction front generalizing ptr with
  | nil => simp [Holds]
  | cons first front ih =>
      have hoffset : ptr + 1 + (front.length : ℤ) = ptr + ((front.length + 1 : ℕ) : ℤ) := by
        omega
      rw [List.cons_append, Holds, ih, Holds, List.length_cons, and_assoc, hoffset]

/-- A number is loaded as it was written. -/
theorem load16_of_holds {n : ℕ} (hn : n < 65536) (hholds : Holds buf ptr (bytes16 n)) :
    load16 buf ptr = some n := by
  obtain ⟨hhigh, hlow, -⟩ := hholds
  have hsum : (UInt8.ofNat (n / 256)).toNat * 256 + (UInt8.ofNat n).toNat = n := by
    rw [UInt8.toNat_ofNat', UInt8.toNat_ofNat']
    omega
  calc load16 buf ptr
      = some ((UInt8.ofNat (n / 256)).toNat * 256 + (UInt8.ofNat n).toNat) := by
        rw [load16, hhigh, hlow]
        rfl
    _ = some n := by rw [hsum]

/-- A length byte is not a pointer and is taken for what it is. -/
theorem plainChar_of_short {len : UInt8} (hshort : len.toNat ≤ 63) :
    len &&& 0xc0 ≠ 0xc0 ∧ plainChar signed len = len.toNat := by
  constructor
  · intro hpointer
    have hle : (len &&& 0xc0).toNat ≤ len.toNat := by
      rw [UInt8.toNat_and]
      exact Nat.and_le_left
    rw [hpointer] at hle
    exact absurd (Nat.le_trans hle hshort) (by decide)
  · rw [plainChar]
    split
    · exact BitVec.toInt_eq_toNat_of_lt (show 2 * len.toNat < 2 ^ 8 by omega)
    · rfl

/-- The parser goes over a name. -/
theorem name_of_holds (hname : WireName bytes) (hholds : Holds buf ptr bytes) :
    Name signed buf ptr (ptr + bytes.length) := by
  induction hname generalizing ptr with
  | root => exact .root hholds.1
  | pointer hhigh =>
      refine .pointer hholds.1 ?_ hhigh
      rintro rfl
      exact absurd hhigh (by decide)
  | @label len label rest hlen hpos hshort _ ih =>
      obtain ⟨hbyte, hrest⟩ := hholds
      rw [holds_append] at hrest
      obtain ⟨hlabel, hchar⟩ := plainChar_of_short signed (hlen ▸ hshort)
      refine .label hbyte ?_ hlabel ?_
      · rintro rfl
        rw [hlen] at hpos
        exact absurd hpos (by decide)
      · have hname := ih hrest.2
        have hnext : ptr + ((len.toNat : ℤ) + 1) = ptr + 1 + label.length := by omega
        have hend : ptr + ((len :: (label ++ rest)).length : ℤ) =
            ptr + 1 + label.length + rest.length := by
          rw [List.length_cons, List.length_append]
          omega
        rw [hchar, hnext, hend]
        exact hname

theorem questions_of_holds {questions : List Question}
    (hquestions : ∀ q ∈ questions, q.WellFormed)
    (hholds : Holds buf ptr (questions.flatMap Question.bytes)) :
    Questions signed buf questions.length ptr
      (ptr + (questions.flatMap Question.bytes).length) := by
  induction questions generalizing ptr with
  | nil =>
      have hend : ptr + (([] : List Question).flatMap Question.bytes).length = ptr :=
        Int.add_zero ptr
      rw [hend]
      exact .nil ptr
  | cons q questions ih =>
      rw [List.flatMap_cons, Question.bytes, List.append_assoc, holds_append, holds_append]
        at hholds
      obtain ⟨hname, -, hrest⟩ := hholds
      have hq := hquestions q List.mem_cons_self
      rw [hq.tail] at hrest
      refine .cons (name_of_holds signed hq.name hname) ?_
      have hend : ptr + (((q :: questions).flatMap Question.bytes).length : ℤ) =
          ptr + q.name.length + 4 + (questions.flatMap Question.bytes).length := by
        rw [List.flatMap_cons, Question.bytes, List.length_append, List.length_append, hq.tail]
        omega
      rw [hend]
      exact ih (fun q' hq' => hquestions q' (List.mem_cons_of_mem q hq')) hrest

/-- The bytes at an offset depend on the loads there alone. -/
theorem holds_congr {buf' : Buf}
    (hsame : ∀ offset, ptr ≤ offset → offset < ptr + bytes.length →
      load buf' offset = load buf offset)
    (hholds : Holds buf ptr bytes) : Holds buf' ptr bytes := by
  induction bytes generalizing ptr with
  | nil => exact trivial
  | cons byte bytes ih =>
      obtain ⟨hbyte, hrest⟩ := hholds
      rw [List.length_cons] at hsame
      refine ⟨(hsame ptr (Int.le_refl ptr) (by omega)).trans hbyte, ih ?_ hrest⟩
      intro offset hfrom hto
      exact hsame offset (by omega) (by omega)

theorem load_of_holds (hholds : Holds buf ptr bytes) {i : ℕ} (hi : i < bytes.length) :
    load buf (ptr + i) = some bytes[i] := by
  induction bytes generalizing ptr i with
  | nil => cases hi
  | cons byte bytes ih =>
      obtain ⟨hbyte, hrest⟩ := hholds
      cases i with
      | zero =>
          have hoffset : ptr + ((0 : ℕ) : ℤ) = ptr := Int.add_zero ptr
          rw [hoffset]
          exact hbyte
      | succ i =>
          have hoffset : ptr + ((i + 1 : ℕ) : ℤ) = ptr + 1 + i := by omega
          rw [hoffset]
          exact ih hrest (Nat.lt_of_succ_lt_succ hi)

theorem load_fin (i : Fin 512) : load buf (i.val : ℤ) = some (buf i) :=
  load_eq_some.mpr ⟨⟨Int.natCast_nonneg _, by omega⟩, rfl⟩

/-! ## Packets -/

/-- The bytes of the buffer in front of an offset. -/
def packet (buf : Buf) (length : ℕ) : List UInt8 := (List.ofFn buf).take length

/-- `read`: a packet covers the front of the buffer. -/
def receive (buf : Buf) (bytes : List UInt8) : Buf := fun offset => bytes.getD offset (buf offset)

theorem packet_of_holds (hshort : bytes.length ≤ 512) (hholds : Holds buf 0 bytes) :
    packet buf bytes.length = bytes := by
  apply List.ext_getElem
  · rw [packet, List.length_take, List.length_ofFn, Nat.min_eq_left hshort]
  · intro i _ hi
    have hload := load_of_holds hholds hi
    rw [Int.zero_add, load_fin ⟨i, Nat.lt_of_lt_of_le hi hshort⟩] at hload
    simp only [packet, List.getElem_take, List.getElem_ofFn]
    exact Option.some.inj hload

theorem load_receive {offset : ℕ} (hoffset : offset < bytes.length) (hshort : bytes.length ≤ 512) :
    load (receive buf bytes) (offset : ℤ) = some bytes[offset] := by
  rw [load_fin ⟨offset, Nat.lt_of_lt_of_le hoffset hshort⟩, receive,
    List.getD_eq_getElem?_getD, List.getElem?_eq_getElem hoffset, Option.getD_some]

theorem holds_of_loads (hloads : ∀ i (hi : i < bytes.length), load buf (ptr + i) = some bytes[i]) :
    Holds buf ptr bytes := by
  induction bytes generalizing ptr with
  | nil => exact trivial
  | cons byte bytes ih =>
      constructor
      · have hfirst := hloads 0 (Nat.succ_pos _)
        have hoffset : ptr + ((0 : ℕ) : ℤ) = ptr := Int.add_zero ptr
        rwa [hoffset] at hfirst
      · apply ih
        intro i hi
        have hoffset : ptr + 1 + (i : ℤ) = ptr + ((i + 1 : ℕ) : ℤ) := by omega
        rw [hoffset]
        exact hloads (i + 1) (Nat.succ_lt_succ hi)

/-- What was received is in the buffer. -/
theorem holds_receive (hshort : bytes.length ≤ 512) : Holds (receive buf bytes) 0 bytes := by
  apply holds_of_loads
  intro i hi
  rw [Int.zero_add]
  exact load_receive hi hshort

end Fip.Firc.Resolver
