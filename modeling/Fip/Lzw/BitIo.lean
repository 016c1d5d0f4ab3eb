import Fip.Core.Bits

/-!
# Buffered byte and bit input and output of compress and uncompress

Both programs read their input through a buffer that `read` fills with at most
`BUFZ` bytes, and cut it into bits or gather bits into bytes.  However the
reads are cut, `inbyte` delivers the bytes of the file in order, and `getbit`
and `putbit` work on its bits.
-/

namespace Fip.Lzw

/-- `BUFZ` -/
def bufz : ℕ := 512

/-- What one read of the input file delivers before its end. -/
structure Chunk where
  bytes : List UInt8
  nonempty : bytes ≠ []
  fits : bytes.length ≤ bufz

/-- The bytes that successive reads deliver. -/
def joined (reads : List Chunk) : List UInt8 :=
  reads.flatMap Chunk.bytes

@[simp]
theorem joined_singleton (chunk : Chunk) : joined [chunk] = chunk.bytes :=
  List.append_nil _

/-- What one read of each byte delivers. -/
def bytewise (stream : List UInt8) : List Chunk :=
  stream.map fun byte => ⟨[byte], List.cons_ne_nil _ _, (by decide : 1 ≤ bufz)⟩

theorem joined_bytewise (stream : List UInt8) : joined (bytewise stream) = stream := by
  induction stream with
  | nil => rfl
  | cons byte stream ih => exact congrArg (byte :: ·) ih

/-- The input buffer, and the reads still to come.  The bytes of `ibuf` between
`ipos` and `isize` are not consumed yet; `isize` is zero when none is left. -/
structure Source where
  ibuf : List UInt8
  ipos : ℕ
  isize : ℕ
  reads : List Chunk
  inside : isize = 0 ∨ ipos < isize ∧ isize ≤ ibuf.length

namespace Source

/-- `ipos = 0; isize = 0` -/
def start (ibuf : List UInt8) (reads : List Chunk) : Source where
  ibuf := ibuf
  ipos := 0
  isize := 0
  reads := reads
  inside := .inl rfl

/-- The bytes not delivered yet. -/
def pending (source : Source) : List UInt8 :=
  (source.ibuf.take source.isize).drop source.ipos ++ joined source.reads

/-- `c = ibuf[ipos++]; if (ipos == isize) isize = 0; return c` -/
def take (source : Source)
    (hinside : source.ipos < source.isize ∧ source.isize ≤ source.ibuf.length) :
    UInt8 × Source :=
  (source.ibuf[source.ipos],
    if hlast : source.ipos + 1 = source.isize then
      { source with ipos := source.ipos + 1, isize := 0, inside := .inl rfl }
    else
      { source with
        ipos := source.ipos + 1
        inside := .inr ⟨by omega, hinside.2⟩ })

/-- The next byte, `none` for the end of the file. -/
def inbyte (source : Source) : Option UInt8 × Source :=
  if hempty : source.isize = 0 then
    match source.reads with
    | [] => (none, { source with ipos := 0 , inside := .inl hempty })
    | chunk :: reads =>
        let hinside := ⟨List.length_pos_iff.mpr chunk.nonempty, Nat.le_refl _⟩
        let (c, source) := take ⟨chunk.bytes, 0, chunk.bytes.length, reads,
          .inr hinside⟩ hinside
        (some c, source)
  else
    let (c, source) := source.take (source.inside.resolve_left hempty)
    (some c, source)

@[simp]
theorem pending_start (ibuf : List UInt8) (reads : List Chunk) :
    (start ibuf reads).pending = joined reads := rfl

theorem take_spec (source : Source)
    (hinside : source.ipos < source.isize ∧ source.isize ≤ source.ibuf.length) :
    source.pending = (source.take hinside).1 :: (source.take hinside).2.pending := by
  obtain ⟨hlt, hle⟩ := hinside
  have hsplit : (source.ibuf.take source.isize).drop source.ipos =
      source.ibuf[source.ipos] ::
        (source.ibuf.take source.isize).drop (source.ipos + 1) := by
    have hbound : source.ipos < (source.ibuf.take source.isize).length := by
      rw [List.length_take]
      omega
    rw [List.drop_eq_getElem_cons hbound, List.getElem_take]
  rw [pending, hsplit, take]
  split
  · next hlast =>
      have hend : (source.ibuf.take source.isize).length ≤ source.ipos + 1 := by
        rw [List.length_take]
        omega
      rw [List.drop_eq_nil_of_le hend]
      rfl
  · rfl

/-- `inbyte` delivers the bytes of the file in order, whatever the sizes of the
reads are. -/
theorem inbyte_spec (source : Source) :
    source.inbyte.1 = source.pending.head? ∧
      source.inbyte.2.pending = source.pending.tail := by
  rw [inbyte]
  split
  · next hempty =>
      have hdrained : source.pending = joined source.reads := by
        rw [pending, hempty, List.take_zero, List.drop_nil, List.nil_append]
      rw [hdrained]
      cases source.reads with
      | nil =>
          refine ⟨rfl, ?_⟩
          simp [pending, hempty, joined]
      | cons chunk reads =>
          have hinside : 0 < chunk.bytes.length ∧
              chunk.bytes.length ≤ chunk.bytes.length :=
            ⟨List.length_pos_iff.mpr chunk.nonempty, Nat.le_refl _⟩
          have hfilled := take_spec ⟨chunk.bytes, 0, chunk.bytes.length, reads,
            .inr hinside⟩ hinside
          have hpending : joined (chunk :: reads) = pending ⟨chunk.bytes, 0,
              chunk.bytes.length, reads, .inr hinside⟩ := by
            rw [pending, List.take_length, List.drop_zero]
            rfl
          rw [hpending, hfilled]
          exact ⟨rfl, rfl⟩
  · next hfull =>
      rw [source.take_spec (source.inside.resolve_left hfull)]
      exact ⟨rfl, rfl⟩

end Source

/-- The output buffer (its first `opos` bytes) and the bytes written so far. -/
structure Sink where
  obuf : List UInt8
  written : List UInt8

namespace Sink

def start (written : List UInt8) : Sink where
  obuf := []
  written := written

/-- The bytes sent out so far. -/
def sent (sink : Sink) : List UInt8 :=
  sink.written ++ sink.obuf

def outflush (sink : Sink) : Sink where
  obuf := []
  written := sink.written ++ sink.obuf

def outbyte (sink : Sink) (c : UInt8) : Sink :=
  let sink := { sink with obuf := sink.obuf ++ [c] }
  if sink.obuf.length = bufz then sink.outflush else sink

@[simp]
theorem sent_start (written : List UInt8) : (start written).sent = written :=
  List.append_nil written

@[simp]
theorem sent_outflush (sink : Sink) : sink.outflush.sent = sink.sent :=
  List.append_nil _

@[simp]
theorem written_outflush (sink : Sink) : sink.outflush.written = sink.sent := rfl

@[simp]
theorem sent_outbyte (sink : Sink) (c : UInt8) :
    (sink.outbyte c).sent = sink.sent ++ [c] := by
  have hsent : ({ sink with obuf := sink.obuf ++ [c] } : Sink).sent =
      sink.sent ++ [c] := (List.append_assoc _ _ _).symm
  rw [outbyte]
  split
  · rw [sent_outflush, hsent]
  · exact hsent

end Sink

/-- The state of `getbit`: the last byte read, shifted, how many of its bits
are left, and whether the end of the file was met. -/
structure BitSource where
  num : ℕ
  c : UInt8
  eof : Bool
  source : Source

namespace BitSource

/-- The bits not delivered yet. -/
def bits (s : BitSource) : List Bool :=
  Bits.ofNat s.num s.c.toNat ++ Bits.unpack s.source.pending

/-- `num--; x = c & 1; c = c / 2; return x` -/
def shift (s : BitSource) : Bool × BitSource :=
  (s.c.toNat.testBit 0, { s with num := s.num - 1, c := s.c / 2 })

def getbit (s : BitSource) : Bool × BitSource :=
  if s.num = 0 then
    match s.source.inbyte with
    | (none, source) => (false, { s with c := 0xff, eof := true, source })
    | (some c, source) => shift { s with num := 8, c, source }
  else
    s.shift

def getsymLoop : ℕ → ℕ → ℕ → BitSource → ℕ × BitSource
  | 0, _, acc, s => (acc, s)
  | left + 1, x, acc, s =>
      let (bit, s) := s.getbit
      getsymLoop left (x + 1) (acc ||| bit.toNat <<< x) s

/-- A code of `width` bits. -/
def getsym (width : ℕ) (s : BitSource) : ℕ × BitSource :=
  getsymLoop width 0 0 s

theorem shift_spec (s : BitSource) (hnum : s.num ≠ 0) :
    s.bits = s.shift.1 :: s.shift.2.bits ∧ s.shift.2.eof = s.eof := by
  obtain ⟨left, hleft⟩ := Nat.exists_eq_succ_of_ne_zero hnum
  have hhalf : (s.c / 2).toNat = s.c.toNat / 2 := UInt8.toNat_div s.c 2
  refine ⟨?_, rfl⟩
  rw [bits, hleft, Bits.ofNat, shift, bits, hleft, hhalf]
  rfl

/-- `getbit` delivers the next bit, or a zero and the end of the file. -/
theorem getbit_spec (s : BitSource) :
    s.getbit.1 = s.bits.headD false ∧ s.getbit.2.bits = s.bits.tail ∧
      s.getbit.2.eof = (s.eof || s.bits.isEmpty) := by
  have hcons : ∀ s' : BitSource, s'.num ≠ 0 →
      s'.shift.1 = s'.bits.headD false ∧ s'.shift.2.bits = s'.bits.tail ∧
        s'.shift.2.eof = (s'.eof || s'.bits.isEmpty) := by
    intro s' hnum
    obtain ⟨hbits, heof⟩ := s'.shift_spec hnum
    rw [hbits, heof]
    exact ⟨rfl, rfl, (Bool.or_false _).symm⟩
  rw [getbit]
  split
  · next hzero =>
      have hbits : s.bits = Bits.unpack s.source.pending := by
        rw [bits, hzero]
        rfl
      obtain ⟨hbyte, hrest⟩ := s.source.inbyte_spec
      rcases hinbyte : s.source.inbyte with ⟨_ | c, source⟩
      · rw [hinbyte] at hbyte hrest
        have hend : s.source.pending = [] := List.head?_eq_none_iff.mp hbyte.symm
        rw [hend] at hrest hbits
        have hdone : ({ s with c := 0xff, eof := true, source := source } :
            BitSource).bits = [] := by
          rw [bits, hzero, hrest]
          rfl
        rw [hbits]
        exact ⟨rfl, hdone, (Bool.or_true _).symm⟩
      · rw [hinbyte] at hbyte hrest
        have hpending : s.source.pending = c :: source.pending := by
          rw [List.eq_cons_of_mem_head? hbyte.symm, hrest]
        have hloaded : s.bits =
            ({ s with num := 8, c := c, source := source } : BitSource).bits := by
          rw [hbits, hpending]
          rfl
        rw [hloaded]
        exact hcons _ (Nat.succ_ne_zero 7)
  · next hnum => exact hcons s hnum

theorem getsymLoop_spec (left x acc : ℕ) (s : BitSource) (hacc : acc < 2 ^ x) :
    (getsymLoop left x acc s).1 = acc + 2 ^ x * Bits.toNat (s.bits.take left) ∧
      (getsymLoop left x acc s).2.bits = s.bits.drop left ∧
      (getsymLoop left x acc s).2.eof = (s.eof || decide (s.bits.length < left)) := by
  induction left generalizing x acc s with
  | zero => simp [getsymLoop, Bits.toNat]
  | succ left ih =>
      obtain ⟨hbit, hrest, heof⟩ := s.getbit_spec
      have hadd : acc ||| s.getbit.1.toNat <<< x = acc + 2 ^ x * s.getbit.1.toNat := by
        rw [Nat.or_comm, ← Nat.shiftLeft_add_eq_or_of_lt hacc, Nat.shiftLeft_eq,
          Nat.add_comm, Nat.mul_comm]
      have hsmall : acc ||| s.getbit.1.toNat <<< x < 2 ^ (x + 1) := by
        have := s.getbit.1.toNat_lt
        have hmul : 2 ^ x * s.getbit.1.toNat ≤ 2 ^ x * 1 :=
          Nat.mul_le_mul_left _ (by omega)
        rw [hadd, Nat.pow_succ]
        omega
      obtain ⟨hcode, hbits, hend⟩ := ih (x + 1) _ s.getbit.2 hsmall
      rw [getsymLoop]
      refine ⟨?_, ?_, ?_⟩
      · rw [hcode, hrest, hadd, hbit, Nat.add_assoc, Nat.pow_succ, Nat.mul_assoc,
          ← Nat.mul_add]
        cases s.bits <;> simp [Bits.toNat]
      · rw [hbits, hrest]
        cases s.bits <;> simp
      · rw [hend, hrest, heof]
        cases s.bits with
        | nil => simp
        | cons bit bits =>
            have hlength : bits.length < left ↔ (bit :: bits).length < left + 1 :=
              Nat.succ_lt_succ_iff.symm
            rw [List.isEmpty_cons, Bool.or_false, List.tail_cons,
              decide_eq_decide.mpr hlength]

/-- `getsym` cuts the next `width` bits off; bits missing at the end of the file
count as zeros. -/
theorem getsym_spec (width : ℕ) (s : BitSource) :
    (s.getsym width).1 = Bits.toNat (s.bits.take width) ∧
      (s.getsym width).2.bits = s.bits.drop width ∧
      (s.getsym width).2.eof = (s.eof || decide (s.bits.length < width)) := by
  have hspec := getsymLoop_spec width 0 0 s Nat.one_pos
  simpa only [getsym, Nat.zero_add, pow_zero, Nat.one_mul] using hspec

/-- A code that was packed at its width is read back. -/
theorem getsym_packed {input : BitSource} {width code : ℕ} {rest : List Bool}
    (hbits : input.bits = Bits.ofNat width code ++ rest) (hfits : code < 2 ^ width) :
    (input.getsym width).1 = code ∧ (input.getsym width).2.bits = rest ∧
      (input.getsym width).2.eof = input.eof := by
  obtain ⟨hcode, hrest, heof⟩ := input.getsym_spec width
  have hwidth := Bits.length_ofNat width code
  have hlong : ¬ input.bits.length < width := by
    rw [hbits, List.length_append]
    omega
  refine ⟨?_, ?_, ?_⟩
  · rw [hcode, hbits, List.take_left' hwidth, Bits.toNat_ofNat hfits]
  · rw [hrest, hbits, List.drop_left' hwidth]
  · rw [heof, decide_eq_false hlong, Bool.or_false]

end BitSource

/-- The state of `putbit`: the bits gathered for the next byte. -/
structure BitSink where
  num : ℕ
  bbuf : UInt8
  sink : Sink
  room : num < 8
  small : bbuf.toNat < 2 ^ num

namespace BitSink

def start (written : List UInt8) : BitSink where
  num := 0
  bbuf := 0
  sink := .start written
  room := by decide
  small := by decide

/-- The bits sent out or gathered so far. -/
def bits (s : BitSink) : List Bool :=
  Bits.unpack s.sink.sent ++ Bits.ofNat s.num s.bbuf.toNat

theorem toNat_bbuf (s : BitSink) (bit : Bool) :
    (s.bbuf ||| UInt8.ofNat (bit.toNat <<< s.num)).toNat =
      s.bbuf.toNat ||| bit.toNat <<< s.num := by
  have hbit : bit.toNat <<< s.num < 256 := by
    have hpow : 2 ^ s.num ≤ 2 ^ 7 :=
      Nat.pow_le_pow_right Nat.two_pos (Nat.le_of_lt_succ s.room)
    rw [Nat.shiftLeft_eq]
    cases bit
    · exact Nat.lt_of_le_of_lt (Nat.zero_mul _).le (by decide)
    · rw [Bool.toNat_true, Nat.one_mul]
      omega
  rw [UInt8.toNat_or, UInt8.toNat_ofNat', Nat.mod_eq_of_lt hbit]

theorem small_snoc (s : BitSink) (bit : Bool) :
    (s.bbuf ||| UInt8.ofNat (bit.toNat <<< s.num)).toNat < 2 ^ (s.num + 1) := by
  rw [toNat_bbuf]
  refine Nat.or_lt_two_pow (s.small.trans_le ?_) ?_
  · exact Nat.pow_le_pow_right Nat.two_pos (Nat.le_succ _)
  · rw [Nat.shiftLeft_eq, Nat.pow_succ, Nat.mul_comm]
    exact Nat.mul_lt_mul_of_pos_left bit.toNat_lt (Nat.two_pow_pos _)

/-- `putbit`, of the low bit of its argument. -/
def putbit (s : BitSink) (b : ℕ) : BitSink :=
  let bbuf := s.bbuf ||| UInt8.ofNat ((b.testBit 0).toNat <<< s.num)
  if hfull : s.num + 1 = 8 then
    ⟨0, 0, s.sink.outbyte bbuf, by decide, by decide⟩
  else
    ⟨s.num + 1, bbuf, s.sink, by have := s.room; omega, s.small_snoc _⟩

def outsym : ℕ → BitSink → ℕ → BitSink
  | 0, sink, _ => sink
  | x + 1, sink, s => outsym x (sink.putbit s) (s / 2)

/-- `flushbits`: what reaches the output file. -/
def flushbits (s : BitSink) : List UInt8 :=
  let sink := if s.num ≠ 0 then s.sink.outbyte s.bbuf else s.sink
  sink.outflush.written

@[simp]
theorem bits_start (written : List UInt8) :
    (start written).bits = Bits.unpack written := by
  rw [bits, start, Sink.sent_start]
  exact List.append_nil _

theorem bits_putbit (s : BitSink) (b : ℕ) :
    (s.putbit b).bits = s.bits ++ [b.testBit 0] := by
  have hsnoc : Bits.ofNat (s.num + 1)
      (s.bbuf ||| UInt8.ofNat ((b.testBit 0).toNat <<< s.num)).toNat =
        Bits.ofNat s.num s.bbuf.toNat ++ [b.testBit 0] := by
    rw [toNat_bbuf]
    exact Bits.ofNat_snoc s.small _
  rw [putbit, bits, bits, List.append_assoc, ← hsnoc]
  split
  · next hfull =>
      rw [Sink.sent_outbyte, Bits.unpack_append, hfull]
      simp [Bits.ofNat]
  · rfl

/-- `outsym` sends the low bits of a code, the least significant one first. -/
theorem bits_outsym (width : ℕ) (sink : BitSink) (s : ℕ) :
    (outsym width sink s).bits = sink.bits ++ Bits.ofNat width s := by
  induction width generalizing sink s with
  | zero => exact (List.append_nil _).symm
  | succ width ih =>
      rw [outsym, ih, bits_putbit, Bits.ofNat, List.append_assoc]
      rfl

/-- The last byte is filled up with zeros. -/
theorem unpack_flushbits (s : BitSink) :
    ∃ pad < 8, Bits.unpack s.flushbits = s.bits ++ List.replicate pad false := by
  rw [flushbits, Sink.written_outflush, bits]
  by_cases hnum : s.num = 0
  · refine ⟨0, by decide, ?_⟩
    rw [if_neg (not_not.mpr hnum), hnum]
    simp [Bits.ofNat]
  · have hwidth : 8 = s.num + (8 - s.num) := by
      have := s.room
      omega
    refine ⟨8 - s.num, by omega, ?_⟩
    rw [if_pos hnum, Sink.sent_outbyte, Bits.unpack_append, List.append_assoc,
      ← Bits.ofNat_add s.small, ← hwidth, Bits.unpack_cons, Bits.unpack_nil,
      List.append_nil]

end BitSink

end Fip.Lzw
