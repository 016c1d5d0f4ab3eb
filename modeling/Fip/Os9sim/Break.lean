import Fip.Core.Runs
import Mathlib.Data.UInt

/-!
# The break of `os9sim`

The memory of a simulated program ends at `mybrk`, its data area is
`datasize` bytes from `itop` on, and `F$Mem` asks for another size of it.  All
words and the `int` of the target are 16 bits wide.
-/

namespace Fip.Os9sim

/-- The registers of `struct regs_s` that `F$Mem` has to do with. -/
structure Regs where
  cc : UInt8
  a : UInt8
  b : UInt8
  y : UInt16
deriving DecidableEq

/-- `*(uint16_t *)&reg->a` -/
def Regs.d (reg : Regs) : UInt16 :=
  reg.a.toUInt16 <<< 8 ||| reg.b.toUInt16

def Regs.setD (reg : Regs) (d : UInt16) : Regs :=
  { reg with a := (d >>> 8).toUInt8, b := d.toUInt8 }

structure State where
  mybrk : UInt16
  mytop : UInt16
  datasize : UInt16
  reg : Regs
  errno : UInt8
deriving DecidableEq

/-- The old break, or -1. -/
def mysbrk (s : State) (inc : Int16) : UInt16 × State :=
  let old := s.mybrk
  if s.mybrk + inc.toUInt16 > s.mytop then (0xffff, s)
  else (old, { s with mybrk := s.mybrk + inc.toUInt16 })

/-- The size that is asked for, in whole pages. -/
def pages (d : UInt16) : UInt16 := (d + 0xff) &&& 0xff00

def os9mem (s : State) : State :=
  let new := pages s.reg.d
  let diff := new - s.datasize
  let (ret, s) := mysbrk s diff.toInt16
  if ret.toInt16 < 0 then
    { s with reg := { s.reg with cc := s.reg.cc ||| 1, b := s.errno } }
  else
    { s with
      datasize := new
      reg := { ({ s.reg with y := s.mybrk } : Regs).setD new with b := 0 } }

/-- `os9call` with the registers of the program, which asks for `F$Mem`. -/
def os9call (s : State) (reg : Regs) : State :=
  os9mem { s with reg := { reg with cc := reg.cc &&& ~~~0x1 } }

/-- The data area lies between `itop` and the break, as integers. -/
structure Consistent (itop : UInt16) (s : State) : Prop where
  area : itop.toNat + s.datasize.toNat = s.mybrk.toNat
  limit : s.mybrk.toNat ≤ s.mytop.toNat

/-- What a call has to give: a consistent state, and nothing has changed if the
carry is set. -/
structure Kept (itop : UInt16) (s s' : State) : Prop where
  consistent : Consistent itop s'
  base : itop.toNat ≤ s'.mybrk.toNat
  carry : s'.reg.cc &&& 1 ≠ 0 → s'.mybrk = s.mybrk ∧ s'.datasize = s.datasize

/-- The calls that are answered right: the new break, modulo 2^16, is above the
limit; or the size is the old one; or the old break is no negative number and the
new one is no smaller modulo 2^16. -/
def Answered (itop : UInt16) (s : State) (reg : Regs) : Prop :=
  s.mytop < itop + pages reg.d ∨ pages reg.d = s.datasize ∨
    s.mybrk.toNat < 0x8000 ∧ itop.toNat + (pages reg.d).toNat < 0x10000

instance (itop : UInt16) (s : State) (reg : Regs) : Decidable (Answered itop s reg) :=
  inferInstanceAs (Decidable (_ ∨ _))

section

variable {itop : UInt16} {s : State} {reg : Regs}

theorem Consistent.le (hs : Consistent itop s) : itop.toNat ≤ s.mybrk.toNat :=
  hs.area ▸ Nat.le_add_right _ _

/-- The break that a call asks for. -/
theorem Consistent.target (hs : Consistent itop s) (new : UInt16) :
    s.mybrk + (new - s.datasize).toInt16.toUInt16 = itop + new := by
  have harea : itop + s.datasize = s.mybrk := by
    apply UInt16.toNat.inj
    have := s.mybrk.toNat_lt
    rw [UInt16.toNat_add, hs.area]
    exact Nat.mod_eq_of_lt this
  rw [UInt16.toUInt16_toInt16, ← harea]
  exact add_add_sub_cancel itop new s.datasize

theorem toInt16_neg_iff (word : UInt16) : word.toInt16 < 0 ↔ 0x8000 ≤ word.toNat := by
  rw [Int16.lt_iff_toInt_lt, ← UInt16.toNat_toBitVec]
  change word.toBitVec.toInt < 0 ↔ _
  rw [BitVec.toInt_neg_iff]
  omega

/-- `mysbrk` as `os9mem` calls it. -/
theorem Consistent.mysbrk_eq (hs : Consistent itop s) (new : UInt16) :
    mysbrk s (new - s.datasize).toInt16 =
      if s.mytop < itop + new then (0xffff, s)
      else (s.mybrk, { s with mybrk := itop + new }) := by
  rw [mysbrk, hs.target]

theorem os9mem_refused (hs : Consistent itop s) (hlimit : s.mytop < itop + pages s.reg.d) :
    os9mem s = { s with reg := { s.reg with cc := s.reg.cc ||| 1, b := s.errno } } := by
  rw [os9mem, hs.mysbrk_eq, if_pos hlimit]
  exact if_pos (by decide)

/-- A break from 0x8000 on is moved, and then taken for a failure. -/
theorem os9mem_misread (hs : Consistent itop s) (hlimit : ¬ s.mytop < itop + pages s.reg.d)
    (hneg : 0x8000 ≤ s.mybrk.toNat) :
    os9mem s = { s with
      mybrk := itop + pages s.reg.d
      reg := { s.reg with cc := s.reg.cc ||| 1, b := s.errno } } := by
  rw [os9mem, hs.mysbrk_eq, if_neg hlimit]
  exact if_pos ((toInt16_neg_iff s.mybrk).mpr hneg)

theorem os9mem_moved (hs : Consistent itop s) (hlimit : ¬ s.mytop < itop + pages s.reg.d)
    (hpos : ¬ 0x8000 ≤ s.mybrk.toNat) :
    ∃ reg', os9mem s = { s with
        mybrk := itop + pages s.reg.d, datasize := pages s.reg.d, reg := reg' } ∧
      reg'.cc = s.reg.cc := by
  rw [os9mem, hs.mysbrk_eq, if_neg hlimit]
  exact ⟨_, if_neg (mt (toInt16_neg_iff s.mybrk).mp hpos), rfl⟩

theorem carry_set (cc : UInt8) : (cc ||| 1) &&& 1 ≠ 0 := by
  intro hzero
  have hbit := congrArg (fun byte : UInt8 => byte.toBitVec.getLsbD 0) hzero
  simp at hbit

theorem carry_clear (cc : UInt8) : cc &&& ~~~0x1 &&& 1 = 0 := by
  rw [UInt8.and_assoc]
  exact UInt8.and_zero

theorem Consistent.target_eq_iff (hs : Consistent itop s) (new : UInt16) :
    itop + new = s.mybrk ↔ new = s.datasize := by
  have hsame := hs.target s.datasize
  rw [sub_self] at hsame
  rw [← UInt16.add_zero s.mybrk]
  constructor
  · intro heq
    exact add_left_cancel (heq.trans hsame)
  · rintro rfl
    exact hsame.symm

/-- The area of the new size ends at the new break if that is no smaller modulo
2^16. -/
theorem area_iff (itop new : UInt16) :
    itop.toNat + new.toNat = (itop + new).toNat ↔ itop.toNat + new.toNat < 0x10000 := by
  rw [UInt16.toNat_add]
  omega

/-- A call keeps the layout exactly if it is one of those that are answered
right. -/
theorem kept_iff (hs : Consistent itop s) :
    Kept itop s (os9call s reg) ↔ Answered itop s reg := by
  have hs' : Consistent itop { s with reg := { reg with cc := reg.cc &&& ~~~0x1 } } :=
    ⟨hs.area, hs.limit⟩
  rw [os9call]
  by_cases hlimit : s.mytop < itop + pages reg.d
  · rw [os9mem_refused hs' hlimit]
    exact iff_of_true ⟨⟨hs.area, hs.limit⟩, hs.le, fun _ => ⟨rfl, rfl⟩⟩ (.inl hlimit)
  have hle : (itop + pages reg.d).toNat ≤ s.mytop.toNat := Nat.le_of_not_lt hlimit
  by_cases hneg : 0x8000 ≤ s.mybrk.toNat
  · have hanswered : Answered itop s reg ↔ pages reg.d = s.datasize := by
      rw [Answered, or_iff_right hlimit]
      exact or_iff_left fun hpos => Nat.not_lt.mpr hneg hpos.1
    rw [os9mem_misread hs' hlimit hneg, hanswered, ← hs.target_eq_iff]
    constructor
    · intro hkept
      exact (hkept.carry (carry_set _)).1
    · intro hsame
      have harea := hs.area.trans (congrArg UInt16.toNat hsame).symm
      exact ⟨⟨harea, hle⟩, hsame ▸ hs.le, fun _ => ⟨hsame, rfl⟩⟩
  · obtain ⟨reg', hcall, hcc⟩ := os9mem_moved hs' hlimit hneg
    have hanswered : Answered itop s reg ↔ itop.toNat + (pages reg.d).toNat < 0x10000 := by
      rw [Answered, or_iff_right hlimit, and_iff_right (Nat.lt_of_not_le hneg)]
      apply or_iff_right_of_imp
      intro hsame
      have := s.mybrk.toNat_lt
      rw [hsame, hs.area]
      omega
    rw [hcall, hanswered, ← area_iff]
    constructor
    · intro hkept
      exact hkept.consistent.area
    · intro harea
      refine ⟨⟨harea, hle⟩, Nat.le.intro harea, ?_⟩
      intro hcarry
      rw [hcc] at hcarry
      exact absurd (carry_clear reg.cc) hcarry

/-- Whatever is asked for, and however often: every call keeps the layout exactly
if every call is one of those that are answered right. -/
theorem os9calls_keep_iff (hs : Consistent itop s) (regs : List Regs) :
    Runs.Always os9call (fun s reg => Kept itop s (os9call s reg)) s regs ↔
      Runs.Always os9call (Answered itop) s regs :=
  Runs.always_iff (Consistent itop) (fun _ _ hs => kept_iff hs)
    (fun _ _ _ hkept => hkept.consistent) hs regs

end

/-- A program at 0x2000 with a data area of 28 KB: its break is 0x9000. -/
def highBreak : State := ⟨0x9000, 0xf000, 0x7000, ⟨0, 0x60, 0, 0⟩, 12⟩

/-- A program with a data area of 256 bytes asks for two pages. -/
theorem os9calls_keep_iff_twoPages :
    Runs.Always os9call (fun s reg => Kept 0x2000 s (os9call s reg))
        ⟨0x2100, 0xf000, 0x100, ⟨0, 0, 0, 0⟩, 12⟩ [⟨0, 0x01, 0x80, 0⟩] ↔
      Runs.Always os9call (Answered 0x2000)
        ⟨0x2100, 0xf000, 0x100, ⟨0, 0, 0, 0⟩, 12⟩ [⟨0, 0x01, 0x80, 0⟩] :=
  os9calls_keep_iff ⟨by decide, by decide⟩ [⟨0, 0x01, 0x80, 0⟩]

/-- The request for a smaller data area fails, but the break is moved. -/
theorem highBreak_moved :
    ¬ Runs.Always os9call (fun s reg => Kept 0x2000 s (os9call s reg)) highBreak
      [highBreak.reg] := by
  intro hkept
  have hsame := (hkept.1.carry (by decide)).1
  exact absurd hsame (by decide)

end Fip.Os9sim
