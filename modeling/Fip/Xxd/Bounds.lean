import Fip.Xxd.Dump
import Mathlib.Tactic.Ring

/-!
# The array of a line

`LLEN` is large enough for every kind of line, for any columns and groups that `main` goes on
with: nothing is written behind the array, and its last character ends every string in it.
-/

namespace Fip.Xxd

variable {hextype : HexType} (format : Layout hextype) (options : Options)

/-- The characters of a byte. -/
def width (hextype : HexType) : ℕ := if hextype ≠ .bits then 2 else 8

theorem grplen_eq : grplen format = width hextype * format.octspergrp + 1 := by
  rw [grplen, width]
  split_ifs <;> ring

theorem digitPlace_le (p : ℕ) : digitPlace format p ≤ 10 + (width hextype + 1) * p := by
  have hgroup : 0 < format.octspergrp := format.one_le_octspergrp
  have hmul : grplen format * p = p + width hextype * p * format.octspergrp := by
    rw [grplen_eq]
    ring
  have hdiv := Nat.div_le_self p format.octspergrp
  rw [digitPlace, hmul, Nat.add_mul_div_right _ _ hgroup, Nat.add_mul]
  omega

theorem textPlace_add_le :
    textPlace format + format.cols ≤ 11 + (width hextype + 2) * format.cols := by
  have hgroup : 0 < format.octspergrp := format.one_le_octspergrp
  have hcols := format.one_le_cols
  have hmul : grplen format * format.cols - 1 =
      format.cols - 1 + width hextype * format.cols * format.octspergrp := by
    have heq : grplen format * format.cols =
        format.cols + width hextype * format.cols * format.octspergrp := by
      rw [grplen_eq]
      ring
    rw [heq]
    omega
  have hdiv := Nat.div_le_self (format.cols - 1) format.octspergrp
  rw [textPlace, hmul, Nat.add_mul_div_right _ _ hgroup, Nat.add_mul]
  omega

theorem width_le (hextype : HexType) : 2 ≤ width hextype ∧ width hextype ≤ 8 := by
  rw [width]
  split_ifs <;> decide

variable {mem l : ℕ → Char} {d : Dump}

/-- The memory behind the array is as it was, and the last character of the array is NUL. -/
structure Inside (mem l : ℕ → Char) : Prop where
  behind : ∀ i > LLEN, l i = mem i
  last : l LLEN = '\x00'

theorem Inside.write (hinside : Inside mem l) (addr : ℕ) (text : List Char)
    (hle : addr + text.length ≤ LLEN) : Inside mem (Memory.write l addr text) := by
  constructor
  · intro i hi
    rw [Memory.write_of_le (by omega)]
    exact hinside.behind i hi
  · rw [Memory.write_of_le hle]
    exact hinside.last

theorem Inside.store (hinside : Inside mem l) {c : ℕ} {text : List Char}
    (hle : c + text.length ≤ LLEN) : Inside mem (store l c text) := by
  have hllen : LLEN = 2573 := rfl
  rw [store_natCast l (by omega)]
  exact hinside.write c text hle

theorem Inside.beginLine (hinside : Inside mem d.l) : Inside mem (beginLine options d).l := by
  have hllen : LLEN = 2573 := rfl
  have hwrite := hinside.write 0
    (offsetText ((d.n + options.base) % 2 ^ 32).toNat ++ [':', '\x00'])
    (by rw [hllen]; exact Nat.le_of_ble_eq_true rfl)
  constructor
  · intro i hi
    exact (if_neg fun hboth => by omega).trans (hwrite.behind i hi)
  · have hnot : ¬(9 ≤ LLEN ∧ LLEN < LLEN) := fun hboth => Nat.lt_irrefl _ hboth.2
    rw [Xxd.beginLine]
    dsimp only
    rw [if_neg hnot]
    exact hwrite.last

/-- Digits are written where they belong. -/
theorem Inside.storePlace {format : Layout hextype} (hinside : Inside mem l) {x : ℕ} (hx : x < 256)
    (hproduct : grplen format * x < 2 ^ 15) {text : List Char} (htext : text.length ≤ 8) :
    Inside mem (Xxd.store l (place format x) text) := by
  have hle := digitPlace_le format x
  have hwidth := (width_le hextype).2
  have hmul : (width hextype + 1) * x ≤ 9 * 255 := Nat.mul_le_mul (by omega) (by omega)
  have hllen : LLEN = 2573 := rfl
  rw [place_eq_digitPlace hproduct]
  exact hinside.store (by omega)

section Line

variable (hline : hextype ≠ .postscript ∧ hextype ≠ .cinclude)
include hline

theorem cols_le : format.cols ≤ 256 := format.cols_le hline.1 hline.2

/-- The text of a line with its newline and NUL. -/
theorem text_le : textPlace format + format.cols + 2 ≤ LLEN := by
  have hcols := cols_le format hline
  have hcolumn := textPlace_add_le format
  have hwidth := (width_le hextype).2
  have hmul : (width hextype + 2) * format.cols ≤ 10 * 256 :=
    Nat.mul_le_mul (by omega) hcols
  have hllen : LLEN = 2573 := rfl
  omega

variable {format}

/-- The text of a byte, and the end of a line. -/
theorem Inside.storeColumn (hfits : format.Fits) (hinside : Inside mem l) {p : ℕ}
    {text : List Char} (hp : p + text.length ≤ format.cols + 2) :
    Inside mem (Xxd.store l (column format + p) text) := by
  have hle := text_le format hline
  rw [column_eq_textPlace hfits, ← Nat.cast_add]
  exact hinside.store (by omega)

theorem Inside.putDigits (hfits : format.Fits) {p : ℕ} (hinside : Inside mem l)
    (hp : p < format.cols) (e : ℕ) : Inside mem (putDigits format options l p e) := by
  have hcols := cols_le format hline
  have hproduct : grplen format * p < 2 ^ 15 :=
    Nat.lt_of_le_of_lt (Nat.mul_le_mul_left _ (Nat.le_of_lt hp)) hfits.cols
  cases hextype with
  | normal => exact hinside.storePlace (by omega) hproduct (by simp)
  | postscript => exact absurd rfl hline.1
  | cinclude => exact absurd rfl hline.2
  | bits => exact hinside.storePlace (by omega) hproduct (by simp)
  | littleEndian =>
      have hgroup := format.octspergrp_le
      have hxor : p ^^^ (format.octspergrp - 1) < 256 :=
        Nat.xor_lt_two_pow (n := 8) (by omega) (by omega)
      exact hinside.storePlace hxor (hfits.swapped rfl p hp) (by simp)

theorem Inside.addByte (hfits : format.Fits) (hinside : Inside mem d.l)
    (hp : d.p < format.cols) (byte : UInt8) :
    Inside mem (addByte format options d byte).l := by
  have hdigits := hinside.putDigits options hline hfits hp byte.toNat
  exact hdigits.storeColumn hline hfits (by rw [List.length_singleton]; omega)

theorem Inside.printLine (hfits : format.Fits) (hinside : Inside mem d.l)
    (hp : d.p ≤ format.cols) (nz : ℤ) : Inside mem (printLine format d nz).l :=
  hinside.storeColumn hline hfits (Nat.add_le_add_right hp 2)

theorem Inside.dumpByte (hfits : format.Fits) (hinside : Inside mem d.l)
    (hp : d.p < format.cols) (byte : UInt8) :
    Inside mem (dumpByte format options d byte).l ∧
      (Xxd.dumpByte format options d byte).p < format.cols := by
  have hbegun : Inside mem (if d.p = 0 then Xxd.beginLine options d else d).l ∧
      (if d.p = 0 then Xxd.beginLine options d else d).p = d.p := by
    split_ifs
    · exact ⟨hinside.beginLine options, rfl⟩
    · exact ⟨hinside, rfl⟩
  rw [Xxd.dumpByte]
  generalize (if d.p = 0 then Xxd.beginLine options d else d) = begun at hbegun
  obtain ⟨hbegun, hsame⟩ := hbegun
  have hadd := hbegun.addByte options hline hfits (by rwa [hsame]) byte
  have hnext : (Xxd.addByte format options begun byte).p = d.p + 1 := congrArg (· + 1) hsame
  dsimp only
  by_cases hlast : (Xxd.addByte format options begun byte).p = format.cols
  · rw [if_pos hlast]
    exact ⟨hadd.printLine hline hfits (Nat.le_of_eq hlast) (if options.autoskip then
      (Xxd.addByte format options begun byte).nonzero else 1), format.one_le_cols⟩
  · rw [if_neg hlast]
    exact ⟨hadd, by omega⟩

theorem Inside.run (hfits : format.Fits) (hinside : Inside mem d.l) (hp : d.p < format.cols)
    (bytes : List UInt8) :
    Inside mem (bytes.foldl (Xxd.dumpByte format options) d).l ∧
      (bytes.foldl (Xxd.dumpByte format options) d).p < format.cols := by
  induction bytes generalizing d with
  | nil => exact ⟨hinside, hp⟩
  | cons byte bytes ih =>
      obtain ⟨hstep, hnext⟩ := hinside.dumpByte options hline hfits hp byte
      exact ih hstep hnext

end Line

/-- Dumps stay inside their array, whatever the input and the options, if the places in the
line can be computed. -/
theorem dump_inside (mem : ℕ → Char) (bytes : List UInt8)
    (hline : hextype ≠ .postscript ∧ hextype ≠ .cinclude) (hfits : format.Fits) :
    (∀ i > LLEN, (dump format options mem bytes).l i = mem i) ∧
      (dump format options mem bytes).l LLEN = '\x00' := by
  have hinit : Inside mem (Dump.init mem).l := by
    refine ⟨fun i hi => if_neg (Nat.not_le.mpr hi), ?_⟩
    rw [Dump.init]
    dsimp only
    rw [if_pos le_rfl]
  have hstart : (Dump.init mem).p < format.cols := format.one_le_cols
  obtain ⟨hinside, hp⟩ := hinit.run options hline hfits hstart bytes
  have hfinish : Inside mem (dump format options mem bytes).l := by
    rw [dump, finish]
    split_ifs
    · exact hinside.printLine hline hfits (Nat.le_of_lt hp) 1
    · exact hinside
    · exact hinside
  exact ⟨hfinish.behind, hfinish.last⟩

/-- The widest line that there is. -/
def widest : Layout .bits := ⟨256, 1, by decide, fun _ _ => le_rfl, le_rfl, by decide⟩

/-- Two lines, all of them filled. -/
theorem dump_inside_widest :
    (∀ i > LLEN, (dump widest ⟨false, false, true, 0⟩ (fun _ => 'x')
      ((List.range 512).map UInt8.ofNat)).l i = 'x') ∧
    (dump widest ⟨false, false, true, 0⟩ (fun _ => 'x')
      ((List.range 512).map UInt8.ofNat)).l LLEN = '\x00' :=
  dump_inside widest ⟨false, false, true, 0⟩ (fun _ => 'x') ((List.range 512).map UInt8.ofNat)
    ⟨by decide, by decide⟩ ⟨by decide, nofun⟩

end Fip.Xxd
