import Fip.Xxd.Dump
import Fip.Xxd.Patches
import Mathlib.Tactic.Ring

/-!
# The line of a normal dump

The array that `main` fills byte by byte holds a line that `huntype` can read: the offset,
the digits of the bytes in groups, and behind at least two blanks their text.
-/

namespace Fip.Xxd

open Memory (cells)

variable {upper : Bool} {byte : UInt8} {bytes more : List UInt8} {group k : ℕ}

/-! ## Digits -/

theorem nibble_hexx (upper : Bool) {digit : ℕ} (hdigit : digit < 16) :
    nibble (hexx upper digit) = some digit := by
  have hall : ∀ upper : Bool, ∀ digit : Fin 16, nibble (hexx upper digit) = some digit.val := by
    decide
  exact hall upper ⟨digit, hdigit⟩

theorem and_15 (value : ℕ) : value &&& 0xf = value % 16 :=
  Nat.and_two_pow_sub_one_eq_mod value 4

/-- The digits of a byte. -/
def digits (upper : Bool) (e : ℕ) : List Char :=
  [hexx upper (e >>> 4 &&& 0xf), hexx upper (e &&& 0xf)]

theorem nibble_digits (upper : Bool) (byte : UInt8) :
    nibble (hexx upper (byte.toNat >>> 4 &&& 0xf)) = some (byte.toNat / 16) ∧
      nibble (hexx upper (byte.toNat &&& 0xf)) = some (byte.toNat % 16) := by
  have hlt := byte.toNat_lt
  have hhi : byte.toNat >>> 4 &&& 0xf = byte.toNat / 16 := by
    rw [and_15, Nat.shiftRight_eq_div_pow]
    omega
  rw [hhi, and_15]
  exact ⟨nibble_hexx upper (by omega), nibble_hexx upper (by omega)⟩

theorem offsetText_eq (value : ℕ) :
    offsetText value = (List.range 8).map fun i => hexx false (value / 16 ^ (7 - i) % 16) := by
  refine List.map_congr_left fun i _ => ?_
  rw [and_15, Nat.shiftRight_eq_div_pow, Nat.pow_mul]

theorem nibble_offsetText (value : ℕ) : ∀ c ∈ offsetText value, (nibble c).isSome := by
  rw [offsetText_eq]
  intro c hc
  obtain ⟨i, -, rfl⟩ := List.mem_map.mp hc
  rw [nibble_hexx false (Nat.mod_lt _ (by decide))]
  rfl

/-- The digits of a number, the most significant one first. -/
theorem foldl_digits (count value acc : ℕ) :
    ((List.range count).map fun i => value / 16 ^ (count - 1 - i) % 16).foldl
      (fun acc digit => acc * 16 + digit) acc = acc * 16 ^ count + value % 16 ^ count := by
  induction count generalizing acc with
  | zero => simp [Nat.mod_one]
  | succ count ih =>
      have hrest : ∀ i, count + 1 - 1 - (i + 1) = count - 1 - i := fun i => by omega
      rw [List.range_succ_eq_map, List.map_cons, List.map_map, List.foldl_cons]
      simp only [Function.comp_def, Nat.succ_eq_add_one, hrest, ih]
      rw [Nat.add_sub_cancel, Nat.sub_zero, Nat.mod_pow_succ]
      ring

theorem number_offsetText {value : ℕ} (hvalue : value < 2 ^ 32) :
    number (offsetText value) = value := by
  have hnibble : ∀ i, (nibble (hexx false (value / 16 ^ (7 - i) % 16))).getD 0 =
      value / 16 ^ (7 - i) % 16 := fun i => by
    rw [nibble_hexx false (Nat.mod_lt _ (by decide)), Option.getD_some]
  have hsmall : value < 16 ^ 8 := hvalue
  have hdigits := foldl_digits 8 value 0
  rw [List.foldl_map, Nat.zero_mul, Nat.zero_add, Nat.mod_eq_of_lt hsmall] at hdigits
  rw [offsetText_eq, number, List.foldl_map]
  simp only [hnibble]
  exact hdigits

/-! ## Groups -/

/-- The digits of bytes, from the k-th in their line on, with a blank before each group. -/
def body (upper : Bool) (group : ℕ) : ℕ → List UInt8 → List Char
  | _, [] => []
  | k, byte :: bytes =>
      (if group ∣ k then [' '] else []) ++ digits upper byte.toNat ++ body upper group (k + 1) bytes

theorem body_append (k : ℕ) (bytes more : List UInt8) :
    body upper group k (bytes ++ more) =
      body upper group k bytes ++ body upper group (k + bytes.length) more := by
  induction bytes generalizing k with
  | nil => rfl
  | cons byte bytes ih =>
      rw [List.cons_append, body, ih, body, List.append_assoc _ (body upper group (k + 1) bytes),
        List.length_cons, Nat.add_assoc k, Nat.add_comm 1]

theorem body_reads (k : ℕ) (bytes : List UInt8) : Reads (body upper group k bytes) bytes := by
  induction bytes generalizing k with
  | nil => exact .nil
  | cons byte bytes ih =>
      obtain ⟨hhi, hlo⟩ := nibble_digits upper byte
      rw [body]
      split_ifs
      · exact .gap hhi hlo (ih (k + 1))
      · exact .byte hhi hlo (ih (k + 1))

/-- The next blank or digit is written behind the digits so far. -/
theorem length_body (bytes : List UInt8) :
    (body upper group 0 bytes).length + (if group ∣ bytes.length then 1 else 0) =
      1 + 2 * bytes.length + bytes.length / group := by
  induction bytes using List.reverseRecOn with
  | nil => simp [body]
  | append_singleton bytes byte ih =>
      rw [body_append, Nat.zero_add, List.length_append, List.length_append, List.length_singleton,
        Nat.succ_div, body, body, List.append_nil, List.length_append]
      have htwo : (digits upper byte.toNat).length = 2 := rfl
      rw [htwo]
      split_ifs at ih ⊢ <;> simp only [List.length_singleton, List.length_nil] <;> omega

/-! ## The array -/

section Normal

variable (format : Layout .normal) (options : Options)

theorem digitPlace_eq (p : ℕ) : digitPlace format p = 10 + (2 * p + p / format.octspergrp) := by
  have hgroup : 0 < format.octspergrp := format.one_le_octspergrp
  have hmul : grplen format * p = p + 2 * p * format.octspergrp := by
    rw [grplen, if_pos (by decide)]
    ring
  rw [digitPlace, hmul, Nat.add_mul_div_right _ _ hgroup, Nat.add_comm (p / _)]

theorem textPlace_eq : textPlace format =
    12 + (2 * format.cols + (format.cols - 1) / format.octspergrp) := by
  have hgroup : 0 < format.octspergrp := format.one_le_octspergrp
  have hcols := format.one_le_cols
  have hmul : grplen format * format.cols - 1 =
      format.cols - 1 + 2 * format.cols * format.octspergrp := by
    have heq : grplen format * format.cols =
        format.cols + 2 * format.cols * format.octspergrp := by
      rw [grplen, if_pos (by decide)]
      ring
    rw [heq]
    omega
  rw [textPlace, hmul, Nat.add_mul_div_right _ _ hgroup, Nat.add_comm ((_ - 1) / _)]

/-- The digits of a line. -/
def lineBody (bytes : List UInt8) : List Char := body options.upper format.octspergrp 0 bytes

/-- Between the digits and the text. -/
def padding (bytes : List UInt8) : ℕ :=
  textPlace format - (9 + (lineBody format options bytes).length)

theorem length_lineBody (bytes : List UInt8) :
    (lineBody format options bytes).length +
        (if format.octspergrp ∣ bytes.length then 1 else 0) =
      1 + 2 * bytes.length + bytes.length / format.octspergrp := length_body bytes

theorem textPlace_eq_add {bytes : List UInt8} (hbytes : bytes.length ≤ format.cols) :
    textPlace format = 9 + (lineBody format options bytes).length + padding format options bytes ∧
      2 ≤ padding format options bytes := by
  have hcols := format.one_le_cols
  have hlength := length_lineBody format options bytes
  have hcolumn := textPlace_eq format
  -- The last group may be full.
  have hgroups : bytes.length / format.octspergrp ≤ (format.cols - 1) / format.octspergrp +
      if format.octspergrp ∣ bytes.length then 1 else 0 := by
    rcases Nat.lt_or_ge bytes.length format.cols with hlt | hge
    · have hle := Nat.div_le_div_right (c := format.octspergrp) (Nat.le_pred_of_lt hlt)
      exact hle.trans (Nat.le_add_right _ _)
    · obtain hfull : bytes.length = format.cols - 1 + 1 := by omega
      rw [hfull, Nat.succ_div]
  rw [padding]
  omega

/-- A byte fits behind the others, and there are two blanks left. -/
theorem two_le_padding {bytes : List UInt8} (hbytes : bytes.length < format.cols) :
    (if format.octspergrp ∣ bytes.length then 1 else 0) + 4 ≤ padding format options bytes := by
  have hlength := length_lineBody format options bytes
  have hcolumn := textPlace_eq format
  have hle := Nat.div_le_div_right (c := format.octspergrp) (Nat.le_pred_of_lt hbytes)
  have hpred : format.cols.pred = format.cols - 1 := rfl
  rw [hpred] at hle
  rw [padding]
  omega

/-- The offset of the line that begins behind so many bytes. -/
def lineOffset (n : ℕ) : ℕ := ((n + options.base) % 2 ^ 32).toNat

/-- The text of bytes. -/
def lineText (bytes : List UInt8) : List Char := bytes.map fun byte => textChar options byte.toNat

/-- The array holds the bytes of a line that begins behind `n` bytes. -/
structure Holds (l : ℕ → Char) (n : ℕ) (bytes : List UInt8) : Prop where
  offset : cells l 0 9 = offsetText (lineOffset options n) ++ [':']
  hex : cells l 9 (textPlace format - 9) =
    lineBody format options bytes ++ List.replicate (padding format options bytes) ' '
  text : cells l (textPlace format) bytes.length = lineText options bytes

variable {format options} {l : ℕ → Char} {n : ℕ} {bytes : List UInt8}

theorem textChar_ne (e : ℕ) : textChar options e ≠ '\x00' ∧ textChar options e ≠ '\n' := by
  have hall : ∀ e < 127, 31 < e → Char.ofNat e ≠ '\x00' ∧ Char.ofNat e ≠ '\n' := by decide
  unfold textChar
  dsimp only
  generalize (if options.ebcdic then (if e < 64 then '.'.toNat else etoa64.getD (e - 64) 0)
    else e) = value
  split_ifs with hprint
  · exact hall _ hprint.2 hprint.1
  · decide

theorem textPlace_le (format : Layout .normal) : textPlace format + format.cols + 1 ≤ LLEN := by
  have hcols : format.cols ≤ 256 := format.cols_le (by decide) (by decide)
  have hcolumn := textPlace_eq format
  have hdiv := Nat.div_le_self (format.cols - 1) format.octspergrp
  have hllen : LLEN = 2573 := rfl
  omega

theorem beginLine_holds (d : Dump) : Holds format options (beginLine options d).l d.n [] where
  offset := by
    have hwhole := Memory.cells_write d.l 0
      ((offsetText (lineOffset options d.n) ++ [':']) ++ ['\x00'])
    have hfront := Memory.cells_of_append 9 1 hwhole rfl
    rw [List.append_assoc] at hfront
    refine (Memory.cells_congr fun i hi => ?_).trans hfront
    exact if_neg fun hboth => by omega
  hex := by
    have hle := textPlace_le format
    refine Memory.cells_eq_replicate fun i hi => ?_
    exact if_pos ⟨by omega, by omega⟩
  text := rfl

/-- Everything is written to its place in the line. -/
theorem store_textPlace (hfits : format.Fits) (l : ℕ → Char) {p : ℕ} {text : List Char}
    (hp : p + text.length ≤ format.cols + 2) :
    store l (column format + p) text = Memory.write l (textPlace format + p) text := by
  have hle := textPlace_le format
  have hllen : LLEN = 2573 := rfl
  rw [column_eq_textPlace hfits, ← Nat.cast_add, store_natCast l (by omega)]

theorem putDigits_eq (hfits : format.Fits) (l : ℕ → Char) {p : ℕ} (hp : p < format.cols)
    (e : ℕ) :
    putDigits format options l p e =
      Memory.write l (digitPlace format p) (digits options.upper e) := by
  have hproduct : grplen format * p < 2 ^ 15 :=
    Nat.lt_of_le_of_lt (Nat.mul_le_mul_left _ (Nat.le_of_lt hp)) hfits.cols
  have hcols : format.cols ≤ 256 := format.cols_le (by decide) (by decide)
  have hplace := digitPlace_eq format p
  have hdiv := Nat.div_le_self p format.octspergrp
  have htwo : digitPlace format p + (digits options.upper e).length ≤ 2 ^ 16 := by
    rw [digits, List.length_cons, List.length_singleton]
    omega
  rw [putDigits, place_eq_digitPlace hproduct]
  exact store_natCast l htwo

theorem Holds.add (hholds : Holds format options l n bytes) (hfits : format.Fits)
    (hbytes : bytes.length < format.cols) (byte : UInt8) :
    Holds format options (store (putDigits format options l bytes.length byte.toNat)
      (column format + bytes.length) [textChar options byte.toNat]) n (bytes ++ [byte]) := by
  obtain ⟨hcolumn, -⟩ := textPlace_eq_add format options (Nat.le_of_lt hbytes)
  have hpadding := two_le_padding format options hbytes
  have hlength := length_lineBody format options bytes
  have hplace := digitPlace_eq format bytes.length
  let gap := if format.octspergrp ∣ bytes.length then 1 else 0
  have hgap : (if format.octspergrp ∣ bytes.length then [' '] else []) =
      List.replicate gap ' ' := by
    simp only [gap]
    split_ifs <;> rfl
  have hbody : lineBody format options (bytes ++ [byte]) =
      lineBody format options bytes ++ List.replicate gap ' ' ++
        digits options.upper byte.toNat := by
    rw [lineBody, body_append, Nat.zero_add, body, body, List.append_nil, hgap, lineBody,
      List.append_assoc]
  have hrest : padding format options bytes =
      gap + (2 + padding format options (bytes ++ [byte])) := by
    have hlonger : (bytes ++ [byte]).length ≤ format.cols := by
      rw [List.length_append]
      exact hbytes
    have hnext := textPlace_eq_add format options hlonger
    rw [hbody, List.length_append, List.length_append, List.length_replicate] at hnext
    have htwo : (digits options.upper byte.toNat).length = 2 := rfl
    omega
  have haddr : digitPlace format bytes.length =
      9 + (lineBody format options bytes ++ List.replicate gap ' ').length := by
    rw [List.length_append, List.length_replicate]
    omega
  have hafter : digitPlace format bytes.length + 2 ≤ textPlace format := by
    rw [haddr, List.length_append, List.length_replicate]
    omega
  rw [putDigits_eq hfits l hbytes, store_textPlace hfits _ (by rw [List.length_singleton]; omega)]
  constructor
  · rw [Memory.cells_write_of_disjoint (.inr (by omega)),
      Memory.cells_write_of_disjoint (.inr (by omega)), hholds.offset]
  · rw [Memory.cells_write_of_disjoint (.inr (by omega)), hbody]
    have hold : cells l 9 (textPlace format - 9) =
        lineBody format options bytes ++ List.replicate gap ' ' ++ [' ', ' '] ++
          List.replicate (padding format options (bytes ++ [byte])) ' ' := by
      rw [hholds.hex, hrest, List.replicate_add, List.replicate_add]
      simp only [List.append_assoc]
      rfl
    exact Memory.cells_write_middle hold haddr rfl
  · rw [List.length_append, List.length_singleton, Memory.cells_add,
      Memory.cells_write_of_disjoint (.inr (by omega)),
      Memory.cells_write_of_disjoint (.inl hafter), hholds.text, lineText, lineText,
      List.map_append]
    exact congrArg _ (Memory.cells_write _ _ [textChar options byte.toNat])

/-- The line as `huntype` reads it. -/
def lineAt (format : Layout .normal) (options : Options) (n : ℕ) (bytes : List UInt8) : Line where
  offset := offsetText (lineOffset options n)
  body := lineBody format options bytes
  bytes := bytes
  tail := List.replicate (padding format options bytes) ' ' ++ lineText options bytes
  offset_ne_nil := List.cons_ne_nil _ _
  digits := nibble_offsetText _
  reads := body_reads 0 bytes
  newline := by
    intro hmem
    rcases List.mem_append.mp hmem with hblank | htext
    · cases List.eq_of_mem_replicate hblank
    · obtain ⟨byte, -, heq⟩ := List.mem_map.mp htext
      exact (textChar_ne byte.toNat).2 heq

/-- A string in an array is what stands before the first NUL. -/
theorem cstring_eq {front : List Char} (count : ℕ) (hcells : cells l 0 count = front)
    (hfront : '\x00' ∉ front) (hnul : l count = '\x00') (hcount : count ≤ LLEN) :
    cstring l = front := by
  obtain ⟨rest, hrest⟩ := Nat.exists_eq_add_of_le hcount
  have hmap : (List.range (LLEN + 1)).map l = cells l 0 (count + (1 + rest)) := by
    rw [cells, hrest, Nat.add_assoc, Nat.add_comm rest]
    simp only [Nat.zero_add]
  rw [cstring, hmap, Memory.cells_add, Memory.cells_add, hcells]
  have hone : cells l (0 + count) 1 = ['\x00'] := by
    rw [Nat.zero_add]
    exact congrArg (fun c => [c]) hnul
  rw [hone, List.takeWhile_append_of_pos]
  · simp
  · intro c hc
    rw [decide_eq_true_iff]
    rintro rfl
    exact hfront hc

theorem body_ne_nul (k : ℕ) (bytes : List UInt8) : '\x00' ∉ body upper group k bytes := by
  induction bytes generalizing k with
  | nil => exact List.not_mem_nil
  | cons byte bytes ih =>
      obtain ⟨hhi, hlo⟩ := nibble_digits upper byte
      intro hmem
      rw [body, List.append_assoc, List.mem_append, List.mem_append] at hmem
      rcases hmem with hgap | hdigits | hrest
      · split_ifs at hgap
        · cases List.mem_singleton.mp hgap
        · cases hgap
      · simp only [digits, List.mem_cons, List.not_mem_nil, or_false] at hdigits
        rcases hdigits with hdigit | hdigit
        · rw [← hdigit] at hhi
          cases hhi
        · rw [← hdigit] at hlo
          cases hlo
      · exact ih (k + 1) hrest

theorem text_ne_nul (n : ℕ) (bytes : List UInt8) :
    '\x00' ∉ (lineAt format options n bytes).text := by
  intro hmem
  simp only [Line.text, lineAt, List.mem_append, List.mem_cons, List.not_mem_nil,
    or_false] at hmem
  rcases hmem with hoffset | hcolon | hbody | (hblank | htext) | hnewline
  · have hdigit := nibble_offsetText _ _ hoffset
    cases hdigit
  · cases hcolon
  · exact body_ne_nul 0 bytes hbody
  · cases List.eq_of_mem_replicate hblank
  · obtain ⟨byte, -, heq⟩ := List.mem_map.mp htext
    exact (textChar_ne byte.toNat).1 heq
  · cases hnewline

/-- The line that is printed. -/
theorem Holds.cstring (hholds : Holds format options l n bytes) (hfits : format.Fits)
    (hbytes : bytes.length ≤ format.cols) :
    cstring (store l (column format + bytes.length) ['\n', '\x00']) =
      (lineAt format options n bytes).text := by
  rw [store_textPlace hfits l (Nat.add_le_add_right hbytes 2)]
  obtain ⟨hcolumn, -⟩ := textPlace_eq_add format options hbytes
  have hle := textPlace_le format
  have hcount : textPlace format + bytes.length + 1 =
      9 + (textPlace format - 9) + bytes.length + 1 := by omega
  have hend : cells (Memory.write l (textPlace format + bytes.length) ['\n', '\x00'])
      (textPlace format + bytes.length) 2 = ['\n', '\x00'] := Memory.cells_write _ _ ['\n', '\x00']
  have hnewline : cells (Memory.write l (textPlace format + bytes.length) ['\n', '\x00'])
      (textPlace format + bytes.length) 1 = ['\n'] := Memory.cells_of_append 1 1 hend rfl
  refine cstring_eq (textPlace format + bytes.length + 1) ?_ (text_ne_nul n bytes) ?_
    (by omega)
  · have hnine : 0 + (9 + (textPlace format - 9)) = textPlace format := by omega
    rw [hcount, Memory.cells_add, Memory.cells_add, Memory.cells_add, hnine,
      Memory.cells_write_of_disjoint (.inr (by omega)),
      Memory.cells_write_of_disjoint (.inr (by omega)),
      Memory.cells_write_of_disjoint (.inr (by omega)), hholds.offset, hholds.hex, hholds.text,
      ← Nat.add_assoc 0, Nat.zero_add, Nat.add_sub_of_le (by omega), hnewline]
    simp [Line.text, lineAt]
  · have hnul := congrArg (fun cells => cells[1]?) hend
    simpa [cells] using hnul

end Normal

end Fip.Xxd
