import Fip.Xxd.Huntype

/-!
# A dump as a list of patches

Each line of a dump has an offset and bytes.  Whatever the order of the lines and whatever
stands behind their bytes, `huntype` writes the bytes of each to the place of its offset.
-/

namespace Fip.Xxd

open Fip.ByteFile

variable {seekable : Bool} {cols : ℕ} {hextype : HexType} {baseOff : ℤ} {h h' : Hunt} {c : Char}
  {input rest : List Char} {f : List UInt8} {place : ℤ}

/-- The loop of `huntype` over a text. -/
def hunt (seekable : Bool) (cols : ℕ) (hextype : HexType) (baseOff : ℤ) (h : Hunt)
    (text : List Char) : Except Hunt Hunt :=
  text.foldlM (huntStep seekable cols hextype baseOff) h

theorem hunt_nil : hunt seekable cols hextype baseOff h [] = .ok h := rfl

theorem hunt_cons (hstep : huntStep seekable cols hextype baseOff h c = .ok h') :
    hunt seekable cols hextype baseOff h (c :: input) =
      hunt seekable cols hextype baseOff h' input := by
  rw [hunt, List.foldlM_cons, hstep]
  rfl

theorem hunt_append (hfront : hunt seekable cols hextype baseOff h input = .ok h') :
    hunt seekable cols hextype baseOff h (input ++ rest) =
      hunt seekable cols hextype baseOff h' rest := by
  rw [hunt, List.foldlM_append]
  rw [hunt] at hfront
  rw [hfront]
  rfl

/-! ## Carriage returns -/

theorem huntStep_return : huntStep seekable cols hextype baseOff h '\r' = .ok h := by
  rw [huntStep]
  by_cases hskip : h.skipping = true
  · rw [if_pos hskip]
    cases h
    simp_all
  · rw [if_neg hskip, if_pos rfl]

/-- Carriage returns are nothing to `huntype`. -/
theorem hunt_filter (h : Hunt) (text : List Char) :
    hunt seekable cols hextype baseOff h (text.filter (· ≠ '\r')) =
      hunt seekable cols hextype baseOff h text := by
  induction text generalizing h with
  | nil => rfl
  | cons c text ih =>
      by_cases hc : c = '\r'
      · subst hc
        rw [List.filter_cons_of_neg (by simp), ih, hunt_cons huntStep_return]
      · rw [List.filter_cons_of_pos (by simpa using hc), hunt, hunt, List.foldlM_cons,
          List.foldlM_cons]
        refine congrArg _ (funext fun h' => ?_)
        exact ih h'

/-! ## The rest of a line -/

theorem hunt_skip (hskip : h.skipping = true) (hinput : '\n' ∉ input) :
    hunt seekable cols hextype baseOff h (input ++ ['\n']) = .ok { h with skipping := false } := by
  induction input with
  | nil =>
      have hstep : huntStep seekable cols hextype baseOff h '\n' =
          .ok { h with skipping := false } := by
        simp [huntStep, hskip]
      rw [List.nil_append, hunt_cons hstep, hunt_nil]
  | cons c input ih =>
      have hc : '\n' ≠ c := List.ne_of_not_mem_cons hinput
      have hinput : '\n' ∉ input := List.not_mem_of_not_mem_cons hinput
      have hstep : huntStep seekable cols hextype baseOff h c = .ok h := by
        rw [huntStep, if_pos hskip]
        cases h
        simp_all [hc.symm]
      rw [List.cons_append, hunt_cons hstep, ih hinput]

/-! ## Where bytes go -/

theorem long_eq {value : ℤ} (hlow : -2 ^ 31 ≤ value) (hhigh : value < 2 ^ 31) :
    long value = value := by
  rw [long]
  exact Int.bmod_eq_of_le_mul_two (by omega) (by omega)

/-- The output is that of a file `f`, and the next byte can be written to a place. -/
structure At (seekable : Bool) (haveOff : ℕ) (fpo f : List UInt8) (place : ℤ) : Prop where
  same : ∀ data ≠ [], pwrite fpo place.toNat data = pwrite f place.toNat data
  nonneg : 0 ≤ place
  reach : seekable = true ∨ fpo.length = haveOff ∧ (haveOff : ℤ) ≤ place

/-- Zeros up to a place behind the end are there anyway. -/
theorem pwrite_zeros {f data : List UInt8} {offset : ℕ} (hdata : data ≠ [])
    (hoffset : f.length ≤ offset) :
    pwrite (pwrite f f.length (List.replicate (offset - f.length) 0)) offset data =
      pwrite f offset data := by
  by_cases hzeros : offset - f.length = 0
  · rw [hzeros, List.replicate_zero, pwrite_nil]
  · have hne : List.replicate (offset - f.length) (0 : UInt8) ≠ [] := by
      simpa [List.replicate_eq_nil_iff] using hzeros
    have hlength : (f ++ List.replicate (offset - f.length) (0 : UInt8)).length = offset := by
      simp
      omega
    have hgap : pwrite f f.length (List.replicate (offset - f.length) 0) =
        f ++ List.replicate (offset - f.length) 0 := by
      rw [pwrite, if_neg hne]
      simp
    rw [hgap, pwrite, if_neg hdata, pwrite, if_neg hdata, hlength, Nat.sub_self,
      List.take_of_length_le (Nat.le_of_eq hlength), List.take_of_length_le hoffset,
      List.drop_of_length_le (by omega), List.drop_of_length_le (by omega)]
    simp

theorem advance_at {haveOff : ℕ} {fpo : List UInt8} (hat : At seekable haveOff fpo f place) :
    ∃ fpo', advance seekable haveOff fpo place = some fpo' ∧
      At seekable place.toNat fpo' f place ∧
        (seekable = true ∨ place = haveOff → fpo' = fpo) := by
  have hnonneg := hat.nonneg
  have hplace : (place.toNat : ℤ) = place := Int.toNat_of_nonneg hnonneg
  by_cases hhere : place = haveOff
  · refine ⟨fpo, if_pos hhere, ⟨hat.same, hnonneg, hat.reach.imp_right ?_⟩, fun _ => rfl⟩
    rintro ⟨hlength, -⟩
    exact ⟨by omega, Int.le_of_eq hplace⟩
  · by_cases hseek : seekable = true
    · refine ⟨fpo, ?_, ⟨hat.same, hnonneg, .inl hseek⟩, fun _ => rfl⟩
      rw [advance, if_neg hhere, if_pos ⟨hseek, hnonneg⟩]
    · obtain ⟨hlength, hle⟩ := hat.reach.resolve_left hseek
      have hgap : (pwrite fpo haveOff (List.replicate (place.toNat - haveOff) 0)).length =
          place.toNat := by
        rw [length_pwrite_max _ _ (by simp; omega), List.length_replicate]
        omega
      refine ⟨pwrite fpo haveOff (List.replicate (place.toNat - haveOff) 0), ?_,
        ⟨?_, hnonneg, .inr ⟨hgap, Int.le_of_eq hplace⟩⟩, fun hsame => absurd hsame ?_⟩
      · rw [advance, if_neg hhere, if_neg (fun hboth => hseek hboth.1), if_neg (by omega)]
      · intro data hdata
        have hzeros := pwrite_zeros hdata (by omega : fpo.length ≤ place.toNat)
        rw [hlength] at hzeros
        exact hzeros.trans (hat.same data hdata)
      · exact not_or.mpr ⟨hseek, hhere⟩

/-! ## One line -/

/-- The number that digits stand for. -/
def number (digits : List Char) : ℕ :=
  digits.foldl (fun value c => value * 16 + (nibble c).getD 0) 0

/-- Characters that stand for bytes: two digits for each, and at most one blank before
them. -/
inductive Reads : List Char → List UInt8 → Prop
  | nil : Reads [] []
  | byte {byte : UInt8} {hi lo : Char} {text bytes}
      (hhi : nibble hi = some (byte.toNat / 16)) (hlo : nibble lo = some (byte.toNat % 16))
      (htext : Reads text bytes) : Reads (hi :: lo :: text) (byte :: bytes)
  | gap {byte : UInt8} {hi lo : Char} {text bytes}
      (hhi : nibble hi = some (byte.toNat / 16)) (hlo : nibble lo = some (byte.toNat % 16))
      (htext : Reads text bytes) : Reads (' ' :: hi :: lo :: text) (byte :: bytes)

/-- A line of a dump: its offset, its bytes, and what follows them. -/
structure Line where
  offset : List Char
  body : List Char
  bytes : List UInt8
  tail : List Char
  offset_ne_nil : offset ≠ []
  digits : ∀ c ∈ offset, (nibble c).isSome
  reads : Reads body bytes
  newline : '\n' ∉ tail

def Line.text (line : Line) : List Char :=
  line.offset ++ ':' :: (line.body ++ (line.tail ++ ['\n']))

/-- In front of a line. -/
structure Idle (cols : ℕ) (h : Hunt) : Prop where
  skipping : h.skipping = false
  ignGarb : h.ignGarb = true
  p : cols ≤ h.p
  n1 : h.n1 = none
  wantOff : h.wantOff = 0

/-- Behind a digit of the offset. -/
structure InOffset (cols : ℕ) (h : Hunt) (value : ℕ) : Prop where
  skipping : h.skipping = false
  ignGarb : h.ignGarb = false
  p : cols ≤ h.p
  n1 : h.n1.isSome
  wantOff : h.wantOff = value

/-- Behind the colon or a byte: so many bytes of the line are read. -/
structure InBody (cols : ℕ) (h : Hunt) (count : ℕ) (wantOff : ℤ) : Prop where
  skipping : h.skipping = false
  ignGarb : h.ignGarb = false
  p : h.p = count
  lt : count < cols
  n1 : h.n1 = none
  n2 : h.n2.isSome
  wantOff : h.wantOff = wantOff

theorem ne_return_of_nibble (hc : (nibble c).isSome) : c ≠ '\r' := by
  rintro rfl
  cases hc

theorem Idle.offset (hidle : Idle cols h) (seekable : Bool) (baseOff : ℤ)
    (hc : (nibble c).isSome)
    (hvalue : (nibble c).getD 0 < 2 ^ 31) :
    ∃ h', huntStep seekable cols .normal baseOff h c = .ok h' ∧
      InOffset cols h' ((nibble c).getD 0) ∧ h'.fpo = h.fpo ∧ h'.haveOff = h.haveOff := by
  obtain ⟨digit, hdigit⟩ := Option.isSome_iff_exists.mp hc
  rw [hdigit, Option.getD_some] at hvalue
  refine ⟨{ h with n1 := some digit, n2 := none, ignGarb := false, wantOff := digit }, ?_,
    ⟨hidle.skipping, rfl, hidle.p, rfl, by rw [hdigit]; rfl⟩, rfl, rfl⟩
  have hlong : long digit = digit := long_eq (by omega) (by omega)
  simp [huntStep, hidle.skipping, ne_return_of_nibble hc, hdigit, hidle.p, hidle.n1,
    hidle.wantOff, hlong]

theorem InOffset.digit {value : ℕ} (hin : InOffset cols h value) (seekable : Bool)
    (baseOff : ℤ) (hc : (nibble c).isSome)
    (hvalue : value * 16 + (nibble c).getD 0 < 2 ^ 31) :
    ∃ h', huntStep seekable cols .normal baseOff h c = .ok h' ∧
      InOffset cols h' (value * 16 + (nibble c).getD 0) ∧ h'.fpo = h.fpo ∧
        h'.haveOff = h.haveOff := by
  obtain ⟨digit, hdigit⟩ := Option.isSome_iff_exists.mp hc
  rw [hdigit, Option.getD_some] at hvalue ⊢
  have hlong : long (value * 16 + (digit : ℤ)) = value * 16 + digit :=
    long_eq (by omega) (by omega)
  refine ⟨{ h with n1 := some digit, n2 := h.n1, wantOff := value * 16 + digit }, ?_,
    ⟨hin.skipping, hin.ignGarb, hin.p, rfl, by push_cast; rfl⟩, rfl, rfl⟩
  simp [huntStep, hin.skipping, ne_return_of_nibble hc, hdigit, hin.p, hin.wantOff, hlong,
    hin.ignGarb]

theorem le_foldl_digits (value : ℕ) (digits : List Char) :
    value ≤ digits.foldl (fun value c => value * 16 + (nibble c).getD 0) value := by
  induction digits generalizing value with
  | nil => exact le_rfl
  | cons c digits ih =>
      refine le_trans ?_ (ih (value * 16 + (nibble c).getD 0))
      omega

theorem InOffset.run {value : ℕ} {digits : List Char} (hin : InOffset cols h value)
    (seekable : Bool) (baseOff : ℤ)
    (hdigits : ∀ c ∈ digits, (nibble c).isSome)
    (hvalue : digits.foldl (fun value c => value * 16 + (nibble c).getD 0) value < 2 ^ 31) :
    ∃ h', hunt seekable cols .normal baseOff h digits = .ok h' ∧
      InOffset cols h' (digits.foldl (fun value c => value * 16 + (nibble c).getD 0) value) ∧
        h'.fpo = h.fpo ∧ h'.haveOff = h.haveOff := by
  induction digits generalizing h value with
  | nil => exact ⟨h, hunt_nil, hin, rfl, rfl⟩
  | cons c digits ih =>
      obtain ⟨hc, hdigits⟩ := List.forall_mem_cons.mp hdigits
      obtain ⟨h', hstep, hin', hfpo, hhave⟩ :=
        hin.digit seekable baseOff hc
          (Nat.lt_of_le_of_lt (le_foldl_digits _ digits) hvalue)
      obtain ⟨h'', hrun, hin'', hfpo', hhave'⟩ := ih hin' hdigits hvalue
      exact ⟨h'', (hunt_cons hstep).trans hrun, hin'', hfpo'.trans hfpo, hhave'.trans hhave⟩

/-- The offset of a line with its colon. -/
theorem Idle.begin (hidle : Idle cols h) (seekable : Bool) (baseOff : ℤ)
    (hcols : 0 < cols) (line : Line)
    (hvalue : number line.offset < 2 ^ 31) :
    ∃ h', hunt seekable cols .normal baseOff h (line.offset ++ [':']) = .ok h' ∧
      InBody cols h' 0 (number line.offset) ∧ h'.fpo = h.fpo ∧ h'.haveOff = h.haveOff := by
  obtain ⟨c, digits, hoffset⟩ := List.exists_cons_of_ne_nil line.offset_ne_nil
  have hdigits := line.digits
  rw [number] at hvalue ⊢
  rw [hoffset] at hdigits hvalue ⊢
  obtain ⟨hc, hdigits⟩ := List.forall_mem_cons.mp hdigits
  rw [List.foldl_cons, Nat.zero_mul, Nat.zero_add] at hvalue ⊢
  obtain ⟨h₁, hstep, hin, hfpo, hhave⟩ :=
    hidle.offset seekable baseOff hc
      (Nat.lt_of_le_of_lt (le_foldl_digits _ digits) hvalue)
  obtain ⟨h₂, hrun, hin, hfpo', hhave'⟩ :=
    hin.run seekable baseOff hdigits hvalue
  have hcolon : huntStep seekable cols .normal baseOff h₂ ':' =
      .ok { h₂ with n1 := none, n2 := h₂.n1, p := 0 } := by
    have hnot : nibble ':' = none := by decide
    simp [huntStep, hin.skipping, hnot, hin.ignGarb, hin.p]
  refine ⟨{ h₂ with n1 := none, n2 := h₂.n1, p := 0 }, ?_,
    ⟨hin.skipping, hin.ignGarb, rfl, hcols, rfl, hin.n1, hin.wantOff⟩,
    hfpo'.trans hfpo, hhave'.trans hhave⟩
  rw [List.cons_append, hunt_cons hstep, hunt_append hrun, hunt_cons hcolon, hunt_nil]

/-- Behind the last byte that fits the columns. -/
structure Behind (cols : ℕ) (h : Hunt) : Prop where
  skipping : h.skipping = true
  ignGarb : h.ignGarb = true
  p : cols ≤ h.p
  n1 : h.n1 = none
  wantOff : h.wantOff = 0

theorem Behind.idle (hbehind : Behind cols h) : Idle cols { h with skipping := false } :=
  ⟨rfl, hbehind.ignGarb, hbehind.p, hbehind.n1, hbehind.wantOff⟩

section Bytes

variable {count : ℕ} {want : ℤ} {byte : UInt8} {bytes : List UInt8}

theorem nibbles_byte (byte : UInt8) :
    UInt8.ofNat ((byte.toNat / 16) <<< 4 ||| byte.toNat % 16) = byte := by
  have hor : (byte.toNat / 16) <<< 4 ||| byte.toNat % 16 = byte.toNat := by
    rw [← Nat.shiftLeft_add_eq_or_of_lt (by omega), Nat.shiftLeft_eq]
    omega
  rw [hor]
  exact UInt8.ofNat_toNat

/-- Characters in front of the last column, where the output gets to the place of the next
byte. -/
theorem huntStep_column (hskip : h.skipping = false) (hp : h.p < cols) (hreturn : c ≠ '\r')
    (hdigit : h.ignGarb = true → (nibble c).isSome) (hwant : long (baseOff + h.wantOff) = place)
    (hat : At seekable h.haveOff h.fpo f place) :
    ∃ fpo, At seekable place.toNat fpo f place ∧
      (seekable = true ∨ place = h.haveOff → fpo = h.fpo) ∧
      huntStep seekable cols .normal baseOff h c =
        (let h' := { h with
          n1 := nibble c, n2 := h.n1, ignGarb := false, haveOff := place.toNat, fpo := fpo }
        match nibble c, h.n1, h.n2 with
        | some lo, some hi, _ => .ok (putByte cols .normal h' hi lo)
        | none, none, none => .ok { h' with wantOff := 0, skipping := true, ignGarb := true }
        | _, _, _ => .ok h') := by
  obtain ⟨fpo, hadvance, hat', hsame⟩ := advance_at hat
  refine ⟨fpo, hat', hsame, ?_⟩
  have hgarb : ¬(nibble c = none ∧ h.ignGarb = true) := by
    rintro ⟨hnone, hgarb⟩
    have hsome := hdigit hgarb
    rw [hnone] at hsome
    cases hsome
  have hnot : ¬(h.p ≥ cols ∧ HexType.normal = .normal) := fun hboth => by omega
  rw [huntStep, if_neg (by rw [hskip]; exact Bool.false_ne_true), if_neg hreturn,
    if_neg (fun hboth => nomatch hboth.1)]
  dsimp only
  rw [if_neg hgarb, if_neg hnot, hwant, if_neg (Nat.not_le.mpr hp), hadvance]
  rfl

/-- In front of a byte: blanks may have been read. -/
structure AtByte (seekable : Bool) (cols : ℕ) (baseOff : ℤ) (h : Hunt) (count : ℕ) (want : ℤ)
    (f : List UInt8) : Prop where
  skipping : h.skipping = false
  ignGarb : h.ignGarb = false
  p : h.p = count
  lt : count < cols
  n1 : h.n1 = none
  wantOff : h.wantOff = want
  nonneg : 0 ≤ want
  fits : want + 1 < 2 ^ 31 ∧ baseOff + want + 1 < 2 ^ 31
  place : At seekable h.haveOff h.fpo f (baseOff + want)

theorem AtByte.long_eq (hbyte : AtByte seekable cols baseOff h count want f) :
    long (baseOff + h.wantOff) = baseOff + want := by
  have hfits := hbyte.fits.2
  have hnonneg := hbyte.place.nonneg
  rw [hbyte.wantOff]
  exact Xxd.long_eq (by omega) (by omega)

theorem AtByte.p_lt (hbyte : AtByte seekable cols baseOff h count want f) : h.p < cols := by
  rw [hbyte.p]
  exact hbyte.lt

/-- A blank between two bytes. -/
theorem AtByte.blank (hbyte : AtByte seekable cols baseOff h count want f)
    (hn2 : h.n2.isSome) :
    ∃ h', huntStep seekable cols .normal baseOff h ' ' = .ok h' ∧
      AtByte seekable cols baseOff h' count want f := by
  obtain ⟨last, hlast⟩ := Option.isSome_iff_exists.mp hn2
  obtain ⟨fpo, hat, -, hstep⟩ := huntStep_column (c := ' ') hbyte.skipping hbyte.p_lt (by decide)
    (fun hgarb => by rw [hbyte.ignGarb] at hgarb; cases hgarb) hbyte.long_eq hbyte.place
  have hnot : nibble ' ' = none := by decide
  rw [hnot, hbyte.n1, hlast] at hstep
  exact ⟨_, hstep, hbyte.skipping, rfl, hbyte.p, hbyte.lt, rfl, hbyte.wantOff, hbyte.nonneg,
    hbyte.fits, hat⟩

/-- The first digit of a byte waits for the second. -/
theorem AtByte.first (hbyte : AtByte seekable cols baseOff h count want f) {digit : ℕ}
    (hdigit : nibble c = some digit) :
    ∃ h', huntStep seekable cols .normal baseOff h c = .ok h' ∧ h'.n1 = some digit ∧
      AtByte seekable cols baseOff { h' with n1 := none } count want f := by
  have hsome : (nibble c).isSome := by rw [hdigit]; rfl
  obtain ⟨fpo, hat, -, hstep⟩ := huntStep_column hbyte.skipping hbyte.p_lt
    (ne_return_of_nibble hsome) (fun _ => hsome) hbyte.long_eq hbyte.place
  rw [hdigit, hbyte.n1] at hstep
  exact ⟨_, hstep, rfl, hbyte.skipping, rfl, hbyte.p, hbyte.lt, rfl, hbyte.wantOff,
    hbyte.nonneg, hbyte.fits, hat⟩

/-- The second digit of a byte. -/
theorem AtByte.second (hbyte : AtByte seekable cols baseOff { h with n1 := none } count want f)
    (hn1 : h.n1 = some (byte.toNat / 16)) (hdigit : nibble c = some (byte.toNat % 16)) :
    ∃ h', huntStep seekable cols .normal baseOff h c = .ok h' ∧
      h'.fpo = pwrite f (baseOff + want).toNat [byte] ∧
        At seekable h'.haveOff h'.fpo h'.fpo (baseOff + want + 1) ∧
          if count + 1 < cols then InBody cols h' (count + 1) (want + 1) else Behind cols h' := by
  have hsome : (nibble c).isSome := by rw [hdigit]; rfl
  have hnonneg := hbyte.place.nonneg
  have hp : h.p = count := hbyte.p
  have hwant : h.wantOff = want := hbyte.wantOff
  obtain ⟨fpo, hat, -, hstep⟩ := huntStep_column (h := h) hbyte.skipping hbyte.p_lt
    (ne_return_of_nibble hsome) (fun _ => hsome) hbyte.long_eq hbyte.place
  rw [hdigit, hn1] at hstep
  have hlong : long (h.wantOff + 1) = want + 1 := by
    rw [hwant]
    exact Xxd.long_eq (by have := hbyte.nonneg; omega) (by have := hbyte.fits.1; omega)
  have hwrite : pwrite fpo (baseOff + want).toNat
      [UInt8.ofNat ((byte.toNat / 16) <<< 4 ||| byte.toNat % 16)] =
        pwrite f (baseOff + want).toNat [byte] := by
    rw [nibbles_byte]
    exact hat.same [byte] (List.cons_ne_nil _ _)
  have hplace : At seekable ((baseOff + want).toNat + 1) (pwrite f (baseOff + want).toNat [byte])
      (pwrite f (baseOff + want).toNat [byte]) (baseOff + want + 1) := by
    refine ⟨fun _ _ => rfl, by omega, hat.reach.imp_right ?_⟩
    rintro ⟨hlength, -⟩
    rw [← hat.same [byte] (List.cons_ne_nil _ _), length_pwrite_max _ _ (List.cons_ne_nil _ _),
      List.length_singleton]
    exact ⟨by omega, by omega⟩
  dsimp only [putByte] at hstep
  rw [hwrite, hlong, hp] at hstep
  by_cases hlast : count + 1 < cols
  · rw [if_neg (fun hboth => absurd hboth.1 (Nat.not_le.mpr hlast))] at hstep
    refine ⟨_, hstep, rfl, hplace, ?_⟩
    rw [if_pos hlast]
    exact ⟨hbyte.skipping, rfl, rfl, hlast, rfl, rfl, rfl⟩
  · rw [if_pos ⟨Nat.not_lt.mp hlast, rfl⟩] at hstep
    refine ⟨_, hstep, rfl, hplace, ?_⟩
    rw [if_neg hlast]
    exact ⟨rfl, rfl, Nat.not_lt.mp hlast, rfl, rfl⟩

/-- Behind so many bytes of a line. -/
structure Past (seekable : Bool) (cols : ℕ) (h : Hunt) (count : ℕ) (want : ℤ) (f : List UInt8)
    (place : ℤ) : Prop where
  fpo : h.fpo = f
  place : At seekable h.haveOff f f place
  column : if count < cols then InBody cols h count want else Behind cols h

theorem AtByte.digits (hbyte : AtByte seekable cols baseOff h count want f) {hi lo : Char}
    (hhi : nibble hi = some (byte.toNat / 16)) (hlo : nibble lo = some (byte.toNat % 16)) :
    ∃ h', (∀ rest, hunt seekable cols .normal baseOff h (hi :: lo :: rest) =
        hunt seekable cols .normal baseOff h' rest) ∧
      Past seekable cols h' (count + 1) (want + 1) (pwrite f (baseOff + want).toNat [byte])
        (baseOff + (want + 1)) := by
  obtain ⟨h₁, hfirst, hn1, hbyte₁⟩ := hbyte.first hhi
  obtain ⟨h₂, hsecond, hfpo, hplace, hcolumn⟩ := hbyte₁.second hn1 hlo
  refine ⟨h₂, fun rest => (hunt_cons hfirst).trans (hunt_cons hsecond), hfpo, ?_, hcolumn⟩
  rw [hfpo, Int.add_assoc] at hplace
  exact hplace

theorem Past.atByte (hpast : Past seekable cols h count want f (baseOff + want))
    (hcount : count < cols) (hwant : 0 ≤ want)
    (hfits : want + 1 < 2 ^ 31 ∧ baseOff + want + 1 < 2 ^ 31) :
    AtByte seekable cols baseOff h count want f ∧ h.n2.isSome := by
  have hin := hpast.column
  rw [if_pos hcount] at hin
  refine ⟨⟨hin.skipping, hin.ignGarb, hin.p, hcount, hin.n1, hin.wantOff, hwant, hfits, ?_⟩, hin.n2⟩
  rw [hpast.fpo]
  exact hpast.place

/-- The bytes that a part of a line stands for are written behind each other. -/
def Written (seekable : Bool) (cols : ℕ) (baseOff : ℤ) (body : List Char)
    (bytes : List UInt8) : Prop :=
  ∀ (h : Hunt) (count : ℕ) (want : ℤ) (f : List UInt8),
    Past seekable cols h count want f (baseOff + want) → 0 ≤ want →
    want + bytes.length < 2 ^ 31 ∧ baseOff + want + bytes.length < 2 ^ 31 →
    count + bytes.length ≤ cols →
    ∃ h', hunt seekable cols .normal baseOff h body = .ok h' ∧
      Past seekable cols h' (count + bytes.length) (want + bytes.length)
        (pwrite f (baseOff + want).toNat bytes) (baseOff + (want + bytes.length))

theorem AtByte.written (hbyte : AtByte seekable cols baseOff h count want f) {hi lo : Char}
    (hhi : nibble hi = some (byte.toNat / 16)) (hlo : nibble lo = some (byte.toNat % 16))
    (hrest : Written seekable cols baseOff rest bytes)
    (hfits : want + (byte :: bytes).length < 2 ^ 31 ∧
      baseOff + want + (byte :: bytes).length < 2 ^ 31)
    (hcount : count + (byte :: bytes).length ≤ cols) :
    ∃ h', hunt seekable cols .normal baseOff h (hi :: lo :: rest) = .ok h' ∧
      Past seekable cols h' (count + (byte :: bytes).length) (want + (byte :: bytes).length)
        (pwrite f (baseOff + want).toNat (byte :: bytes))
        (baseOff + (want + (byte :: bytes).length)) := by
  have hnonneg := hbyte.nonneg
  have hplace := hbyte.place.nonneg
  rw [List.length_cons] at hfits hcount ⊢
  push_cast at hfits ⊢
  obtain ⟨h₁, hdigits, hpast⟩ := hbyte.digits hhi hlo
  obtain ⟨h₂, hrun, hpast⟩ := hrest h₁ _ _ _ hpast (by omega) (by omega) (by omega)
  refine ⟨h₂, (hdigits rest).trans hrun, ?_⟩
  have hnat : (baseOff + (want + 1)).toNat = (baseOff + want).toNat + [byte].length := by
    rw [List.length_singleton]
    omega
  rw [hnat, pwrite_append, List.singleton_append, Nat.add_assoc, Int.add_assoc want] at hpast
  rwa [Nat.add_comm bytes.length, Int.add_comm (bytes.length : ℤ)]

theorem Reads.written (hreads : Reads rest bytes) :
    Written seekable cols baseOff rest bytes := by
  induction hreads with
  | nil =>
      intro h count want f hpast _ _ _
      refine ⟨h, hunt_nil, ?_⟩
      simpa using hpast
  | @byte byte hi lo rest bytes hhi hlo htext ih =>
      intro h count want f hpast hwant hfits hcount
      have hlength : bytes.length + 1 = (byte :: bytes).length := rfl
      obtain ⟨hbyte, -⟩ := hpast.atByte (by omega) hwant (by omega)
      exact hbyte.written hhi hlo ih hfits hcount
  | @gap byte hi lo rest bytes hhi hlo htext ih =>
      intro h count want f hpast hwant hfits hcount
      have hlength : bytes.length + 1 = (byte :: bytes).length := rfl
      obtain ⟨hbyte, hn2⟩ := hpast.atByte (by omega) hwant (by omega)
      obtain ⟨h₁, hblank, hbyte⟩ := hbyte.blank hn2
      obtain ⟨h₂, hrun, hpast⟩ := hbyte.written hhi hlo ih hfits hcount
      exact ⟨h₂, (hunt_cons hblank).trans hrun, hpast⟩

end Bytes

/-! ## Whole dumps -/

/-- What a line does to a file. -/
def Line.patch (baseOff : ℤ) (f : List UInt8) (line : Line) : List UInt8 :=
  pwrite f (baseOff + number line.offset).toNat line.bytes

/-- A line can be written: its place is in the range of a `long`, and not in front of what
was written to a pipe. -/
structure Line.Fits (seekable : Bool) (baseOff : ℤ) (f : List UInt8) (line : Line) : Prop where
  nonneg : 0 ≤ baseOff + number line.offset
  offset : number line.offset + line.bytes.length < 2 ^ 31
  place : baseOff + number line.offset + line.bytes.length < 2 ^ 31
  reach : seekable = true ∨ f.length ≤ baseOff + number line.offset

/-- Between two lines, with the output so far. -/
structure Between (seekable : Bool) (cols : ℕ) (h : Hunt) (f : List UInt8) : Prop where
  idle : Idle cols h
  fpo : h.fpo = f
  reach : seekable = true ∨ f.length = h.haveOff

theorem Between.init (hreach : seekable = true ∨ f = []) :
    Between seekable cols (.init cols f) f :=
  ⟨⟨rfl, rfl, le_rfl, rfl, rfl⟩, rfl, hreach.imp_right fun hnil => by rw [hnil]; rfl⟩

/-- The offset and the bytes of a line. -/
theorem Between.bytes (hbetween : Between seekable cols h f) (line : Line) (hcols : 0 < cols)
    (hfits : line.Fits seekable baseOff f) (hbytes : line.bytes.length ≤ cols) :
    ∃ h', hunt seekable cols .normal baseOff h (line.offset ++ ':' :: line.body) = .ok h' ∧
      Past seekable cols h' line.bytes.length (number line.offset + line.bytes.length)
        (line.patch baseOff f) (baseOff + (number line.offset + line.bytes.length)) := by
  have hoffset := hfits.offset
  have hplace := hfits.place
  obtain ⟨h₁, hbegin, hin, hfpo, hhave⟩ :=
    hbetween.idle.begin seekable baseOff hcols line (by omega)
  have hpast : Past seekable cols h₁ 0 (number line.offset) f
      (baseOff + number line.offset) := by
    refine ⟨hfpo.trans hbetween.fpo, ⟨fun _ _ => rfl, hfits.nonneg, ?_⟩, ?_⟩
    · rw [hhave]
      rcases hbetween.reach with hseek | hlength
      · exact .inl hseek
      · refine hfits.reach.imp_right fun hle => ⟨hlength, ?_⟩
        omega
    · rw [if_pos hcols]
      exact hin
  obtain ⟨h₂, hrun, hpast⟩ := line.reads.written h₁ 0 _ f hpast (by omega) (by omega) (by omega)
  rw [Nat.zero_add] at hpast
  refine ⟨h₂, ?_, hpast⟩
  have hsplit : line.offset ++ ':' :: line.body = (line.offset ++ [':']) ++ line.body := by simp
  rw [hsplit, hunt_append hbegin, hrun]

/-- A line with bytes in all its columns. -/
theorem Between.full (hbetween : Between seekable cols h f) (line : Line) (hcols : 0 < cols)
    (hfits : line.Fits seekable baseOff f) (hfull : line.bytes.length = cols) :
    ∃ h', hunt seekable cols .normal baseOff h line.text = .ok h' ∧
      Between seekable cols h' (line.patch baseOff f) := by
  obtain ⟨h₁, hrun, hpast⟩ := hbetween.bytes line hcols hfits (Nat.le_of_eq hfull)
  have hbehind := hpast.column
  rw [if_neg (by omega)] at hbehind
  have htext : line.text = (line.offset ++ ':' :: line.body) ++ (line.tail ++ ['\n']) := by
    simp [Line.text]
  refine ⟨{ h₁ with skipping := false }, ?_, hbehind.idle, hpast.fpo,
    hpast.place.reach.imp_right And.left⟩
  rw [htext, hunt_append hrun, hunt_skip hbehind.skipping line.newline]

/-- A line with fewer bytes: the rest is skipped behind two blanks. -/
theorem Between.short (hbetween : Between seekable cols h f) (line : Line)
    (hfits : line.Fits seekable baseOff f) (hshort : line.bytes.length < cols)
    (hsome : line.bytes ≠ []) {tail : List Char} (htail : line.tail = ' ' :: ' ' :: tail) :
    ∃ h', hunt seekable cols .normal baseOff h line.text = .ok h' ∧
      h'.fpo = line.patch baseOff f := by
  obtain ⟨h₁, hrun, hpast⟩ :=
    hbetween.bytes line (Nat.zero_lt_of_lt hshort) hfits (Nat.le_of_lt hshort)
  have hin := hpast.column
  rw [if_pos hshort] at hin
  have hplace := hfits.place
  have hnonneg := hfits.nonneg
  have hnot : nibble ' ' = none := by decide
  have hlong : long (baseOff + h₁.wantOff) =
      baseOff + (number line.offset + line.bytes.length) := by
    rw [hin.wantOff]
    exact long_eq (by omega) (by omega)
  have hhere : seekable = true ∨
      baseOff + (number line.offset + line.bytes.length) = h₁.haveOff := by
    refine hpast.place.reach.imp_right ?_
    rintro ⟨hlength, hle⟩
    have hend := le_length_pwrite f (baseOff + number line.offset).toNat hsome
    rw [Line.patch] at hlength
    omega
  obtain ⟨last, hlast⟩ := Option.isSome_iff_exists.mp hin.n2
  have hat := hpast.place
  rw [← hpast.fpo] at hat
  -- The first blank can stand between two bytes, the second cannot.
  have hp : h₁.p < cols := by
    rw [hin.p]
    exact hshort
  obtain ⟨fpo₁, hat₁, hsame₁, hstep₁⟩ := huntStep_column (c := ' ') hin.skipping hp (by decide)
    (fun hgarb => by rw [hin.ignGarb] at hgarb; cases hgarb) hlong hat
  obtain ⟨fpo₂, -, hsame₂, hstep₂⟩ := huntStep_column (c := ' ')
    (h := { h₁ with n1 := none, n2 := none, ignGarb := false,
                    haveOff := (baseOff + (number line.offset + line.bytes.length)).toNat,
                    fpo := fpo₁ })
    hin.skipping hp (by decide) (fun hgarb => nomatch hgarb) hlong hat₁
  rw [hnot, hin.n1, hlast] at hstep₁
  rw [hnot] at hstep₂
  dsimp only at hstep₁ hstep₂
  have hnewline := line.newline
  rw [htail] at hnewline
  have htext : line.text =
      (line.offset ++ ':' :: line.body) ++ ' ' :: ' ' :: (tail ++ ['\n']) := by
    simp [Line.text, htail]
  have hskipped := (hunt_append hrun).trans ((hunt_cons hstep₁).trans ((hunt_cons hstep₂).trans
    (hunt_skip rfl fun hmem => hnewline (.tail _ (.tail _ hmem)))))
  rw [← htext] at hskipped
  have hfpo := hsame₂ (hhere.imp_right fun _ => (Int.toNat_of_nonneg (by omega)).symm)
  exact ⟨_, hskipped, hfpo.trans ((hsame₁ hhere).trans hpast.fpo)⟩

/-- A text without digits between the lines. -/
theorem Between.note (hbetween : Between seekable cols h f) (baseOff : ℤ) {note : List Char}
    (hnote : ∀ c ∈ note, nibble c = none) :
    ∃ h', hunt seekable cols .normal baseOff h note = .ok h' ∧ Between seekable cols h' f := by
  induction note generalizing h with
  | nil => exact ⟨h, hunt_nil, hbetween⟩
  | cons c note ih =>
      obtain ⟨hc, hrest⟩ := List.forall_mem_cons.mp hnote
      have hidle := hbetween.idle
      by_cases hreturn : c = '\r'
      · subst hreturn
        obtain ⟨h', hrun, hbetween⟩ := ih hbetween hrest
        exact ⟨h', (hunt_cons huntStep_return).trans hrun, hbetween⟩
      · have hstep : huntStep seekable cols .normal baseOff h c =
            .ok { h with n1 := none, n2 := none } := by
          simp [huntStep, hidle.skipping, hreturn, hc, hidle.ignGarb, hidle.n1]
        obtain ⟨h', hrun, hbetween⟩ := ih (h := { h with n1 := none, n2 := none })
          ⟨⟨hidle.skipping, hidle.ignGarb, hidle.p, rfl, hidle.wantOff⟩, hbetween.fpo,
            hbetween.reach⟩ hrest
        exact ⟨h', (hunt_cons hstep).trans hrun, hbetween⟩

/-- What a dump consists of: lines, and texts between them without a digit. -/
inductive Item
  | entry (line : Line)
  | note (text : List Char) (plain : ∀ c ∈ text, nibble c = none)

/-- The line that stands for lines of zeroes. -/
def star : Item := .note ['*', '\n'] <| by
  intro c hc
  rcases List.mem_pair.mp hc with rfl | rfl <;> rfl

def Item.text : Item → List Char
  | .entry line => line.text
  | .note text _ => text

def Item.patch (baseOff : ℤ) (f : List UInt8) : Item → List UInt8
  | .entry line => line.patch baseOff f
  | .note _ _ => f

/-- All lines have bytes in all columns and can be written, one after the other. -/
def Full (seekable : Bool) (cols : ℕ) (baseOff : ℤ) : List UInt8 → List Item → Prop
  | _, [] => True
  | f, .entry line :: items =>
      line.bytes.length = cols ∧ line.Fits seekable baseOff f ∧
        Full seekable cols baseOff (line.patch baseOff f) items
  | f, .note _ _ :: items => Full seekable cols baseOff f items

theorem Between.items (hbetween : Between seekable cols h f) (hcols : 0 < cols)
    {items : List Item} (hfull : Full seekable cols baseOff f items) :
    ∃ h', hunt seekable cols .normal baseOff h (items.flatMap Item.text) = .ok h' ∧
      Between seekable cols h' (items.foldl (Item.patch baseOff) f) := by
  induction items generalizing h f with
  | nil => exact ⟨h, hunt_nil, hbetween⟩
  | cons item items ih =>
      cases item with
      | entry line =>
          obtain ⟨hbytes, hfits, hfull⟩ := hfull
          obtain ⟨h₁, hrun, hbetween⟩ := hbetween.full line hcols hfits hbytes
          obtain ⟨h₂, hrest, hbetween⟩ := ih hbetween hfull
          rw [List.flatMap_cons]
          exact ⟨h₂, (hunt_append hrun).trans hrest, hbetween⟩
      | note text hplain =>
          obtain ⟨h₁, hrun, hbetween⟩ := hbetween.note baseOff hplain
          obtain ⟨h₂, hrest, hbetween⟩ := ih hbetween hfull
          rw [List.flatMap_cons]
          exact ⟨h₂, (hunt_append hrun).trans hrest, hbetween⟩

theorem huntype_of_hunt {f' : List UInt8} {text : List Char}
    (hrun : hunt seekable cols hextype baseOff (.init cols f) text = .ok h)
    (hfpo : h.fpo = f') : huntype seekable cols hextype baseOff text f = (0, f') := by
  rw [hunt] at hrun
  rw [huntype, hrun]
  exact congrArg _ hfpo

theorem huntype_filter (text : List Char) (f : List UInt8) :
    huntype seekable cols hextype baseOff (text.filter (· ≠ '\r')) f =
      huntype seekable cols hextype baseOff text f := by
  have hfilter : hunt seekable cols hextype baseOff (.init cols f) (text.filter (· ≠ '\r')) =
      hunt seekable cols hextype baseOff (.init cols f) text := hunt_filter _ text
  rw [hunt, hunt] at hfilter
  rw [huntype, huntype, hfilter]

/-- The last line of a dump may have fewer bytes than there are columns, with two blanks behind
them. -/
structure Short (seekable : Bool) (cols : ℕ) (baseOff : ℤ) (f : List UInt8) (line : Line) :
    Prop where
  fits : line.Fits seekable baseOff f
  ne_nil : line.bytes ≠ []
  length : line.bytes.length < cols
  blanks : ∃ tail, line.tail = ' ' :: ' ' :: tail

theorem huntype_patches {items : List Item} (last : Option Line) (hcols : 0 < cols)
    (hreach : seekable = true ∨ f = []) (hfull : Full seekable cols baseOff f items)
    (hlast : ∀ line ∈ last,
      Short seekable cols baseOff (items.foldl (Item.patch baseOff) f) line) :
    huntype seekable cols .normal baseOff (items.flatMap Item.text ++ last.elim [] Line.text) f =
      (0, last.elim (items.foldl (Item.patch baseOff) f)
        (Line.patch baseOff (items.foldl (Item.patch baseOff) f))) := by
  obtain ⟨h₁, hrun, hbetween⟩ := (Between.init hreach).items hcols hfull
  cases last with
  | none =>
      rw [Option.elim_none, List.append_nil]
      exact huntype_of_hunt hrun hbetween.fpo
  | some line =>
      obtain ⟨hfits, hsome, hshort, tail, htail⟩ := hlast line rfl
      obtain ⟨h₂, hrest, hfpo⟩ := hbetween.short line hfits hshort hsome htail
      exact huntype_of_hunt ((hunt_append hrun).trans hrest) hfpo

/-- A dump that was edited is a list of patches: its lines are applied one after the other, in
whatever order they stand, whatever follows their bytes, and with carriage returns or without. -/
theorem huntype_items {text : List Char} {items : List Item} {last : Option Line}
    (hcols : 0 < cols) (hreach : seekable = true ∨ f = [])
    (hfull : Full seekable cols baseOff f items)
    (hlast : ∀ line ∈ last,
      Short seekable cols baseOff (items.foldl (Item.patch baseOff) f) line)
    (htext : text.filter (· ≠ '\r') = items.flatMap Item.text ++ last.elim [] Line.text) :
    huntype seekable cols .normal baseOff text f =
      (0, last.elim (items.foldl (Item.patch baseOff) f)
        (Line.patch baseOff (items.foldl (Item.patch baseOff) f))) := by
  rw [← huntype_filter, htext]
  exact huntype_patches last hcols hreach hfull hlast

/-- Two lines, of which the second one is written in front of the first. -/
theorem huntype_items_backwards :
    huntype true 1 .normal 2 "4:41\r\n*\n0: 42  B\n".toList [] =
      (0, [0, 0, 0x42, 0, 0, 0, 0x41]) := by
  let behind : Line := ⟨['4'], ['4', '1'], [0x41], [], by decide, List.all_eq_true.mp rfl,
    .byte rfl rfl .nil, by decide⟩
  let front : Line := ⟨['0'], [' ', '4', '2'], [0x42], "  B".toList, by decide,
    List.all_eq_true.mp rfl, .gap rfl rfl .nil, by decide⟩
  let items : List Item := [.entry behind, star, .entry front]
  have hfull : Full true 1 2 [] items :=
    ⟨rfl, ⟨by decide, by decide, by decide, .inl rfl⟩, rfl,
      ⟨by decide, by decide, by decide, .inl rfl⟩, trivial⟩
  have hlast : ∀ line ∈ (none : Option Line),
      Short true 1 2 (items.foldl (Item.patch 2) []) line := fun _ hmem => nomatch hmem
  exact huntype_items (by decide) (.inl rfl) hfull hlast (by decide)

end Fip.Xxd
