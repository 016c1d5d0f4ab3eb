import Fip.Xxd.Lines

/-!
# Plain dumps

The plain dump of bytes is their digits, and blanks and newlines in it mean nothing to
`huntype`.
-/

namespace Fip.Xxd

open Fip.ByteFile

variable {seekable upper : Bool} {cols : ℕ} {baseOff : ℤ} {h : Hunt} {c : Char} {text : List Char}
  {f bytes : List UInt8} {count : ℕ} {byte : UInt8}

/-- What a plain dump may be laid out with. -/
def isLayout (c : Char) : Bool := c = ' ' ∨ c = '\n' ∨ c = '\t' ∨ c = '\r'

/-! ## The dump -/

/-- A dump without its layout. -/
def plainDigits (upper : Bool) (bytes : List UInt8) : List Char :=
  bytes.flatMap fun byte => digits upper byte.toNat

theorem digits_not_layout (upper : Bool) (byte : UInt8) :
    (digits upper byte.toNat).filter (!isLayout ·) = digits upper byte.toNat := by
  obtain ⟨hhi, hlo⟩ := nibble_digits upper byte
  have hlayout : ∀ c, isLayout c = true → nibble c = none := by
    intro c hc
    simp only [isLayout, Bool.decide_or, Bool.or_eq_true, decide_eq_true_eq] at hc
    rcases hc with rfl | rfl | rfl | rfl <;> decide
  rw [List.filter_eq_self]
  intro c hc
  simp only [digits, List.mem_cons, List.not_mem_nil, or_false] at hc
  rw [Bool.not_eq_true', Bool.eq_false_iff]
  intro hblank
  have hnone := hlayout c hblank
  rcases hc with rfl | rfl
  · rw [hhi] at hnone
    cases hnone
  · rw [hlo] at hnone
    cases hnone

theorem filter_foldl_plainByte (upper : Bool) (cols : ℕ) (bytes : List UInt8) (p : ℕ)
    (fpo : List Char) :
    (bytes.foldl (plainByte upper cols) (p, fpo)).2.filter (!isLayout ·) =
      fpo.filter (!isLayout ·) ++ plainDigits upper bytes := by
  induction bytes generalizing p fpo with
  | nil => simp [plainDigits]
  | cons byte bytes ih =>
      have hdigits := digits_not_layout upper byte
      have hnewline : ['\n'].filter (!isLayout ·) = [] := by decide
      rw [List.foldl_cons, plainByte]
      split_ifs
      · rw [ih, List.filter_append, List.filter_append, hnewline, List.append_nil,
          List.append_assoc]
        exact congrArg _ (congrArg (· ++ _) hdigits)
      · rw [ih, List.filter_append, List.append_assoc]
        exact congrArg _ (congrArg (· ++ _) hdigits)

theorem filter_plain (upper : Bool) (cols : ℕ) (bytes : List UInt8) :
    (plain upper cols bytes).filter (!isLayout ·) = plainDigits upper bytes := by
  have hfold := filter_foldl_plainByte upper cols bytes cols []
  rw [plain]
  generalize bytes.foldl (plainByte upper cols) (cols, []) = last at hfold ⊢
  obtain ⟨p, fpo⟩ := last
  dsimp only at hfold ⊢
  split_ifs
  · have hnewline : ['\n'].filter (!isLayout ·) = [] := by decide
    rw [List.filter_append, hnewline, List.append_nil, hfold]
    rfl
  · exact hfold

/-! ## Reverting -/

theorem huntStep_layout (hc : isLayout c = true) (hskip : h.skipping = false) :
    huntStep seekable cols .postscript baseOff h c = .ok h := by
  simp only [isLayout, Bool.decide_or, Bool.or_eq_true, decide_eq_true_eq] at hc
  rw [huntStep, if_neg (by rw [hskip]; exact Bool.false_ne_true)]
  rcases hc with rfl | rfl | rfl | rfl
  · rw [if_neg (by decide), if_pos ⟨rfl, .inl rfl⟩]
  · rw [if_neg (by decide), if_pos ⟨rfl, .inr (.inl rfl)⟩]
  · rw [if_neg (by decide), if_pos ⟨rfl, .inr (.inr rfl)⟩]
  · exact if_pos rfl

/-- Behind so many bytes, and behind the first digit of the next one. -/
structure InPlain (seekable : Bool) (baseOff : ℤ) (h : Hunt) (count : ℕ) (first : Option ℕ)
    (f : List UInt8) : Prop where
  skipping : h.skipping = false
  n1 : h.n1 = first
  wantOff : h.wantOff = count
  place : At seekable h.haveOff h.fpo f (baseOff + count)

theorem InPlain.init (cols : ℕ) (hstart : 0 ≤ baseOff) (hreach : seekable = true ∨ f = []) :
    InPlain seekable baseOff (.init cols f) 0 none f := by
  refine ⟨rfl, rfl, rfl, fun _ _ => rfl, by simpa using hstart, hreach.imp_right ?_⟩
  rintro rfl
  have hzero : ((0 : ℕ) : ℤ) ≤ baseOff + (0 : ℕ) := by simpa using hstart
  exact ⟨rfl, hzero⟩

section Digits

variable (hrange : 0 ≤ baseOff) (hfits : baseOff + count + 1 < 2 ^ 31) {digit : ℕ}
  (hdigit : nibble c = some digit)
include hrange hfits hdigit

/-- A digit is read wherever it stands in its line. -/
theorem huntStep_digit (cols : ℕ) {first : Option ℕ}
    (hin : InPlain seekable baseOff h count first f) :
    ∃ fpo p, At seekable (baseOff + count).toNat fpo f (baseOff + count) ∧
      huntStep seekable cols .postscript baseOff h c =
        (let h' := { h with
          n1 := some digit, n2 := first, ignGarb := false, p := p,
          haveOff := (baseOff + count).toNat, fpo := fpo }
        first.elim (.ok h') fun hi => .ok (putByte cols .postscript h' hi digit)) := by
  have hlong : long (baseOff + h.wantOff) = baseOff + count := by
    rw [hin.wantOff]
    exact long_eq (by omega) (by omega)
  obtain ⟨fpo, hadvance, hat, -⟩ := advance_at hin.place
  refine ⟨fpo, if h.p ≥ cols then 0 else h.p, hat, ?_⟩
  have hblank : ¬(HexType.postscript = .postscript ∧ (c = ' ' ∨ c = '\n' ∨ c = '\t')) := by
    rintro ⟨-, rfl | rfl | rfl⟩ <;> cases hdigit
  have hreturn : c ≠ '\r' := ne_return_of_nibble (by rw [hdigit]; rfl)
  rw [huntStep, if_neg (by rw [hin.skipping]; exact Bool.false_ne_true), if_neg hreturn,
    if_neg hblank, hdigit, hin.n1]
  dsimp only
  rw [if_neg (by simp), if_neg (by simp), hlong, hadvance]
  cases first <;> rfl

end Digits

/-- The digits of a byte, each behind what is left out. -/
theorem InPlain.digit {first : Option ℕ} (hin : InPlain seekable baseOff h count first f)
    (cols : ℕ) (byte : UInt8) (hrange : 0 ≤ baseOff) (hfits : baseOff + count + 1 < 2 ^ 31) :
    (first = none → nibble c = some (byte.toNat / 16) →
      ∃ h', huntStep seekable cols .postscript baseOff h c = .ok h' ∧
        InPlain seekable baseOff h' count (some (byte.toNat / 16)) f) ∧
      (first = some (byte.toNat / 16) → nibble c = some (byte.toNat % 16) →
        ∃ h', huntStep seekable cols .postscript baseOff h c = .ok h' ∧
          h'.fpo = pwrite f (baseOff + count).toNat [byte] ∧
            InPlain seekable baseOff h' (count + 1) none h'.fpo) := by
  constructor
  · rintro rfl hdigit
    obtain ⟨fpo, p, hat, hstep⟩ := huntStep_digit hrange hfits hdigit cols hin
    exact ⟨_, hstep, hin.skipping, rfl, hin.wantOff, hat⟩
  · rintro rfl hdigit
    obtain ⟨fpo, p, hat, hstep⟩ := huntStep_digit hrange hfits hdigit cols hin
    have hwrite : pwrite fpo (baseOff + count).toNat
        [UInt8.ofNat ((byte.toNat / 16) <<< 4 ||| byte.toNat % 16)] =
          pwrite f (baseOff + count).toNat [byte] := by
      rw [nibbles_byte]
      exact hat.same [byte] (List.cons_ne_nil _ _)
    have hlong : long (h.wantOff + 1) = (count + 1 : ℕ) := by
      rw [hin.wantOff]
      exact long_eq (by omega) (by omega)
    dsimp only [putByte, Option.elim_some] at hstep
    rw [if_neg (by simp), hwrite, hlong] at hstep
    refine ⟨_, hstep, rfl, hin.skipping, rfl, rfl, fun _ _ => rfl, by push_cast; omega,
      hat.reach.imp_right ?_⟩
    rintro ⟨hlength, -⟩
    dsimp only
    rw [← hat.same [byte] (List.cons_ne_nil _ _), length_pwrite_max _ _ (List.cons_ne_nil _ _),
      List.length_singleton]
    push_cast
    omega

theorem hunt_layout {blanks : List Char} (hblanks : ∀ c ∈ blanks, ¬(!isLayout c) = true)
    (hskip : h.skipping = false) (rest : List Char) :
    hunt seekable cols .postscript baseOff h (blanks ++ rest) =
      hunt seekable cols .postscript baseOff h rest := by
  induction blanks with
  | nil => rfl
  | cons c blanks ih =>
      obtain ⟨hc, hblanks⟩ := List.forall_mem_cons.mp hblanks
      have hlayout : isLayout c = true := by simpa using hc
      rw [List.cons_append, hunt_cons (huntStep_layout hlayout hskip), ih hblanks]

/-- The digits of bytes are read, whatever the layout. -/
theorem InPlain.run (hin : InPlain seekable baseOff h count none f) (hfpo : h.fpo = f)
    (hrange : 0 ≤ baseOff) (hfits : baseOff + count + bytes.length < 2 ^ 31)
    (htext : text.filter (!isLayout ·) = plainDigits upper bytes) :
    ∃ h', hunt seekable cols .postscript baseOff h text = .ok h' ∧
      h'.fpo = pwrite f (baseOff + count).toNat bytes := by
  induction bytes generalizing h count f text with
  | nil =>
      have hblanks : ∀ c ∈ text, ¬(!isLayout c) = true := List.filter_eq_nil_iff.mp htext
      have hrun : hunt seekable cols .postscript baseOff h (text ++ []) = .ok h :=
        hunt_layout hblanks hin.skipping []
      rw [List.append_nil] at hrun
      exact ⟨h, hrun, by rw [pwrite_nil, hfpo]⟩
  | cons byte bytes ih =>
      obtain ⟨hhi, hlo⟩ := nibble_digits upper byte
      rw [plainDigits, List.flatMap_cons, digits, List.cons_append, List.cons_append,
        List.nil_append] at htext
      obtain ⟨blanks, text₁, rfl, hblanks, -, htext⟩ := List.filter_eq_cons_iff.mp htext
      obtain ⟨blanks', text₂, rfl, hblanks', -, htext⟩ := List.filter_eq_cons_iff.mp htext
      rw [List.length_cons] at hfits
      push_cast at hfits
      obtain ⟨h₁, hstep₁, hin₁⟩ :=
        (hin.digit cols byte hrange (by omega)).1 rfl hhi
      obtain ⟨h₂, hstep₂, hfpo₂, hin₂⟩ :=
        (hin₁.digit cols byte hrange (by omega)).2 rfl hlo
      obtain ⟨h₃, hrun, hfpo₃⟩ := ih hin₂ rfl (by push_cast; omega) htext
      refine ⟨h₃, ?_, ?_⟩
      · rw [hunt_layout hblanks hin.skipping, hunt_cons hstep₁,
          hunt_layout hblanks' hin₁.skipping, hunt_cons hstep₂, hrun]
      · have hplace : (baseOff + (count + 1 : ℕ)).toNat =
            (baseOff + count).toNat + [byte].length := by
          rw [List.length_singleton]
          omega
        rw [hfpo₃, hfpo₂, hplace, pwrite_append, List.singleton_append]

/-- A plain dump is reverted whatever its columns and the columns that `huntype` is told, and
whatever blanks and line ends are put into it or taken out. -/
theorem huntype_plain {columns : ℕ} (hrange : 0 ≤ baseOff)
    (hfits : baseOff + bytes.length < 2 ^ 31) (hreach : seekable = true ∨ f = [])
    (htext : text.filter (!isLayout ·) = (plain upper columns bytes).filter (!isLayout ·)) :
    huntype seekable cols .postscript baseOff text f = (0, pwrite f baseOff.toNat bytes) := by
  rw [filter_plain] at htext
  obtain ⟨h, hrun, hfpo⟩ := (InPlain.init cols hrange hreach).run rfl hrange
    (by simpa using hfits) htext
  refine huntype_of_hunt hrun ?_
  simpa using hfpo

theorem huntype_plain_lines :
    huntype false 30 .postscript 0 "414\n24 3\r\n".toList [] = (0, [0x41, 0x42, 0x43]) := by
  have htext : "414\n24 3\r\n".toList.filter (!isLayout ·) =
      (plain false 2 [0x41, 0x42, 0x43]).filter (!isLayout ·) := by decide
  exact huntype_plain le_rfl (by decide) (.inr rfl) htext

end Fip.Xxd
