import Fip.Core.Scan
import Mathlib.Data.Int.Notation
import Mathlib.Data.List.Induction

/-!
# The input line of the IRC client

`inproc` edits the line in `ibuf` key by key.  What it sends to the terminal is left
out, and with it `x`, which is never set and decides about nothing else; but the line is
itself the format of `printf`, and what it asks for matters.

A full line takes no key any more, not even the newline, and `scrl`, which follows the
line to the right, does not come back when the line is erased.
-/

namespace Fip.Firc.Editor

/-- `IMAX` -/
def imax : ℕ := 512

def backspace : UInt8 := 0x08

def newline : UInt8 := 0x0a

/-- `ibuf`, and how far `iptr` and `scrl` are behind its start. -/
structure Input where
  ibuf : ℕ → UInt8
  iptr : ℕ
  scrl : ℕ

def Input.start : Input := ⟨fun _ => 0, 0, 0⟩

/-- The bytes of `ibuf`. -/
def Input.bytes (s : Input) : List UInt8 := (List.range imax).map s.ibuf

/-- A text that `printf` can take as its format without another argument: each `%` is
followed by a second one, which makes it print a `%`. -/
def Plain : List UInt8 → Prop
  | [] => True
  | [c] => c ≠ 0x25
  | c :: d :: rest => if c = 0x25 then d = 0x25 ∧ Plain rest else Plain (d :: rest)

instance decidablePlain : (text : List UInt8) → Decidable (Plain text)
  | [] => inferInstanceAs (Decidable True)
  | [c] => inferInstanceAs (Decidable (c ≠ 0x25))
  | c :: d :: rest =>
      have := decidablePlain rest
      have := decidablePlain (d :: rest)
      inferInstanceAs (Decidable (if c = 0x25 then d = 0x25 ∧ Plain rest else Plain (d :: rest)))

/-- `*iptr = 0`, and `printf( scrl )`: the line from `scrl` on is the format.  Where it asks
for an argument, or no NUL ends it in `ibuf`, there is no result. -/
def Input.iprint (s : Input) : Option Input :=
  let s := { s with ibuf := Function.update s.ibuf s.iptr 0 }
  if 0 ∈ s.bytes.drop s.scrl ∧ Plain (stringAt s.bytes s.scrl) then some s else none

/-- Process newly received stdin keys. -/
def inproc (s : Input) (c : UInt8) : Option (ℤ × Input) :=
  if s.iptr = imax - 1 then some (0, s)
  else if c = backspace then
    if s.iptr = 0 then some (0, s) else some (0, { s with iptr := s.iptr - 1 })
  else if c = newline then
    some (-1, { ibuf := Function.update s.ibuf s.iptr 0, iptr := 0, scrl := 0 })
  else
    let s := { s with ibuf := Function.update s.ibuf s.iptr c, iptr := s.iptr + 1 }
    if s.iptr > 78 then (Input.iprint { s with scrl := s.scrl + 1 }).map (0, ·)
    else some (0, s)

/-- The state behind a sequence of keys. -/
def after (keys : List UInt8) : Option Input :=
  keys.foldlM (fun s c => (inproc s c).map Prod.snd) .start

/-- The characters typed since the last newline, without the erased ones. -/
def typed (keys : List UInt8) : List UInt8 :=
  keys.foldl (fun line c =>
    if c = backspace then line.dropLast else if c = newline then [] else line ++ [c]) []

/-! ## What the editor should keep, and when it does -/

structure Inside (s : Input) : Prop where
  scrl_le : s.scrl ≤ s.iptr
  iptr_le : s.iptr ≤ imax - 1

/-- A newline returns -1 with the line in `ibuf`, terminated, and starts a new one. -/
def Enters (s : Input) (line : List UInt8) : Prop :=
  ∃ s', inproc s newline = some (-1, s') ∧
    (List.range (line.length + 1)).map s'.ibuf = line ++ [0] ∧ s'.iptr = 0 ∧ s'.scrl = 0

/-- The pointers are in order at all times, and every newline enters the line. -/
def Keeps (keys : List UInt8) : Prop :=
  (∀ front rest, keys = front ++ rest → ∃ s, after front = some s ∧ Inside s) ∧
    ∀ front rest, keys = front ++ newline :: rest →
      ∃ s, after front = some s ∧ Enters s (typed front)

/-- The line up to `iptr`. -/
def Input.line (s : Input) : List UInt8 := (List.range s.iptr).map s.ibuf

/-- The newline does not find the line full, no character in front of `scrl` is erased,
and what is shown of a line that is too long for the screen is harmless as a format. -/
structure Safe (s : Input) (c : UInt8) : Prop where
  room : c = newline → s.iptr ≠ imax - 1
  visible : c = backspace → 0 < s.iptr → s.iptr < imax - 1 → s.iptr ≠ s.scrl
  plain : c ≠ backspace → c ≠ newline → 78 ≤ s.iptr → s.iptr < imax - 1 →
    Plain (stringAt (s.line ++ [c]) (s.scrl + 1))

/-- Every key of a sequence is safe when it comes. -/
def AllSafe (keys : List UInt8) : Prop :=
  ∀ front c rest, keys = front ++ c :: rest → ∀ s, after front = some s → Safe s c

/-! ## One key -/

section

variable {s : Input} {c : UInt8} {line : List UInt8}

theorem inproc_full (hfull : s.iptr = imax - 1) (c : UInt8) : inproc s c = some (0, s) :=
  if_pos hfull

theorem inproc_backspace (hroom : s.iptr ≠ imax - 1) :
    inproc s backspace = some (0, { s with iptr := s.iptr - 1 }) := by
  rw [inproc, if_neg hroom, if_pos rfl]
  split
  · next hempty =>
      cases s
      cases hempty
      rfl
  · rfl

theorem inproc_newline (hroom : s.iptr ≠ imax - 1) :
    inproc s newline = some (-1, ⟨Function.update s.ibuf s.iptr 0, 0, 0⟩) := by
  rw [inproc, if_neg hroom, if_neg (by decide), if_pos rfl]

/-- What `printf` gets of a line that ends inside the buffer. -/
theorem iprint_eq (hiptr : s.iptr < imax) (hscrl : s.scrl ≤ s.iptr) :
    s.iprint = if Plain (stringAt s.line s.scrl) then
      some { s with ibuf := Function.update s.ibuf s.iptr 0 } else none := by
  obtain ⟨more, hmore⟩ : ∃ more, Input.bytes { s with ibuf := Function.update s.ibuf s.iptr 0 } =
      s.line ++ 0 :: more := by
    refine ⟨(List.range' (s.iptr + 1) (imax - (s.iptr + 1))).map
      (Function.update s.ibuf s.iptr 0), ?_⟩
    rw [Input.bytes, List.range_eq_range',
      show imax = s.iptr + 1 + (imax - (s.iptr + 1)) by omega, ← List.range'_append_1,
      List.map_append, Nat.zero_add, ← List.range_eq_range', map_update_range_succ,
      List.append_assoc, Nat.add_sub_cancel_left]
    rfl
  have hlength : s.scrl ≤ s.line.length := by
    rwa [Input.line, List.length_map, List.length_range]
  have hshown : stringAt (s.line ++ 0 :: more) s.scrl = stringAt s.line s.scrl := by
    rw [stringAt, List.drop_append_of_le_length hlength, takeWhile_append_nul, stringAt]
  rw [Input.iprint]
  dsimp only
  rw [hmore, hshown, List.drop_append_of_le_length hlength]
  simp

/-- A character is stored behind the line, and what is shown of a line that is too long
for the screen has to be harmless. -/
theorem inproc_character (hroom : s.iptr < imax - 1) (hscrl : s.scrl ≤ s.iptr)
    (hbackspace : c ≠ backspace) (hnewline : c ≠ newline) :
    (∃ s', inproc s c = some (0, s') ∧ s'.iptr = s.iptr + 1 ∧ s'.scrl ≤ s.scrl + 1 ∧
      s'.line = s.line ++ [c] ∧ (78 ≤ s.iptr → Plain (stringAt (s.line ++ [c]) (s.scrl + 1)))) ∨
    inproc s c = none ∧ 78 ≤ s.iptr ∧ ¬ Plain (stringAt (s.line ++ [c]) (s.scrl + 1)) := by
  have hstored : (List.range (s.iptr + 1)).map (Function.update s.ibuf s.iptr c) =
      s.line ++ [c] := map_update_range_succ _ _ _
  rw [inproc, if_neg (Nat.ne_of_lt hroom), if_neg hbackspace, if_neg hnewline]
  dsimp only
  by_cases hlong : s.iptr + 1 > 78
  · rw [if_pos hlong, iprint_eq (Nat.add_lt_of_lt_sub hroom) (Nat.succ_le_succ hscrl), Input.line,
      hstored]
    by_cases hplain : Plain (stringAt (s.line ++ [c]) (s.scrl + 1))
    · rw [if_pos hplain]
      refine .inl ⟨_, rfl, rfl, Nat.le_refl _, ?_, fun _ => hplain⟩
      rw [Input.line, ← hstored]
      exact map_update_range _ _ _
    · rw [if_neg hplain]
      exact .inr ⟨rfl, by omega, hplain⟩
  · rw [if_neg hlong]
    exact .inl ⟨_, rfl, rfl, Nat.le_succ _, hstored, fun hle => absurd hle (by omega)⟩

/-! ## The line in the buffer -/

/-- The pointers are in order, and the line stands in front of `iptr` if it is not
full. -/
structure Tracks (s : Input) (line : List UInt8) : Prop where
  inside : Inside s
  line_eq : s.iptr ≠ imax - 1 → s.line = line

theorem Tracks.inproc (htracks : Tracks s line) (hsafe : Safe s c) :
    ∃ value s', inproc s c = some (value, s') ∧ Tracks s'
      (if c = backspace then line.dropLast else if c = newline then [] else line ++ [c]) := by
  have hle := htracks.inside.iptr_le
  have hscrl := htracks.inside.scrl_le
  by_cases hfull : s.iptr = imax - 1
  · exact ⟨0, s, inproc_full hfull c, htracks.inside, absurd hfull⟩
  have hline := htracks.line_eq hfull
  have hroom : s.iptr < imax - 1 := Nat.lt_of_le_of_ne hle hfull
  by_cases hbackspace : c = backspace
  · rw [hbackspace, if_pos rfl]
    refine ⟨0, _, inproc_backspace hfull, ⟨?_, Nat.le_trans (Nat.sub_le _ _) hle⟩, fun _ => ?_⟩
    · have hvisible := hsafe.visible hbackspace
      change s.scrl ≤ s.iptr - 1
      omega
    · rw [← hline, Input.line, Input.line, ← List.map_dropLast, List.dropLast_eq_take,
        List.length_range, List.take_range, Nat.min_eq_left (Nat.sub_le _ _)]
  rw [if_neg hbackspace]
  by_cases hnewline : c = newline
  · rw [hnewline, if_pos rfl]
    exact ⟨-1, _, inproc_newline hfull, ⟨Nat.le_refl _, Nat.zero_le _⟩, fun _ => rfl⟩
  rw [if_neg hnewline]
  rcases inproc_character hroom hscrl hbackspace hnewline with
    ⟨s', hinproc, hiptr, hscrl', hline', _⟩ | ⟨_, hlong, hformat⟩
  · refine ⟨0, s', hinproc, ⟨?_, ?_⟩, fun _ => by rw [hline', hline]⟩
    · omega
    · omega
  · exact absurd (hsafe.plain hbackspace hnewline hlong hroom) hformat

theorem Tracks.enters (htracks : Tracks s line) (hsafe : Safe s newline) : Enters s line := by
  have hroom := hsafe.room rfl
  have hline := htracks.line_eq hroom
  have hlength : line.length = s.iptr := by
    rw [← hline, Input.line, List.length_map, List.length_range]
  refine ⟨_, inproc_newline hroom, ?_, rfl, rfl⟩
  rw [hlength, map_update_range_succ, ← hline]
  rfl

/-- A key that is not safe breaks the invariant, the line or the run. -/
theorem safe_of_inproc (hinside : Inside s) {value : ℤ} {s' : Input}
    (hinproc : inproc s c = some (value, s')) (hinside' : Inside s')
    (henters : c = newline → Enters s line) : Safe s c := by
  constructor
  case room =>
    rintro rfl hfull
    obtain ⟨entered, hreturn, _⟩ := henters rfl
    rw [inproc_full hfull] at hreturn
    cases hreturn
  case visible =>
    rintro rfl hpos hroom hsame
    rw [inproc_backspace (Nat.ne_of_lt hroom)] at hinproc
    cases hinproc
    have hscrl : s.scrl ≤ s.iptr - 1 := hinside'.scrl_le
    omega
  case plain =>
    intro hbackspace hnewline hlong hroom
    rcases inproc_character hroom hinside.scrl_le hbackspace hnewline with
      ⟨_, _, _, _, _, hplain⟩ | ⟨hnone, _⟩
    · exact hplain hlong
    · rw [hinproc] at hnone
      cases hnone

end

/-! ## Sequences of keys -/

theorem after_concat (keys : List UInt8) (c : UInt8) :
    after (keys ++ [c]) = (after keys).bind fun s => (inproc s c).map Prod.snd := by
  rw [after, List.foldlM_append]
  simp [after]

theorem typed_concat (keys : List UInt8) (c : UInt8) :
    typed (keys ++ [c]) = if c = backspace then (typed keys).dropLast
      else if c = newline then [] else typed keys ++ [c] :=
  List.foldl_concat _ _ _ _

theorem tracks_after {keys : List UInt8} (hsafe : AllSafe keys) :
    ∃ s, after keys = some s ∧ Tracks s (typed keys) := by
  induction keys using List.reverseRecOn with
  | nil => exact ⟨.start, rfl, ⟨Nat.le_refl _, Nat.zero_le _⟩, fun _ => rfl⟩
  | append_singleton keys c ih =>
      have hfront : AllSafe keys := by
        intro front key rest hkeys
        refine hsafe front key (rest ++ [c]) ?_
        rw [hkeys, List.append_assoc, List.cons_append]
      obtain ⟨s, hafter, htracks⟩ := ih hfront
      obtain ⟨value, s', hinproc, htracks'⟩ := htracks.inproc (hsafe keys c [] rfl s hafter)
      refine ⟨s', ?_, ?_⟩
      · rw [after_concat, hafter, Option.bind_some, hinproc]
        rfl
      · rwa [typed_concat]

/-- The editor keeps its invariants exactly if no newline comes when the line is full,
no character in front of `scrl` is erased, and no part of a long line that is shown asks
`printf` for an argument. -/
theorem keeps_iff (keys : List UInt8) : Keeps keys ↔ AllSafe keys := by
  constructor
  · rintro ⟨hinside, henters⟩ front c rest hkeys s hafter
    obtain ⟨s₀, hafter₀, hin⟩ := hinside front (c :: rest) hkeys
    rw [hafter] at hafter₀
    cases hafter₀
    obtain ⟨s', hafter', hin'⟩ := hinside (front ++ [c]) rest (by simp [hkeys])
    rw [after_concat, hafter, Option.bind_some] at hafter'
    obtain ⟨⟨value, s''⟩, hinproc, rfl⟩ := Option.map_eq_some_iff.mp hafter'
    have hentered : c = newline → Enters s (typed front) := by
      rintro rfl
      obtain ⟨s₁, hafter₁, hentered⟩ := henters front rest hkeys
      rw [hafter] at hafter₁
      cases hafter₁
      exact hentered
    exact safe_of_inproc hin hinproc hin' hentered
  · intro hsafe
    have hsafe_front : ∀ front rest, keys = front ++ rest → AllSafe front := by
      intro front rest hkeys first c more hfront
      refine hsafe first c (more ++ rest) ?_
      rw [hkeys, hfront, List.append_assoc, List.cons_append]
    constructor
    · intro front rest hkeys
      obtain ⟨s, hafter, htracks⟩ := tracks_after (hsafe_front front rest hkeys)
      exact ⟨s, hafter, htracks.inside⟩
    · intro front rest hkeys
      obtain ⟨s, hafter, htracks⟩ := tracks_after (hsafe_front front _ hkeys)
      exact ⟨s, hafter, htracks.enters (hsafe front newline rest hkeys s hafter)⟩

/-- A line of 79 characters is typed, which moves `scrl`, and erased again. -/
theorem not_keeps_erased :
    ¬ Keeps (List.replicate 79 0x61 ++ List.replicate 79 backspace) := by
  intro hkeeps
  obtain ⟨s, hafter, hinside⟩ := hkeeps.1 _ [] (List.append_nil _).symm
  have hbehind : (after (List.replicate 79 0x61 ++ List.replicate 79 backspace)).all
      (fun s => decide (s.iptr < s.scrl)) = true := by
    decide +kernel
  rw [hafter, Option.all_some, decide_eq_true_eq] at hbehind
  exact absurd hinside.scrl_le (Nat.not_le.mpr hbehind)

end Fip.Firc.Editor
