import Fip.Decb.Concat

/-!
# Truncated programs

The pass without output needs every byte that the pass with output reads.  A file
that ends too early therefore ends `detoken` before anything of it is printed.
-/

namespace Fip.Decb.Detoken

/-- What is read of a program: all up to the link that ends it. -/
def Program.needed (p : Program) : List UInt8 :=
  0xff :: p.length.bytes ++ p.lines.flatMap Line.bytes ++ [0, 0]

/-- A tokenised file of which only the first `kept` bytes are there. -/
structure Stored where
  program : Program
  kept : ℕ

namespace Stored

def bytes (f : Stored) : List UInt8 :=
  f.program.bytes.take f.kept

/-- Nothing is missing that would be read. -/
def Complete (f : Stored) : Prop :=
  f.program.needed.length ≤ f.kept

instance : DecidablePred Complete :=
  fun f => inferInstanceAs (Decidable (f.program.needed.length ≤ f.kept))

/-- The conversion of the whole program. -/
def text (decimal : ℕ → List UInt8) (unixflg : Bool) (f : Stored) : List UInt8 :=
  File.text decimal unixflg (.program f.program)

/-- The program of a complete file, with what is left behind its end. -/
def remaining (f : Stored) : Program :=
  { f.program with behind := f.program.behind.take (f.kept - f.program.needed.length) }

theorem bytes_of_complete {f : Stored} (hcomplete : f.Complete) :
    f.bytes = f.remaining.bytes := by
  have hneeded : f.program.needed.take f.kept = f.program.needed :=
    List.take_of_length_le hcomplete
  calc
    f.bytes = (f.program.needed ++ f.program.behind).take f.kept := rfl
    _ = f.program.needed ++ f.remaining.behind := by
      rw [List.take_append, hneeded]
      rfl
    _ = f.remaining.bytes := rfl

theorem bytes_of_not_complete {f : Stored} (hshort : f.kept < f.program.needed.length) :
    f.bytes = f.program.needed.take f.kept :=
  List.take_append_of_le_length (Nat.le_of_lt hshort)

end Stored

/-- The conversions of the files before the first one that is truncated, with the
exit code. -/
def converted (decimal : ℕ → List UInt8) (unixflg : Bool) (files : List Stored) : Result :=
  (if ∀ f ∈ files, f.Complete then 0 else 1,
    (files.takeWhile fun f => f.Complete).flatMap (Stored.text decimal unixflg))

section

variable {decimal : ℕ → List UInt8} {unixflg : Bool} {f : Stored}

theorem converted_of_complete (hcomplete : f.Complete) (files : List Stored) :
    converted decimal unixflg (f :: files) =
      ((converted decimal unixflg files).1,
        f.text decimal unixflg ++ (converted decimal unixflg files).2) := by
  have hall : (∀ g ∈ f :: files, g.Complete) ↔ ∀ g ∈ files, g.Complete := by
    rw [List.forall_mem_cons]
    exact and_iff_right hcomplete
  have hbefore : (f :: files).takeWhile (fun g => g.Complete) =
      f :: files.takeWhile fun g => g.Complete :=
    List.takeWhile_cons_of_pos (decide_eq_true hcomplete)
  rw [converted, hbefore, List.flatMap_cons]
  exact Prod.ext (if_congr hall rfl rfl) rfl

theorem converted_of_not_complete (hshort : ¬f.Complete) (files : List Stored) :
    converted decimal unixflg (f :: files) = (1, []) := by
  have hall : ¬∀ g ∈ f :: files, g.Complete :=
    fun hall => hshort (hall f List.mem_cons_self)
  have hbefore : (f :: files).takeWhile (fun g => g.Complete) = [] :=
    List.takeWhile_cons_of_neg fun hcomplete => hshort (of_decide_eq_true hcomplete)
  rw [converted, if_neg hall, hbefore]
  rfl

end

namespace Reader

variable {r : Reader} {n : ℕ}

/-- The file ends in a word. -/
theorem mygetw_short {w : Word} (hvalid : r.Valid) (hrest : r.rest = w.bytes.take n)
    (hshort : n < w.bytes.length) : r.mygetw = none := by
  match n, hshort with
  | 0, _ =>
      rw [mygetw, mygetc_nil hvalid hrest]
      rfl
  | 1, _ =>
      obtain ⟨r', hhigh, hvalid', hrest', _⟩ := mygetc_cons hvalid hrest
      rw [mygetw, hhigh]
      dsimp only [Option.bind_eq_bind, Option.bind_some]
      rw [mygetc_nil hvalid' hrest']
      rfl

end Reader

open Machine

/-- `detoken` ends with an error before anything else is printed. -/
def Fails (fs : String → Option (List UInt8)) (freopen : Option String → Bool)
    (decimal : ℕ → List UInt8) (s : State) (loc : Loc) (r : Reader) : Prop :=
  ∀ out, ∃ fuel, run (step fs freopen decimal) fuel (s.at loc r out) = some (some (1, out))

/-- From one place to another all of `bytes` is read and nothing is printed; a file
that ends in them is an error. -/
structure Needs (fs : String → Option (List UInt8)) (freopen : Option String → Bool)
    (decimal : ℕ → List UInt8) (s : State) (loc next : Loc) (bytes : List UInt8) : Prop where
  whole : ∀ {r : Reader} {more : List UInt8}, r.Valid → r.rest = bytes ++ more →
    Prints fs freopen decimal s loc r next more []
  short : ∀ {r : Reader} {n : ℕ}, r.Valid → r.rest = bytes.take n → n < bytes.length →
    Fails fs freopen decimal s loc r

section

variable {fs : String → Option (List UInt8)} {freopen : Option String → Bool}
  {decimal : ℕ → List UInt8} {s : State} {r : Reader}

theorem fails_step {loc : Loc}
    (hstep : ∀ out, step fs freopen decimal (s.at loc r out) = .inr (some (1, out))) :
    Fails fs freopen decimal s loc r := by
  intro out
  refine ⟨1, ?_⟩
  rw [run, hstep out]

theorem Prints.fails {loc next : Loc} {more : List UInt8}
    (hprints : Prints fs freopen decimal s loc r next more [])
    (hfails : ∀ r', r'.Valid → r'.rest = more → Fails fs freopen decimal s next r') :
    Fails fs freopen decimal s loc r := by
  obtain ⟨r', hvalid, hrest, _, hreaches⟩ := hprints
  intro out
  have hreached := hreaches out
  rw [List.append_nil] at hreached
  obtain ⟨fuel, hrun⟩ := hfails r' hvalid hrest out
  exact hreached.run hrun

namespace Needs

theorem refl (loc : Loc) : Needs fs freopen decimal s loc loc [] where
  whole := by
    intro r more hvalid hrest
    refine ⟨r, hvalid, hrest, rfl, fun out => ?_⟩
    rw [List.append_nil]
    exact .refl
  short := fun _ _ hshort => absurd hshort (Nat.not_lt_zero _)

theorem trans {loc middle next : Loc} {bytes bytes' : List UInt8}
    (hfirst : Needs fs freopen decimal s loc middle bytes)
    (hsecond : Needs fs freopen decimal s middle next bytes') :
    Needs fs freopen decimal s loc next (bytes ++ bytes') where
  whole := by
    intro r more hvalid hrest
    rw [List.append_assoc] at hrest
    exact (hfirst.whole hvalid hrest).trans fun r' => hsecond.whole
  short := by
    intro r n hvalid hrest hshort
    rcases Nat.lt_or_ge n bytes.length with hlt | hle
    · rw [List.take_append_of_le_length (Nat.le_of_lt hlt)] at hrest
      exact hfirst.short hvalid hrest hlt
    · rw [List.take_append, List.take_of_length_le hle] at hrest
      rw [List.length_append] at hshort
      have hlt : n - bytes.length < bytes'.length := Nat.sub_lt_left_of_lt_add hle hshort
      exact (hfirst.whole hvalid hrest).fails fun r' hvalid' hrest' =>
        hsecond.short hvalid' hrest' hlt

/-- One unit after the other. -/
theorem flatMap {α : Type} {loc : Loc} {bytes : α → List UInt8}
    (hneeds : ∀ a, Needs fs freopen decimal s loc loc (bytes a)) (items : List α) :
    Needs fs freopen decimal s loc loc (items.flatMap bytes) := by
  induction items with
  | nil => exact refl loc
  | cons a items ih =>
      rw [List.flatMap_cons]
      exact (hneeds a).trans ih

end Needs

/-- A line ends where nothing is left. -/
theorem fails_body {flag : Bool} (hvalid : r.Valid) (hrest : r.rest = []) :
    Fails fs freopen decimal s (.body false flag) r := by
  refine fails_step fun out => ?_
  change readBody false flag (s.at (.body false flag) r out) = _
  rw [readBody, State.at, Reader.mygetc_nil hvalid hrest]
  rfl

theorem needs_piece (piece : Piece) :
    Needs fs freopen decimal s (.body false false) (.body false false) piece.bytes where
  whole := fun hvalid hrest => prints_piece piece hvalid hrest
  short := by
    intro r n hvalid hrest hshort
    cases n with
    | zero => exact fails_body hvalid hrest
    | succ n =>
        cases piece with
        | char c hascii => exact absurd hshort (Nat.not_lt.mpr (Nat.le_add_left 1 n))
        | primary c htoken htable => exact absurd hshort (Nat.not_lt.mpr (Nat.le_add_left 1 n))
        | secondary c htable =>
            obtain rfl : n = 0 := Nat.lt_one_iff.mp (Nat.lt_of_succ_lt_succ hshort)
            exact (prints_mark hvalid hrest).fails fun r' => fails_body

/-- The link of a line and its number. -/
theorem needs_head (l : Line) :
    Needs fs freopen decimal s (.line false) (.body false false)
      (l.link.bytes ++ l.number.bytes) where
  whole := by
    intro r more hvalid hrest
    rw [List.append_assoc] at hrest
    exact prints_head l hvalid hrest
  short := by
    intro r n hvalid hrest hshort
    refine fails_step fun out => ?_
    change readLine decimal false (s.at (.line false) r out) = _
    rw [readLine, State.at]
    rcases Nat.lt_or_ge n l.link.bytes.length with hlt | hle
    · rw [List.take_append_of_le_length (Nat.le_of_lt hlt)] at hrest
      dsimp only
      rw [Reader.mygetw_short hvalid hrest hlt]
      rfl
    · rw [List.take_append, List.take_of_length_le hle] at hrest
      have hlt : n - l.link.bytes.length < l.number.bytes.length :=
        Nat.sub_lt_left_of_lt_add hle hshort
      obtain ⟨r', hlink, hvalid', hrest', _⟩ := Reader.mygetw_cons hvalid hrest
      rw [hlink]
      dsimp only [State.reading]
      rw [if_neg l.hlink, Reader.mygetw_short hvalid' hrest' hlt]
      rfl

theorem needs_eol :
    Needs fs freopen decimal s (.body false false) (.line false) [0] where
  whole := fun hvalid hrest => prints_eol hvalid hrest
  short := by
    intro r n hvalid hrest hshort
    obtain rfl : n = 0 := Nat.lt_one_iff.mp hshort
    exact fails_body hvalid hrest

theorem needs_line (l : Line) :
    Needs fs freopen decimal s (.line false) (.line false) l.bytes :=
  ((needs_head l).trans (.flatMap needs_piece l.pieces)).trans needs_eol

theorem needs_last :
    Needs fs freopen decimal s (.line false) (.header true) [0, 0] where
  whole := fun hvalid hrest => prints_last hvalid hrest
  short := by
    intro r n hvalid hrest hshort
    have hword : r.rest = (⟨0, 0⟩ : Word).bytes.take n := hrest
    refine fails_step fun out => ?_
    change readLine decimal false (s.at (.line false) r out) = _
    rw [readLine, State.at]
    dsimp only
    rw [Reader.mygetw_short hvalid hword hshort]
    rfl

/-- The lines of a program and the link behind them. -/
theorem needs_lines (p : Program) :
    Needs fs freopen decimal s (.line false) (.header true)
      (p.lines.flatMap Line.bytes ++ [0, 0]) :=
  (Needs.flatMap needs_line p.lines).trans needs_last

/-- A program that ends too early is not even printed in part. -/
theorem fails_program {p : Program} {n : ℕ} (hfile : r.file = p.needed.take n)
    (hshort : n < p.needed.length) :
    Fails fs freopen decimal s (.header false) r := by
  rw [Program.needed, List.append_assoc] at hfile hshort
  have hvalid := Reader.valid_reset r
  have hrest : r.reset.rest = _ := (Reader.rest_reset r).trans hfile
  rcases Nat.lt_or_ge n (0xff :: p.length.bytes).length with hlt | hle
  · rw [List.take_append_of_le_length (Nat.le_of_lt hlt)] at hrest
    refine fails_step fun out => ?_
    change readHeader false (s.at (.header false) r out) = _
    rw [readHeader, State.at]
    dsimp only
    cases n with
    | zero =>
        rw [Reader.mygetc_nil hvalid hrest]
        rfl
    | succ n =>
        obtain ⟨r', hff, hvalid', hrest', _⟩ := Reader.mygetc_cons hvalid hrest
        rw [hff]
        dsimp only [State.reading]
        rw [if_neg (not_not.mpr rfl),
          Reader.mygetw_short hvalid' hrest' (Nat.lt_of_succ_lt_succ hlt)]
        rfl
  · rw [List.take_append, List.take_of_length_le hle] at hrest
    rw [List.length_append] at hshort
    exact (prints_header hrest).fails fun r' hvalid' hrest' =>
      (needs_lines p).short hvalid' hrest' (Nat.sub_lt_left_of_lt_add hle hshort)

/-- The files of the command line, one after the other. -/
theorem prints_stored {inputs : List (String × Stored)}
    (hinputs : ∀ input ∈ inputs, input.1.toList.head? ≠ some '-' ∧
      fs input.1 = some input.2.bytes) (hargs : s.loc = .args)
    (hargv : s.argv = inputs.map Prod.fst) :
    ∃ fuel, run (step fs freopen decimal) fuel s =
      some (some ((converted decimal s.unixflg (inputs.map Prod.snd)).1,
        s.out ++ (converted decimal s.unixflg (inputs.map Prod.snd)).2)) := by
  induction inputs generalizing s with
  | nil =>
      refine ⟨1, ?_⟩
      rw [run, step, hargs]
      dsimp only
      have hnothing : converted decimal s.unixflg (([] : List (String × Stored)).map
          Prod.snd) = (0, []) := rfl
      rw [nextArg, hargv, hnothing, List.append_nil]
      rfl
  | cons input inputs ih =>
      obtain ⟨name, f⟩ := input
      obtain ⟨hname, hopen⟩ := hinputs _ List.mem_cons_self
      have hstep : step fs freopen decimal s = nextArg fs freopen s := by
        rw [step, hargs]
      rw [nextArg_file hname hopen hargv] at hstep
      have hheader : Reaches (step fs freopen decimal) s _ := .single hstep
      rw [List.map_cons]
      by_cases hcomplete : f.Complete
      · have hprints : Prints fs freopen decimal { s with argv := inputs.map Prod.fst }
            (.header false) { s.input with file := f.bytes } .args f.remaining.behind
              (f.text decimal s.unixflg) :=
          prints_program_twice f.remaining (Stored.bytes_of_complete hcomplete)
        obtain ⟨r', _, _, _, hprinted⟩ := hprints
        have hothers : ∃ fuel, run (step fs freopen decimal) fuel
            ({ s with argv := inputs.map Prod.fst }.at .args r'
              (s.out ++ f.text decimal s.unixflg)) = _ :=
          ih (fun other hother => hinputs other (List.mem_cons_of_mem _ hother)) rfl rfl
        obtain ⟨fuel, hrun⟩ := hothers
        have hfirst : Reaches (step fs freopen decimal) s _ := hheader.trans (hprinted s.out)
        rw [converted_of_complete hcomplete, ← List.append_assoc]
        exact hfirst.run hrun
      · have hfails : Fails fs freopen decimal { s with argv := inputs.map Prod.fst }
            (.header false) { s.input with file := f.bytes } :=
          fails_program (Stored.bytes_of_not_complete (Nat.lt_of_not_le hcomplete))
            (Nat.lt_of_not_le hcomplete)
        obtain ⟨fuel, hrun⟩ := hfails s.out
        rw [converted_of_not_complete hcomplete, List.append_nil]
        exact hheader.run hrun

/-- Of each file all is printed, or nothing and `detoken` ends. -/
theorem main_allOrNothing (lflag : Bool) (inputs : List (String × Stored))
    (hinputs : ∀ input ∈ inputs, input.1.toList.head? ≠ some '-' ∧
      fs input.1 = some input.2.bytes) :
    ∃ fuel, run (step fs freopen decimal) fuel
        (start ((if lflag then ["-l"] else []) ++ inputs.map Prod.fst)) =
      some (some (converted decimal lflag (inputs.map Prod.snd))) := by
  cases lflag with
  | false => exact prints_stored hinputs rfl rfl
  | true =>
      have hoption : Reaches (step fs freopen decimal)
          (start (["-l"] ++ inputs.map Prod.fst))
          { start (inputs.map Prod.fst) with unixflg := true } := .single rfl
      obtain ⟨fuel, hrun⟩ : ∃ fuel, run (step fs freopen decimal) fuel
          { start (inputs.map Prod.fst) with unixflg := true } = _ :=
        prints_stored hinputs rfl rfl
      exact hoption.run hrun

end

/-- The line `0 A`. -/
def letterA : Program where
  length := ⟨0, 7⟩
  lines := [{
    link := ⟨0x26, 8⟩
    hlink := by decide
    number := ⟨0, 0⟩
    pieces := [.char 0x41 (by decide)] }]
  behind := []

/-- A whole file and one without its last byte. -/
def wholeAndCut : List (String × Stored) :=
  [("a", ⟨letterA, 11⟩), ("b", ⟨letterA, 10⟩)]

def wholeAndCutFs (name : String) : Option (List UInt8) :=
  if name = "a" then some (letterA.bytes.take 11)
  else if name = "b" then some (letterA.bytes.take 10) else none

theorem main_allOrNothing_wholeAndCut :
    ∃ fuel, run (step wholeAndCutFs (fun _ => true) fun _ => [0x30]) fuel
      (start ["a", "b"]) = some (some (1, [0x30, 0x20, 0x41, 0x0d])) :=
  main_allOrNothing false wholeAndCut (by decide)

end Fip.Decb.Detoken
