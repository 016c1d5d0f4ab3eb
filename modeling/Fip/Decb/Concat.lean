import Fip.Decb.Detoken

/-!
# What `detoken` prints

A tokenised program is lines of characters and tokens; its text is that of the
lines.  The texts of the files are printed one after the other up to the first file
that is not tokenised, which is the last one.
-/

namespace Fip.Decb.Detoken

/-- A character of a line, a primary token, or a secondary token behind 0xff. -/
inductive Piece where
  | char (c : UInt8) (hascii : c &&& 0x80 = 0 ∧ c ≠ 0)
  | primary (c : UInt8) (htoken : c &&& 0x80 ≠ 0 ∧ c ≠ 0xff)
      (htable : (c &&& 0x7f).toNat < tokens.length)
  | secondary (c : UInt8) (htable : (c &&& 0x7f).toNat < second.length)

namespace Piece

def bytes : Piece → List UInt8
  | char c _ => [c]
  | primary c _ _ => [c]
  | secondary c _ => [0xff, c]

def text : Piece → List UInt8
  | char c _ => [c]
  | primary c _ htable => bytesOf tokens[(c &&& 0x7f).toNat]
  | secondary c htable => bytesOf second[(c &&& 0x7f).toNat]

end Piece

/-- A big endian word. -/
structure Word where
  high : UInt8
  low : UInt8

namespace Word

def value (w : Word) : ℕ :=
  w.high.toNat * 256 + w.low.toNat

def bytes (w : Word) : List UInt8 :=
  [w.high, w.low]

end Word

/-- A line: the link, which is not zero, the line number, and what is in it. -/
structure Line where
  link : Word
  hlink : link.value ≠ 0
  number : Word
  pieces : List Piece

/-- A tokenised program: its length, its lines, and whatever stands behind the link
that ends it. -/
structure Program where
  length : Word
  lines : List Line
  behind : List UInt8

/-- An input file; it is not empty, and 0xff is the first byte of tokenised ones
only. -/
inductive File where
  | program (p : Program)
  | plain (first : UInt8) (bytes : List UInt8) (hfirst : first ≠ 0xff)

def Line.bytes (l : Line) : List UInt8 :=
  l.link.bytes ++ l.number.bytes ++ l.pieces.flatMap Piece.bytes ++ [0]

def Program.bytes (p : Program) : List UInt8 :=
  0xff :: p.length.bytes ++ p.lines.flatMap Line.bytes ++ [0, 0] ++ p.behind

def File.bytes : File → List UInt8
  | program p => p.bytes
  | plain first bytes _ => first :: bytes

section

variable (decimal : ℕ → List UInt8) (unixflg : Bool)

def eol : List UInt8 :=
  [if unixflg then 0x0a else 0x0d]

def Line.text (l : Line) : List UInt8 :=
  decimal l.number.value ++ [0x20] ++ l.pieces.flatMap Piece.text ++ eol unixflg

/-- Carriage returns are translated. -/
def translate (bytes : List UInt8) : List UInt8 :=
  bytes.map fun c => if unixflg ∧ c = 0x0d then 0x0a else c

/-- The text of a file. -/
def File.text : File → List UInt8
  | program p => p.lines.flatMap (Line.text decimal unixflg)
  | plain first bytes _ => translate unixflg (first :: bytes)

/-- What is printed. -/
def printed : List File → List UInt8
  | [] => []
  | .program p :: files => File.text decimal unixflg (.program p) ++ printed files
  | .plain first bytes hfirst :: _ => File.text decimal unixflg (.plain first bytes hfirst)

end

/-- A program without lines. -/
def File.Blank : File → Prop
  | program p => p.lines = []
  | plain .. => False

/-- Behind the first file that is not tokenised there are no lines. -/
def PlainLast : List File → Prop
  | [] => True
  | .program _ :: files => PlainLast files
  | .plain .. :: files => ∀ f ∈ files, f.Blank

namespace Reader

/-- What is still to be read. -/
def rest (r : Reader) : List UInt8 :=
  r.buf.drop r.pos ++ r.file.drop r.offset

/-- The position is in the buffer. -/
def Valid (r : Reader) : Prop :=
  r.pos ≤ r.buf.length

variable {r : Reader} {c : UInt8} {more : List UInt8}

theorem valid_reset (r : Reader) : r.reset.Valid :=
  Nat.le_refl 0

theorem rest_reset (r : Reader) : r.reset.rest = r.file := rfl

/-- Behind what one `read` delivers is what the next one starts with. -/
theorem pread_append_drop (file : List UInt8) (offset count : ℕ) :
    ByteFile.pread file offset count ++
        file.drop (offset + (ByteFile.pread file offset count).length) =
      file.drop offset := by
  rw [← List.drop_drop, ByteFile.pread]
  generalize file.drop offset = more
  rcases Nat.le_total count more.length with hle | hle
  · rw [List.length_take_of_le hle, List.take_append_drop]
  · rw [List.take_of_length_le hle, List.drop_length, List.append_nil]

theorem fill_spec (hvalid : r.Valid) :
    r.fill.Valid ∧ r.fill.rest = r.rest ∧ r.fill.file = r.file ∧
      (r.fill.pos = r.fill.buf.length → r.rest = []) := by
  rw [fill]
  by_cases hend : r.pos = r.buf.length
  · rw [if_pos hend]
    have hrest : r.rest = r.file.drop r.offset := by
      rw [rest, hend, List.drop_length, List.nil_append]
    refine ⟨Nat.zero_le _, ?_, rfl, fun hnone => ?_⟩
    · rw [hrest, ← pread_append_drop r.file r.offset 256]
      rfl
    · have hbuf : ByteFile.pread r.file r.offset 256 = [] :=
        List.length_eq_zero_iff.mp hnone.symm
      rw [hrest]
      exact (List.take_eq_nil_iff.mp hbuf).resolve_left (by decide)
  · rw [if_neg hend]
    exact ⟨hvalid, rfl, rfl, fun heq => absurd heq hend⟩

theorem mygetc_cons (hvalid : r.Valid) (hrest : r.rest = c :: more) :
    ∃ r', r.mygetc = some (c, r') ∧ r'.Valid ∧ r'.rest = more ∧ r'.file = r.file := by
  obtain ⟨hfvalid, hfrest, hffile, hfend⟩ := fill_spec hvalid
  have hlt : r.fill.pos < r.fill.buf.length := by
    refine Nat.lt_of_le_of_ne hfvalid fun heq => ?_
    rw [hfend heq] at hrest
    cases hrest
  rw [← hfrest, rest, List.drop_eq_getElem_cons hlt, List.cons_append] at hrest
  obtain ⟨hc, hmore⟩ := List.cons.inj hrest
  refine ⟨{ r.fill with pos := r.fill.pos + 1 }, ?_, hlt, hmore, hffile⟩
  rw [mygetc, List.getElem?_eq_getElem hlt, hc]
  rfl

theorem mygetc_nil (hvalid : r.Valid) (hrest : r.rest = []) : r.mygetc = none := by
  obtain ⟨_, hfrest, _, _⟩ := fill_spec hvalid
  rw [← hfrest, rest] at hrest
  have hle : r.fill.buf.length ≤ r.fill.pos :=
    List.drop_eq_nil_iff.mp (List.append_eq_nil_iff.mp hrest).1
  rw [mygetc, List.getElem?_eq_none hle]
  rfl

theorem mygetw_cons {w : Word} (hvalid : r.Valid) (hrest : r.rest = w.bytes ++ more) :
    ∃ r', r.mygetw = some (w.value, r') ∧ r'.Valid ∧ r'.rest = more ∧ r'.file = r.file := by
  obtain ⟨r₁, hhigh, hvalid₁, hrest₁, hfile₁⟩ := mygetc_cons hvalid hrest
  obtain ⟨r₂, hlow, hvalid₂, hrest₂, hfile₂⟩ := mygetc_cons hvalid₁ hrest₁
  refine ⟨r₂, ?_, hvalid₂, hrest₂, hfile₂.trans hfile₁⟩
  rw [mygetw, hhigh]
  dsimp only [Option.bind_eq_bind, Option.bind_some]
  rw [hlow]
  rfl

end Reader

open Machine

section

variable {fs : String → Option (List UInt8)} {freopen : Option String → Bool}
  {decimal : ℕ → List UInt8} {s : State} {r : Reader} {out more : List UInt8}
  {pflag : Bool}

/-- The program when it is somewhere in a file. -/
def State.at (s : State) (loc : Loc) (r : Reader) (out : List UInt8) : State :=
  { s with loc := loc, input := r, out := out }

/-- What a pass prints of a text. -/
def shown (pflag : Bool) (text : List UInt8) : List UInt8 :=
  if pflag then text else []

theorem shown_append (pflag : Bool) (first second : List UInt8) :
    shown pflag (first ++ second) = shown pflag first ++ shown pflag second := by
  cases pflag <;> rfl

/-- The program gets to another place having read up to `more` and printed. -/
def Prints (fs : String → Option (List UInt8)) (freopen : Option String → Bool)
    (decimal : ℕ → List UInt8) (s : State) (loc : Loc) (r : Reader) (next : Loc)
    (more text : List UInt8) : Prop :=
  ∃ r', r'.Valid ∧ r'.rest = more ∧ r'.file = r.file ∧ ∀ out,
    Reaches (step fs freopen decimal) (s.at loc r out) (s.at next r' (out ++ text))

theorem Prints.trans {loc middle next : Loc} {text text' more' : List UInt8}
    (hfirst : Prints fs freopen decimal s loc r middle more text)
    (hsecond : ∀ r', r'.Valid → r'.rest = more →
      Prints fs freopen decimal s middle r' next more' text') :
    Prints fs freopen decimal s loc r next more' (text ++ text') := by
  obtain ⟨r₁, hvalid₁, hrest₁, hfile₁, hreaches₁⟩ := hfirst
  obtain ⟨r₂, hvalid₂, hrest₂, hfile₂, hreaches₂⟩ := hsecond r₁ hvalid₁ hrest₁
  refine ⟨r₂, hvalid₂, hrest₂, hfile₂.trans hfile₁, fun out => ?_⟩
  rw [← List.append_assoc]
  exact (hreaches₁ out).trans (hreaches₂ (out ++ text))

/-- A single step that has read something. -/
theorem prints_step {loc next : Loc} {r' : Reader} {text : List UInt8}
    (hvalid : r'.Valid) (hrest : r'.rest = more) (hfile : r'.file = r.file)
    (hstep : ∀ out, step fs freopen decimal (s.at loc r out) =
      .inl (s.at next r' (out ++ text))) :
    Prints fs freopen decimal s loc r next more text :=
  ⟨r', hvalid, hrest, hfile, fun out => .single (hstep out)⟩

theorem printToken_eq {table : List String} {c : UInt8}
    (htable : (c &&& 0x7f).toNat < table.length) (loc : Loc) (out : List UInt8) :
    printToken table pflag c (s.at loc r out) =
      .inl (s.at (.body pflag false) r
        (out ++ shown pflag (bytesOf table[(c &&& 0x7f).toNat]))) := by
  rw [printToken, List.getElem?_eq_getElem htable]
  rfl

/-- The byte before a secondary token. -/
theorem prints_mark (hvalid : r.Valid) (hrest : r.rest = 0xff :: more) :
    Prints fs freopen decimal s (.body pflag false) r (.body pflag true) more [] := by
  obtain ⟨r', hget, hvalid', hrest', hfile⟩ := Reader.mygetc_cons hvalid hrest
  refine prints_step hvalid' hrest' hfile fun out => ?_
  change readBody pflag false (s.at (.body pflag false) r out) = _
  rw [readBody, State.at, hget, List.append_nil]
  rfl

/-- A piece of a line. -/
theorem prints_piece (piece : Piece) (hvalid : r.Valid)
    (hrest : r.rest = piece.bytes ++ more) :
    Prints fs freopen decimal s (.body pflag false) r (.body pflag false) more
      (shown pflag piece.text) := by
  cases piece with
  | char c hascii =>
      obtain ⟨r', hget, hvalid', hrest', hfile⟩ := Reader.mygetc_cons hvalid hrest
      have hff : c ≠ 0xff := by
        rintro rfl
        exact absurd hascii.1 (by decide)
      refine prints_step hvalid' hrest' hfile fun out => ?_
      change readBody pflag false (s.at (.body pflag false) r out) = _
      rw [readBody, State.at, hget]
      dsimp only [State.reading]
      rw [if_neg Bool.false_ne_true, if_neg hff, if_neg (not_not.mpr hascii.1),
        if_neg hascii.2]
      rfl
  | primary c htoken htable =>
      obtain ⟨r', hget, hvalid', hrest', hfile⟩ := Reader.mygetc_cons hvalid hrest
      refine prints_step hvalid' hrest' hfile fun out => ?_
      change readBody pflag false (s.at (.body pflag false) r out) = _
      rw [readBody, State.at, hget]
      dsimp only [State.reading]
      rw [if_neg Bool.false_ne_true, if_neg htoken.2, if_pos htoken.1]
      exact printToken_eq htable _ out
  | secondary c htable =>
      have hmark : Prints fs freopen decimal s (.body pflag false) r (.body pflag true)
          (c :: more) [] :=
        prints_mark hvalid hrest
      refine hmark.trans fun r' hvalid' hrest' => ?_
      obtain ⟨r₂, hget₂, hvalid₂, hrest₂, hfile₂⟩ := Reader.mygetc_cons hvalid' hrest'
      refine prints_step hvalid₂ hrest₂ hfile₂ fun out => ?_
      change readBody pflag true (s.at (.body pflag true) r' out) = _
      rw [readBody, State.at, hget₂]
      exact printToken_eq htable _ out

theorem prints_pieces (pieces : List Piece) (hvalid : r.Valid)
    (hrest : r.rest = pieces.flatMap Piece.bytes ++ more) :
    Prints fs freopen decimal s (.body pflag false) r (.body pflag false) more
      (shown pflag (pieces.flatMap Piece.text)) := by
  induction pieces generalizing r with
  | nil =>
      refine ⟨r, hvalid, hrest, rfl, fun out => ?_⟩
      have hnothing : shown pflag ([].flatMap Piece.text) = [] := by
        cases pflag <;> rfl
      rw [hnothing, List.append_nil]
      exact .refl
  | cons piece pieces ih =>
      rw [List.flatMap_cons, List.append_assoc] at hrest
      rw [List.flatMap_cons, shown_append]
      exact (prints_piece piece hvalid hrest).trans fun r' hvalid' hrest' => ih hvalid' hrest'

/-- The link of a line and its number. -/
theorem prints_head (l : Line) (hvalid : r.Valid)
    (hrest : r.rest = l.link.bytes ++ (l.number.bytes ++ more)) :
    Prints fs freopen decimal s (.line pflag) r (.body pflag false) more
      (shown pflag (decimal l.number.value ++ [0x20])) := by
  obtain ⟨r₁, hlink, hvalid₁, hrest₁, hfile₁⟩ := Reader.mygetw_cons hvalid hrest
  obtain ⟨r₂, hnumber, hvalid₂, hrest₂, hfile₂⟩ := Reader.mygetw_cons hvalid₁ hrest₁
  refine prints_step hvalid₂ hrest₂ (hfile₂.trans hfile₁) fun out => ?_
  change readLine decimal pflag (s.at (.line pflag) r out) = _
  rw [readLine, State.at, hlink]
  dsimp only [State.reading]
  rw [if_neg l.hlink, hnumber]
  rfl

/-- The end of a line. -/
theorem prints_eol (hvalid : r.Valid) (hrest : r.rest = 0 :: more) :
    Prints fs freopen decimal s (.body pflag false) r (.line pflag) more
      (shown pflag (eol s.unixflg)) := by
  obtain ⟨r', hend, hvalid', hrest', hfile⟩ := Reader.mygetc_cons hvalid hrest
  refine prints_step hvalid' hrest' hfile fun out => ?_
  change readBody pflag false (s.at (.body pflag false) r out) = _
  rw [readBody, State.at, hend]
  rfl

/-- A line. -/
theorem prints_line (l : Line) (hvalid : r.Valid) (hrest : r.rest = l.bytes ++ more) :
    Prints fs freopen decimal s (.line pflag) r (.line pflag) more
      (shown pflag (l.text decimal s.unixflg)) := by
  rw [Line.bytes, List.append_assoc, List.append_assoc, List.append_assoc] at hrest
  rw [Line.text, List.append_assoc, shown_append pflag (decimal _ ++ [0x20]),
    shown_append pflag (l.pieces.flatMap _)]
  refine (prints_head l hvalid hrest).trans fun r' hvalid' hrest' => ?_
  exact (prints_pieces l.pieces hvalid' hrest').trans fun r'' => prints_eol

theorem prints_lines (lines : List Line) (hvalid : r.Valid)
    (hrest : r.rest = lines.flatMap Line.bytes ++ more) :
    Prints fs freopen decimal s (.line pflag) r (.line pflag) more
      (shown pflag (lines.flatMap (Line.text decimal s.unixflg))) := by
  induction lines generalizing r with
  | nil =>
      refine ⟨r, hvalid, hrest, rfl, fun out => ?_⟩
      have hnothing : shown pflag ([].flatMap (Line.text decimal s.unixflg)) = [] := by
        cases pflag <;> rfl
      rw [hnothing, List.append_nil]
      exact .refl
  | cons l lines ih =>
      rw [List.flatMap_cons, List.append_assoc] at hrest
      rw [List.flatMap_cons, shown_append]
      exact (prints_line l hvalid hrest).trans fun r' hvalid' hrest' => ih hvalid' hrest'

/-- The link that ends a program. -/
theorem prints_last (hvalid : r.Valid) (hrest : r.rest = Word.bytes ⟨0, 0⟩ ++ more) :
    Prints fs freopen decimal s (.line pflag) r (if pflag then .args else .header true)
      more [] := by
  obtain ⟨r', hend, hvalid', hrest', hfile⟩ := Reader.mygetw_cons hvalid hrest
  refine prints_step hvalid' hrest' hfile fun out => ?_
  change readLine decimal pflag (s.at (.line pflag) r out) = _
  have hzero : (⟨0, 0⟩ : Word).value = 0 := rfl
  rw [readLine, State.at, hend, List.append_nil]
  dsimp only [State.reading]
  rw [if_pos hzero]
  rfl

/-- The header of a program, from the beginning of the file. -/
theorem prints_header {w : Word} (hrest : r.reset.rest = 0xff :: (w.bytes ++ more)) :
    Prints fs freopen decimal s (.header pflag) r (.line pflag) more [] := by
  obtain ⟨r₁, hff, hvalid₁, hrest₁, hfile₁⟩ :=
    Reader.mygetc_cons (Reader.valid_reset r) hrest
  obtain ⟨r₂, hlength, hvalid₂, hrest₂, hfile₂⟩ := Reader.mygetw_cons hvalid₁ hrest₁
  refine prints_step hvalid₂ hrest₂ (hfile₂.trans hfile₁) fun out => ?_
  change readHeader pflag (s.at (.header pflag) r out) = _
  rw [readHeader, State.at]
  dsimp only
  rw [hff]
  dsimp only [State.reading]
  rw [if_neg (not_not.mpr rfl), hlength, List.append_nil]
  rfl

/-- A pass over a program. -/
theorem prints_program (p : Program) (hfile : r.file = p.bytes) :
    Prints fs freopen decimal s (.header pflag) r (if pflag then .args else .header true)
      p.behind (shown pflag (File.text decimal s.unixflg (.program p))) := by
  have hrest : r.reset.rest = 0xff :: (p.length.bytes ++
      (p.lines.flatMap Line.bytes ++ (Word.bytes ⟨0, 0⟩ ++ p.behind))) := by
    rw [Reader.rest_reset, hfile, Program.bytes, List.append_assoc, List.append_assoc,
      List.cons_append]
    rfl
  refine (prints_header hrest).trans fun r' hvalid' hrest' => ?_
  have hlines : Prints fs freopen decimal s (.line pflag) r' (.line pflag)
      (Word.bytes ⟨0, 0⟩ ++ p.behind)
      (shown pflag (File.text decimal s.unixflg (.program p))) :=
    prints_lines p.lines hvalid' hrest'
  have hpass := hlines.trans fun r'' => prints_last
  rw [List.append_nil] at hpass
  exact hpass

/-- A program is gone through twice and printed once. -/
theorem prints_program_twice (p : Program) (hfile : r.file = p.bytes) :
    Prints fs freopen decimal s (.header false) r .args p.behind
      (File.text decimal s.unixflg (.program p)) := by
  obtain ⟨r₁, _, _, hfile₁, hfirst⟩ : Prints fs freopen decimal s (.header false) r
      (.header true) p.behind [] := prints_program p hfile
  obtain ⟨r₂, hvalid₂, hrest₂, hfile₂, hsecond⟩ : Prints fs freopen decimal s (.header true)
      r₁ .args p.behind (File.text decimal s.unixflg (.program p)) :=
    prints_program p (hfile₁.trans hfile)
  refine ⟨r₂, hvalid₂, hrest₂, hfile₂.trans hfile₁, fun out => ?_⟩
  have hnothing := hfirst out
  rw [List.append_nil] at hnothing
  exact hnothing.trans (hsecond out)

/-- The rest of a file that is copied. -/
theorem copies_rest (bytes : List UInt8) (hvalid : r.Valid) (hrest : r.rest = bytes)
    (out : List UInt8) :
    run (step fs freopen decimal) (bytes.length + 1) (s.at .copy r out) =
      some (some (0, out ++ translate s.unixflg bytes)) := by
  induction bytes generalizing r out with
  | nil =>
      have hstep : step fs freopen decimal (s.at .copy r out) = .inr (some (0, out)) := by
        change copyByte (s.at .copy r out) = _
        rw [copyByte, State.at, Reader.mygetc_nil hvalid hrest]
        rfl
      rw [run, hstep, translate, List.map_nil, List.append_nil]
  | cons c bytes ih =>
      obtain ⟨r', hget, hvalid', hrest', _⟩ := Reader.mygetc_cons hvalid hrest
      have hstep : step fs freopen decimal (s.at .copy r out) =
          .inl (s.at .copy r' (out ++ translate s.unixflg [c])) := by
        change copyByte (s.at .copy r out) = _
        rw [copyByte, State.at, hget]
        rfl
      rw [List.length_cons, run, hstep]
      dsimp only
      rw [ih hvalid' hrest', List.append_assoc]
      rfl

/-- A file that is not tokenised is copied, and the program ends. -/
theorem copies_plain {first : UInt8} {bytes : List UInt8} (hfirst : first ≠ 0xff)
    (hfile : r.file = first :: bytes) (out : List UInt8) :
    ∃ fuel, run (step fs freopen decimal) fuel (s.at (.header false) r out) =
      some (some (0, out ++ translate s.unixflg (first :: bytes))) := by
  have hrest : r.reset.rest = first :: bytes := hfile
  obtain ⟨r₁, hget, _, _, hfile₁⟩ := Reader.mygetc_cons (Reader.valid_reset r) hrest
  have hstep : step fs freopen decimal (s.at (.header false) r out) =
      .inl (s.at .copy r₁.reset out) := by
    change readHeader false (s.at (.header false) r out) = _
    rw [readHeader, State.at]
    dsimp only
    rw [hget]
    dsimp only [State.reading]
    rw [if_pos hfirst]
    rfl
  refine ⟨(first :: bytes).length + 1 + 1, ?_⟩
  rw [run, hstep]
  exact copies_rest (first :: bytes) (Reader.valid_reset r₁) (hfile₁.trans hfile) out

/-- A file is opened. -/
theorem nextArg_file {name : String} {argv : List String} {file : List UInt8}
    (hname : name.toList.head? ≠ some '-') (hopen : fs name = some file)
    (hargv : s.argv = name :: argv) :
    nextArg fs freopen s =
      .inl { s with
        argv := argv
        loc := .header false
        input := { s.input with file := file } } := by
  rw [nextArg, hargv]
  dsimp only
  split
  · next letters hletters =>
      rw [hletters] at hname
      exact absurd rfl hname
  · rw [hopen]

/-- The files of the command line, one after the other. -/
theorem prints_files {inputs : List (String × File)}
    (hinputs : ∀ input ∈ inputs, input.1.toList.head? ≠ some '-' ∧
      fs input.1 = some input.2.bytes) (hargs : s.loc = .args)
    (hargv : s.argv = inputs.map Prod.fst) :
    ∃ fuel, run (step fs freopen decimal) fuel s =
      some (some (0, s.out ++ printed decimal s.unixflg (inputs.map Prod.snd))) := by
  induction inputs generalizing s with
  | nil =>
      refine ⟨1, ?_⟩
      rw [run, step, hargs]
      dsimp only
      have hnothing : printed decimal s.unixflg (([] : List (String × File)).map Prod.snd) =
          [] := rfl
      rw [nextArg, hargv, hnothing, List.append_nil]
      rfl
  | cons input inputs ih =>
      obtain ⟨name, file⟩ := input
      obtain ⟨hname, hopen⟩ := hinputs _ List.mem_cons_self
      have hstep : step fs freopen decimal s = nextArg fs freopen s := by
        rw [step, hargs]
      rw [nextArg_file hname hopen hargv] at hstep
      have hheader : Reaches (step fs freopen decimal) s _ := .single hstep
      rw [List.map_cons]
      cases file with
      | plain first bytes hfirst =>
          have hcopies : ∃ fuel, run (step fs freopen decimal) fuel
              ({ s with argv := inputs.map Prod.fst }.at (.header false)
                { s.input with file := first :: bytes } s.out) = _ :=
            copies_plain hfirst rfl s.out
          obtain ⟨fuel, hrun⟩ := hcopies
          exact hheader.run hrun
      | program p =>
          have hprints : Prints fs freopen decimal { s with argv := inputs.map Prod.fst }
              (.header false) { s.input with file := p.bytes } .args p.behind _ :=
            prints_program_twice p rfl
          obtain ⟨r', _, _, _, hprinted⟩ := hprints
          have hothers : ∃ fuel, run (step fs freopen decimal) fuel
              ({ s with argv := inputs.map Prod.fst }.at .args r'
                (s.out ++ File.text decimal s.unixflg (.program p))) = _ :=
            ih (fun other hother => hinputs other (List.mem_cons_of_mem _ hother)) rfl rfl
          obtain ⟨fuel, hrun⟩ := hothers
          have hfirst : Reaches (step fs freopen decimal) s _ := hheader.trans (hprinted s.out)
          rw [printed, ← List.append_assoc]
          exact hfirst.run hrun

theorem text_eq_nil_iff (decimal : ℕ → List UInt8) (unixflg : Bool) (f : File) :
    f.text decimal unixflg = [] ↔ f.Blank := by
  cases f with
  | program p =>
      rw [File.text, File.Blank]
      constructor
      · intro hnothing
        rw [List.flatMap_eq_nil_iff] at hnothing
        refine List.eq_nil_iff_forall_not_mem.mpr fun l hl => ?_
        have hline := hnothing l hl
        rw [Line.text, List.append_eq_nil_iff] at hline
        exact List.cons_ne_nil _ _ hline.2
      · intro hlines
        rw [hlines]
        rfl
  | plain first bytes hfirst => exact iff_of_false (List.cons_ne_nil _ _) id

/-- All texts are printed exactly if nothing is left out. -/
theorem printed_eq_iff (decimal : ℕ → List UInt8) (unixflg : Bool) (files : List File) :
    printed decimal unixflg files = files.flatMap (File.text decimal unixflg) ↔
      PlainLast files := by
  induction files with
  | nil => exact iff_of_true rfl trivial
  | cons f files ih =>
      cases f with
      | program p =>
          rw [printed, List.flatMap_cons, List.append_cancel_left_eq, ih]
          rfl
      | plain first bytes hfirst =>
          have hblank : (∀ f ∈ files, f.text decimal unixflg = []) ↔ ∀ f ∈ files, f.Blank :=
            forall₂_congr fun f _ => text_eq_nil_iff decimal unixflg f
          rw [printed, List.flatMap_cons, List.self_eq_append_right, List.flatMap_eq_nil_iff,
            hblank]
          rfl

/-- The program on the files, with `-l` or without. -/
theorem run_files (lflag : Bool) {inputs : List (String × File)}
    (hinputs : ∀ input ∈ inputs, input.1.toList.head? ≠ some '-' ∧
      fs input.1 = some input.2.bytes) :
    ∃ fuel, run (step fs freopen decimal) fuel
        (start ((if lflag then ["-l"] else []) ++ inputs.map Prod.fst)) =
      some (some (0, printed decimal lflag (inputs.map Prod.snd))) := by
  cases lflag with
  | false => exact prints_files hinputs rfl rfl
  | true =>
      have hoption : Reaches (step fs freopen decimal)
          (start (["-l"] ++ inputs.map Prod.fst))
          { start (inputs.map Prod.fst) with unixflg := true } := .single rfl
      obtain ⟨fuel, hrun⟩ : ∃ fuel, run (step fs freopen decimal) fuel
          { start (inputs.map Prod.fst) with unixflg := true } = _ :=
        prints_files hinputs rfl rfl
      exact hoption.run hrun

/-- The output is the texts of all files exactly if none is left out. -/
theorem main_concatenates_iff (lflag : Bool) {inputs : List (String × File)}
    (hinputs : ∀ input ∈ inputs, input.1.toList.head? ≠ some '-' ∧
      fs input.1 = some input.2.bytes) :
    (∃ fuel code, run (step fs freopen decimal) fuel
        (start ((if lflag then ["-l"] else []) ++ inputs.map Prod.fst)) =
      some (some (code, (inputs.map Prod.snd).flatMap (File.text decimal lflag)))) ↔
      PlainLast (inputs.map Prod.snd) := by
  obtain ⟨fuel, hrun⟩ : ∃ fuel, run (step fs freopen decimal) fuel
      (start ((if lflag then ["-l"] else []) ++ inputs.map Prod.fst)) = _ :=
    run_files lflag hinputs
  rw [← printed_eq_iff decimal lflag]
  constructor
  · rintro ⟨fuel', code, hrun'⟩
    have hsame := Option.some.inj (run_unique hrun hrun')
    exact (Prod.mk.inj hsame).2
  · intro hprinted
    rw [hprinted] at hrun
    exact ⟨fuel, 0, hrun⟩

end

/-- Two files that are not tokenised. -/
def twoLetters : List (String × File) :=
  [("a", .plain 0x61 [] (by decide)), ("b", .plain 0x62 [] (by decide))]

def twoLettersFs (name : String) : Option (List UInt8) :=
  if name = "a" then some [0x61] else if name = "b" then some [0x62] else none

theorem twoLetters_inputs : ∀ input ∈ twoLetters, input.1.toList.head? ≠ some '-' ∧
    twoLettersFs input.1 = some input.2.bytes := by
  decide

theorem main_concatenates_iff_twoLetters :
    (∃ fuel code, run (step twoLettersFs (fun _ => true) fun _ => []) fuel
        (start ["a", "b"]) = some (some (code, [0x61, 0x62]))) ↔
      PlainLast (twoLetters.map Prod.snd) :=
  main_concatenates_iff false twoLetters_inputs

/-- The second one is left out. -/
theorem twoLetters_not_printed :
    ¬ ∃ fuel code, run (step twoLettersFs (fun _ => true) fun _ => []) fuel
      (start ["a", "b"]) = some (some (code, [0x61, 0x62])) := by
  rintro ⟨fuel, code, hrun⟩
  have hfirst : run (step twoLettersFs (fun _ => true) fun _ => []) 4 (start ["a", "b"]) =
      some (some (0, [0x61])) := rfl
  cases run_unique hfirst hrun

end Fip.Decb.Detoken
