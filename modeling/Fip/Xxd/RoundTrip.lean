import Fip.Xxd.Lines

/-!
# Dump and revert

What is dumped and reverted again is what it was, also where `xxdline` has left lines of
zeroes out.
-/

namespace Fip.Xxd

open Fip.ByteFile

variable {format : Layout .normal} {options : Options} {d d₀ : Dump} {out : Output}
  {bytes chunk front shown : List UInt8} {byte : UInt8} {items : List Item}
  {pending : List (List UInt8)} {nz : ℤ} {text : List Char}

/-! ## Lines -/

/-- The bytes of a line that differ from zero. -/
def nonzeros (bytes : List UInt8) : ℕ := bytes.countP (· ≠ 0)

/-- In the middle of a line. -/
structure Adding (format : Layout .normal) (options : Options) (d₀ d : Dump)
    (bytes : List UInt8) : Prop where
  p : d.p = bytes.length
  n : d.n = d₀.n + bytes.length
  nonzero : d.nonzero = nonzeros bytes
  out : d.out = d₀.out
  holds : bytes ≠ [] → Holds format options d.l d₀.n bytes

/-- A byte is added to the line, which may begin with it. -/
theorem Adding.add (hfits : format.Fits) (hadding : Adding format options d₀ d bytes)
    (hbytes : bytes.length < format.cols) (byte : UInt8) :
    Adding format options d₀ (addByte format options
      (if d.p = 0 then beginLine options d else d) byte) (bytes ++ [byte]) := by
  have hholds : Holds format options (if d.p = 0 then beginLine options d else d).l d₀.n bytes := by
    rcases bytes with _ | ⟨first, rest⟩
    · have hp : d.p = 0 := hadding.p
      have hn : d.n = d₀.n := hadding.n
      rw [if_pos hp, ← hn]
      exact beginLine_holds d
    · have hp : d.p ≠ 0 := by
        rw [hadding.p]
        exact Nat.succ_ne_zero _
      rw [if_neg hp]
      exact hadding.holds (List.cons_ne_nil _ _)
  have hfields : (if d.p = 0 then beginLine options d else d).p = bytes.length ∧
      (if d.p = 0 then beginLine options d else d).n = d₀.n + bytes.length ∧
      (if d.p = 0 then beginLine options d else d).nonzero = nonzeros bytes ∧
      (if d.p = 0 then beginLine options d else d).out = d₀.out := by
    split_ifs
    · exact ⟨hadding.p, hadding.n, hadding.nonzero, hadding.out⟩
    · exact ⟨hadding.p, hadding.n, hadding.nonzero, hadding.out⟩
  generalize (if d.p = 0 then beginLine options d else d) = begun at hholds hfields
  obtain ⟨hp, hn, hnonzero, hout⟩ := hfields
  refine ⟨?_, ?_, ?_, hout, fun _ => ?_⟩
  · rw [addByte, hp, List.length_append, List.length_singleton]
  · rw [addByte, hn, List.length_append, List.length_singleton, Nat.add_assoc]
  · have hbyte : byte.toNat ≠ 0 ↔ byte ≠ 0 := by
      rw [ne_eq, ne_eq, ← UInt8.toNat_inj]
      rfl
    rw [addByte, nonzeros, List.countP_append, List.countP_singleton]
    dsimp only
    rw [hnonzero, nonzeros]
    by_cases hzero : byte = 0
    · rw [if_neg (fun hne => hbyte.mp hne hzero), if_neg (by simpa using hzero), Nat.add_zero]
    · rw [if_pos (hbyte.mpr hzero), if_pos (by simpa using hzero)]
  · have hadd := hholds.add hfits hbytes byte
    rw [addByte, hp]
    exact hadd

/-- A line that is not full yet. -/
theorem Adding.step (hfits : format.Fits) (hadding : Adding format options d₀ d bytes)
    (hbytes : bytes.length + 1 < format.cols) (byte : UInt8) :
    Adding format options d₀ (dumpByte format options d byte) (bytes ++ [byte]) := by
  have hadd := hadding.add hfits (Nat.lt_of_succ_lt hbytes) byte
  have hp := hadd.p
  rw [List.length_append, List.length_singleton] at hp
  rw [dumpByte, if_neg (by rw [hp]; exact Nat.ne_of_lt hbytes)]
  exact hadd

theorem Adding.run (hfits : format.Fits) (hadding : Adding format options d₀ d bytes)
    (hmore : bytes.length + chunk.length < format.cols) :
    Adding format options d₀ (chunk.foldl (dumpByte format options) d) (bytes ++ chunk) := by
  induction chunk generalizing d bytes with
  | nil => rwa [List.append_nil]
  | cons byte chunk ih =>
      rw [List.length_cons] at hmore
      have hstep := hadding.step hfits (by omega) byte
      have hrest := ih hstep (by rw [List.length_append, List.length_singleton]; omega)
      rwa [List.append_assoc] at hrest

/-- What is printed as `nz` for a full line. -/
def lineNz (options : Options) (chunk : List UInt8) : ℤ :=
  if options.autoskip then nonzeros chunk else 1

/-- Behind a full line. -/
structure Ended (format : Layout .normal) (options : Options) (d₀ d : Dump)
    (chunk : List UInt8) : Prop where
  p : d.p = 0
  n : d.n = d₀.n + chunk.length
  nonzero : d.nonzero = 0
  out : d.out = xxdline d₀.out (lineAt format options d₀.n chunk).text (lineNz options chunk)
  l : cstring d.l = (lineAt format options d₀.n chunk).text

theorem Adding.last (hfits : format.Fits) (hadding : Adding format options d₀ d bytes)
    (hbytes : bytes.length + 1 = format.cols) (byte : UInt8) :
    Ended format options d₀ (dumpByte format options d byte) (bytes ++ [byte]) := by
  have hadd := hadding.add hfits (by omega) byte
  have hp := hadd.p
  have hlength : (bytes ++ [byte]).length = format.cols := by
    rw [List.length_append, List.length_singleton, hbytes]
  have hline := (hadd.holds (by simp)).cstring hfits (Nat.le_of_eq hlength)
  rw [dumpByte, if_pos (by rw [hp, hlength])]
  refine ⟨rfl, hadd.n, rfl, ?_, ?_⟩
  · rw [printLine]
    dsimp only
    rw [hp, hline, hadd.nonzero, hadd.out, lineNz]
  · rw [printLine]
    dsimp only
    rw [hp, hline]

theorem adding_nil (hp : d.p = 0) (hnonzero : d.nonzero = 0) : Adding format options d d [] :=
  ⟨hp, rfl, hnonzero, rfl, fun hne => absurd rfl hne⟩

/-- All the bytes of a full line. -/
theorem ended (hfits : format.Fits) (hp : d.p = 0) (hnonzero : d.nonzero = 0)
    (hchunk : chunk.length = format.cols) :
    Ended format options d (chunk.foldl (dumpByte format options) d) chunk := by
  have hcols := format.one_le_cols
  have hne : chunk ≠ [] := by
    rintro rfl
    rw [List.length_nil] at hchunk
    omega
  obtain ⟨front, byte, rfl⟩ : ∃ front byte, chunk = front ++ [byte] :=
    ⟨chunk.dropLast, chunk.getLast hne, (List.dropLast_append_getLast hne).symm⟩
  rw [List.length_append, List.length_singleton] at hchunk
  rw [List.foldl_append]
  have hfront : Adding format options d (front.foldl (dumpByte format options) d) front :=
    (adding_nil hp hnonzero).run hfits (by rw [List.length_nil]; omega)
  exact hfront.last hfits hchunk byte

/-! ## What is left out -/

/-- What full lines are printed for some bytes: all of them, or all but lines of zeroes. -/
inductive Dumped (format : Layout .normal) (options : Options) : List UInt8 → List Item → Prop
  | nil : Dumped format options [] []
  | keep {front chunk : List UInt8} {items : List Item} (hfront : Dumped format options front items)
      (hchunk : chunk.length = format.cols) :
      Dumped format options (front ++ chunk)
        (items ++ [.entry (lineAt format options front.length chunk)])
  | drop {front chunk : List UInt8} {items : List Item} (hfront : Dumped format options front items)
      (hskip : options.autoskip = true) (hchunk : chunk.length = format.cols)
      (hzero : ∀ byte ∈ chunk, byte = 0) : Dumped format options (front ++ chunk) items
  | star {front : List UInt8} {items : List Item} (hfront : Dumped format options front items) :
      Dumped format options front (items ++ [Xxd.star])

/-- The last line is printed. -/
def LastKept (format : Layout .normal) (options : Options) (front : List UInt8)
    (items : List Item) : Prop :=
  front = [] ∧ items = [] ∨ ∃ before items' chunk, front = before ++ chunk ∧
    chunk.length = format.cols ∧ Dumped format options before items' ∧
      items = items' ++ [.entry (lineAt format options before.length chunk)]

theorem LastKept.dumped (hkept : LastKept format options front items) :
    Dumped format options front items := by
  rcases hkept with ⟨rfl, rfl⟩ | ⟨before, items', chunk, rfl, hchunk, hbefore, rfl⟩
  · exact .nil
  · exact hbefore.keep hchunk

/-- A line of zeroes that may be left out. -/
structure Zeros (format : Layout .normal) (options : Options) (chunk : List UInt8) : Prop where
  length : chunk.length = format.cols
  zero : ∀ byte ∈ chunk, byte = 0
  skip : options.autoskip = true

theorem Dumped.drops (hfront : Dumped format options front items)
    (hpending : ∀ chunk ∈ pending, Zeros format options chunk) :
    Dumped format options (front ++ pending.flatten) items := by
  induction pending generalizing front with
  | nil => simpa using hfront
  | cons chunk pending ih =>
      obtain ⟨hchunk, hpending⟩ := List.forall_mem_cons.mp hpending
      rw [List.flatten_cons, ← List.append_assoc]
      exact ih (hfront.drop hchunk.skip hchunk.length hchunk.zero) hpending

/-- Between two lines: what is shown, and the lines of zeroes that wait for the next line.
The first of these is in `z`. -/
structure Printing (format : Layout .normal) (options : Options) (out : Output)
    (shown : List UInt8) (items : List Item) (pending : List (List UInt8)) : Prop where
  kept : LastKept format options shown items
  zeros : ∀ chunk ∈ pending, Zeros format options chunk
  seen : if pending = [] then out.zeroSeen = 0 ∨ out.zeroSeen = 1
    else out.zeroSeen = pending.length + 1
  few : pending.length + 1 < 2 ^ 15
  z : ∀ chunk ∈ pending.head?, out.z = (lineAt format options shown.length chunk).text
  fpo : out.fpo = items.flatMap Item.text

/-- The first line of zeroes is printed. -/
theorem xxdline_first (hseen : out.zeroSeen = 0) (text : List Char) :
    xxdline out text 0 = ⟨out.z, 1, out.fpo ++ text⟩ := by
  have hone : int16 1 = 1 := rfl
  simp [xxdline, hseen, hone]

/-- The second one waits in `z`. -/
theorem xxdline_second (hseen : out.zeroSeen = 1) (text : List Char) :
    xxdline out text 0 = ⟨text, 2, out.fpo⟩ := by
  have htwo : int16 (1 + 1) = 2 := rfl
  simp only [xxdline, hseen, htwo]
  simp

/-- The others are counted. -/
theorem xxdline_more (hseen : 2 ≤ out.zeroSeen) (hfew : out.zeroSeen + 1 < 2 ^ 15)
    (text : List Char) : xxdline out text 0 = ⟨out.z, out.zeroSeen + 1, out.fpo⟩ := by
  have hzero : out.zeroSeen ≠ 0 := by omega
  have hone : out.zeroSeen ≠ 1 := by omega
  have hnext : int16 (out.zeroSeen + 1) = out.zeroSeen + 1 :=
    int16_of_lt (by omega) (by omega)
  simp [xxdline, hzero, hone, hnext]

/-- Any other line is printed, and in front of it what waits. -/
theorem xxdline_printed (hnz : 0 < nz) (text : List Char) :
    (xxdline out text nz).zeroSeen = 0 ∧
      (xxdline out text nz).fpo =
        (if out.zeroSeen > 2 then
          (if out.zeroSeen = 2 then out.fpo ++ out.z else out.fpo) ++ "*\n".toList
        else if out.zeroSeen = 2 then out.fpo ++ out.z else out.fpo) ++ text := by
  have hne : nz ≠ 0 := ne_of_gt hnz
  have hpos : ¬nz < 0 := by omega
  have hge : nz ≥ 0 ∨ out.zeroSeen > 0 := .inl (by omega)
  simp only [xxdline, hne, ne_eq, not_false_eq_true, true_or, if_true, false_and, if_false, hpos,
    true_and, hge]

/-- What is printed of the lines that wait, behind the last one. -/
theorem xxdline_last {seen : ℤ} (hseen : int16 (out.zeroSeen - 1) = seen) (text : List Char) :
    (xxdline out text (-1)).fpo =
      (if seen > 2 then (if seen = 2 then out.fpo ++ out.z else out.fpo) ++ "*\n".toList
        else if seen = 2 then out.fpo ++ out.z else out.fpo) ++
      if seen > 0 then text else [] := by
  have hneg : ¬(-1 : ℤ) = 0 := by decide
  have hlt : (-1 : ℤ) < 0 := by decide
  have hge : ¬(-1 : ℤ) ≥ 0 := by decide
  simp only [xxdline, hneg, hlt, hge, hseen, ne_eq, not_false_eq_true, true_or, if_true, if_false,
    false_and, true_and, false_or]
  split_ifs <;> simp only [List.append_nil]

/-- In front of a line that is printed: a line that waits is printed, and more than one of
them become a star. -/
theorem Printing.flush (hprinting : Printing format options out shown items pending)
    (hnz : 0 < nz) (text : List Char) :
    ∃ items', Dumped format options (shown ++ pending.flatten) items' ∧
      (xxdline out text nz).zeroSeen = 0 ∧
        (xxdline out text nz).fpo = items'.flatMap Item.text ++ text := by
  have hseen := hprinting.seen
  have hfpo := hprinting.fpo
  have hdumped := hprinting.kept.dumped
  obtain ⟨hzero, hprinted⟩ := @xxdline_printed out nz hnz text
  rw [hprinted, hfpo]
  match pending with
  | [] =>
      rw [if_pos rfl] at hseen
      refine ⟨items, by simpa using hdumped, hzero, ?_⟩
      rw [if_neg (by omega), if_neg (by omega)]
  | [chunk] =>
      rw [if_neg (List.cons_ne_nil _ _), List.length_singleton] at hseen
      have hchunk := hprinting.zeros chunk (by simp)
      have hz := hprinting.z chunk rfl
      refine ⟨_, by simpa using hdumped.keep hchunk.length, hzero, ?_⟩
      rw [if_neg (by omega), if_pos (by omega), hz, List.flatMap_append, List.flatMap_singleton]
      rfl
  | chunk :: next :: rest =>
      rw [if_neg (List.cons_ne_nil _ _), List.length_cons, List.length_cons] at hseen
      refine ⟨_, (hdumped.drops hprinting.zeros).star, hzero, ?_⟩
      rw [if_pos (by omega), if_neg (by omega), List.flatMap_append, List.flatMap_singleton]
      rfl

/-- A line that is printed behind all that waited. -/
theorem Printing.keep (hprinting : Printing format options out shown items pending)
    (hnz : 0 < nz) (hchunk : chunk.length = format.cols) :
    ∃ items', Printing format options
      (xxdline out (lineAt format options (shown ++ pending.flatten).length chunk).text nz)
      (shown ++ pending.flatten ++ chunk) items' [] := by
  obtain ⟨items', hdumped, hzero, hfpo⟩ := hprinting.flush hnz
    (lineAt format options (shown ++ pending.flatten).length chunk).text
  refine ⟨items' ++ [.entry (lineAt format options (shown ++ pending.flatten).length chunk)],
    .inr ⟨_, items', chunk, rfl, hchunk, hdumped, rfl⟩, List.forall_mem_nil _, ?_, ?_,
    (fun _ hmem => nomatch hmem), ?_⟩
  · rw [if_pos rfl]
    exact .inl hzero
  · decide
  · rw [hfpo, List.flatMap_append, List.flatMap_singleton]
    rfl

/-- A line of zeroes: the first one is printed, the others wait. -/
theorem Printing.wait (hprinting : Printing format options out shown items pending)
    (hchunk : Zeros format options chunk) (hfew : pending.length + 2 < 2 ^ 15) :
    ∃ shown' items' pending', shown' ++ pending'.flatten = shown ++ pending.flatten ++ chunk ∧
      (pending' ≠ [] → pending'.getLast? = some chunk) ∧
      Printing format options
        (xxdline out (lineAt format options (shown ++ pending.flatten).length chunk).text 0)
        shown' items' pending' := by
  have hseen := hprinting.seen
  by_cases hpending : pending = []
  · subst hpending
    rw [if_pos rfl] at hseen
    rw [List.flatten_nil, List.append_nil]
    rcases hseen with hseen | hseen
    · refine ⟨shown ++ chunk, items ++ [.entry (lineAt format options shown.length chunk)], [],
        by simp, fun hne => absurd rfl hne, ?_⟩
      rw [xxdline_first hseen]
      refine ⟨.inr ⟨shown, items, chunk, rfl, hchunk.length, hprinting.kept.dumped, rfl⟩,
        List.forall_mem_nil _, ?_, by decide, (fun _ hmem => nomatch hmem), ?_⟩
      · rw [if_pos rfl]
        exact .inr rfl
      · dsimp only
        rw [hprinting.fpo, List.flatMap_append, List.flatMap_singleton]
        rfl
    · refine ⟨shown, items, [chunk], by simp, fun _ => rfl, ?_⟩
      rw [xxdline_second hseen]
      refine ⟨hprinting.kept, by simpa using hchunk, ?_, by rw [List.length_singleton]; decide, ?_,
        hprinting.fpo⟩
      · rw [if_neg (List.cons_ne_nil _ _)]
        rfl
      · rintro first ⟨⟩
        rfl
  · rw [if_neg hpending] at hseen
    have hpos := List.length_pos_of_ne_nil hpending
    refine ⟨shown, items, pending ++ [chunk], by simp, fun _ => by simp, ?_⟩
    rw [xxdline_more (by omega) (by omega)]
    refine ⟨hprinting.kept, ?_, ?_, ?_, ?_, hprinting.fpo⟩
    · intro line hline
      rcases List.mem_append.mp hline with hold | hnew
      · exact hprinting.zeros line hold
      · rw [List.mem_singleton.mp hnew]
        exact hchunk
    · rw [if_neg (by simp), List.length_append, List.length_singleton, hseen]
      push_cast
      rfl
    · rw [List.length_append, List.length_singleton]
      exact hfew
    · intro first hfirst
      refine hprinting.z first ?_
      rwa [List.head?_append_of_ne_nil _ hpending] at hfirst

/-- Behind the last line: it is printed if it waits, behind a star or the line before it. -/
theorem Printing.final (hprinting : Printing format options out shown items pending)
    (htext : ∀ last ∈ pending.getLast?,
      text = (lineAt format options (shown ++ pending.dropLast.flatten).length last).text) :
    ∃ items', LastKept format options (shown ++ pending.flatten) items' ∧
      (xxdline out text (-1)).fpo = items'.flatMap Item.text := by
  have hseen := hprinting.seen
  have hfpo := hprinting.fpo
  have hdumped := hprinting.kept.dumped
  match pending with
  | [] =>
      have hline : (xxdline out text (-1)).fpo = out.fpo := by
        rw [if_pos rfl] at hseen
        rcases hseen with hseen | hseen
        · have hnegative : int16 (out.zeroSeen - 1) = -1 := by rw [hseen]; rfl
          simp [xxdline_last hnegative]
        · have hnone : int16 (out.zeroSeen - 1) = 0 := by rw [hseen]; rfl
          simp [xxdline_last hnone]
      refine ⟨items, by simpa using hprinting.kept, ?_⟩
      rw [hline, hfpo]
  | [chunk] =>
      have hline : (xxdline out text (-1)).fpo = out.fpo ++ text := by
        have htwo : out.zeroSeen = 2 := hseen
        have hone : int16 (out.zeroSeen - 1) = 1 := by rw [htwo]; rfl
        simp [xxdline_last hone]
      have hchunk := hprinting.zeros chunk (by simp)
      have hlast := htext chunk rfl
      refine ⟨_, .inr ⟨shown, items, chunk, by simp, hchunk.length, hdumped, rfl⟩, ?_⟩
      rw [hline, hfpo, hlast, List.flatMap_append, List.flatMap_singleton]
      simp [Item.text]
  | [chunk, next] =>
      have hline : (xxdline out text (-1)).fpo = out.fpo ++ out.z ++ text := by
        have hthree : out.zeroSeen = 3 := hseen
        have htwo : int16 (out.zeroSeen - 1) = 2 := by rw [hthree]; rfl
        simp [xxdline_last htwo]
      have hchunk := hprinting.zeros chunk (by simp)
      have hnext := hprinting.zeros next (by simp)
      have hz := hprinting.z chunk rfl
      have hlast := htext next rfl
      refine ⟨_, .inr ⟨shown ++ chunk, _, next, by simp, hnext.length,
        hdumped.keep hchunk.length, rfl⟩, ?_⟩
      rw [hline, hfpo, hlast, hz]
      simp [Item.text]
  | chunk :: next :: third :: rest =>
      have hfew := hprinting.few
      rw [if_neg (List.cons_ne_nil _ _)] at hseen
      have hlength : 3 ≤ (chunk :: next :: third :: rest).length := by simp
      have hless : int16 (out.zeroSeen - 1) = out.zeroSeen - 1 :=
        int16_of_lt (by omega) (by omega)
      have hmany : out.zeroSeen - 1 > 2 := by omega
      have hline : (xxdline out text (-1)).fpo = out.fpo ++ "*\n".toList ++ text := by
        rw [xxdline_last hless, if_pos hmany, if_neg (by omega), if_pos (by omega)]
      obtain ⟨before, last, hpending⟩ : ∃ before last,
          chunk :: next :: third :: rest = before ++ [last] :=
        ⟨_, _, (List.dropLast_append_getLast (List.cons_ne_nil _ _)).symm⟩
      have hzeros := hprinting.zeros
      rw [hpending] at htext hzeros ⊢
      have hlast := htext last (by simp)
      rw [List.dropLast_concat] at hlast
      have hbefore : ∀ line ∈ before, Zeros format options line := fun line hline =>
        hzeros line (List.mem_append_left _ hline)
      refine ⟨_, .inr ⟨shown ++ before.flatten, _, last, by simp, (hzeros last (by simp)).length,
        (hdumped.drops hbefore).star, rfl⟩, ?_⟩
      rw [hline, hfpo, hlast]
      simp [Item.text, star]

/-! ## The whole loop -/

/-- In front of a line, behind some bytes that are dumped. -/
structure Lines (format : Layout .normal) (options : Options) (d : Dump) (front shown : List UInt8)
    (items : List Item) (pending : List (List UInt8)) : Prop where
  p : d.p = 0
  n : d.n = front.length
  nonzero : d.nonzero = 0
  split : shown ++ pending.flatten = front
  printing : Printing format options d.out shown items pending
  last : ∀ last ∈ pending.getLast?,
    cstring d.l = (lineAt format options (shown ++ pending.dropLast.flatten).length last).text

theorem lines_init (format : Layout .normal) (options : Options) (mem : ℕ → Char) :
    Lines format options (.init mem) [] [] [] [] where
  p := rfl
  n := rfl
  nonzero := rfl
  split := rfl
  printing := ⟨.inl ⟨rfl, rfl⟩, List.forall_mem_nil _, .inl rfl, by decide,
    (fun _ hmem => nomatch hmem), rfl⟩
  last := fun _ hmem => nomatch hmem

theorem nonzeros_eq_zero : nonzeros chunk = 0 ↔ ∀ byte ∈ chunk, byte = 0 := by
  rw [nonzeros, List.countP_eq_zero]
  simp

/-- With autoskip, there are never so many lines of zeroes in a row that `zero_seen`
overflows. -/
def FewZeros (format : Layout .normal) (options : Options) (bytes : List UInt8) : Prop :=
  options.autoskip = true → ∀ zeroes, zeroes <:+: bytes → (∀ byte ∈ zeroes, byte = 0) →
    zeroes.length < (2 ^ 15 - 1) * format.cols

theorem FewZeros.before (hfew : FewZeros format options (front ++ bytes)) :
    FewZeros format options front :=
  fun hskip zeroes hzeroes hall =>
    hfew hskip zeroes (hzeroes.trans (List.prefix_append front bytes).isInfix) hall

theorem length_flatten_zeros (hzeros : ∀ chunk ∈ pending, Zeros format options chunk) :
    pending.flatten.length = pending.length * format.cols := by
  induction pending with
  | nil => rw [List.flatten_nil, List.length_nil, List.length_nil, Nat.zero_mul]
  | cons chunk pending ih =>
      obtain ⟨hchunk, hpending⟩ := List.forall_mem_cons.mp hzeros
      rw [List.flatten_cons, List.length_append, hchunk.length, ih hpending, List.length_cons,
        Nat.succ_mul, Nat.add_comm]

/-- One more line of zeroes may wait. -/
theorem Lines.few (hlines : Lines format options d front shown items pending)
    (hchunk : Zeros format options chunk) (hfew : FewZeros format options (front ++ chunk)) :
    pending.length + 2 < 2 ^ 15 := by
  have hpending := hlines.printing.zeros
  have hzeros : ∀ line ∈ pending ++ [chunk], Zeros format options line := by
    intro line hmem
    rcases List.mem_append.mp hmem with hold | hnew
    · exact hpending line hold
    · rw [List.mem_singleton.mp hnew]
      exact hchunk
  have hinfix : (pending ++ [chunk]).flatten <:+: front ++ chunk := by
    rw [← hlines.split, List.append_assoc, List.flatten_append, List.flatten_singleton]
    exact (List.suffix_append shown _).isInfix
  have hall : ∀ byte ∈ (pending ++ [chunk]).flatten, byte = 0 := by
    intro byte hbyte
    obtain ⟨line, hline, hmem⟩ := List.mem_flatten.mp hbyte
    exact (hzeros line hline).zero byte hmem
  have hlt := hfew hchunk.skip _ hinfix hall
  rw [length_flatten_zeros hzeros] at hlt
  have hcount := Nat.lt_of_mul_lt_mul_right hlt
  rw [List.length_append, List.length_singleton] at hcount
  omega

/-- A full line is printed, or waits. -/
theorem Lines.step (hfits : format.Fits)
    (hlines : Lines format options d front shown items pending)
    (hchunk : chunk.length = format.cols) (hfew : FewZeros format options (front ++ chunk)) :
    ∃ shown' items' pending', Lines format options (chunk.foldl (dumpByte format options) d)
      (front ++ chunk) shown' items' pending' := by
  have hended : Ended format options d (chunk.foldl (dumpByte format options) d) chunk :=
    ended hfits hlines.p hlines.nonzero hchunk
  have hn : (chunk.foldl (dumpByte format options) d).n = (front ++ chunk).length := by
    rw [hended.n, hlines.n, List.length_append]
  have hout := hended.out
  rw [hlines.n, ← hlines.split] at hout
  by_cases hzero : options.autoskip = true ∧ nonzeros chunk = 0
  · have hzeros : Zeros format options chunk :=
      ⟨hchunk, nonzeros_eq_zero.mp hzero.2, hzero.1⟩
    have hnz : lineNz options chunk = 0 := by
      rw [lineNz, if_pos hzero.1, hzero.2]
      rfl
    obtain ⟨shown', items', pending', hsplit, hlast, hprinting⟩ := hlines.printing.wait hzeros
      (hlines.few hzeros hfew)
    refine ⟨shown', items', pending', hended.p, hn, hended.nonzero, ?_, ?_, ?_⟩
    · rw [hsplit, hlines.split]
    · rw [hout, hnz]
      exact hprinting
    · intro last hmem
      have hne : pending' ≠ [] := by
        rintro rfl
        cases hmem
      obtain rfl : chunk = last := Option.some.inj ((hlast hne).symm.trans hmem)
      have hconcat : pending' = pending'.dropLast ++ [chunk] :=
        (List.dropLast_append_getLast? chunk hmem).symm
      have hlength := congrArg List.length hsplit
      rw [hlines.split, hconcat, List.flatten_append, List.flatten_singleton] at hlength
      have hoffset : (shown' ++ pending'.dropLast.flatten).length = front.length := by
        simp only [List.length_append] at hlength ⊢
        omega
      rw [hended.l, hlines.n, hoffset]
  · have hnz : 0 < lineNz options chunk := by
      rw [lineNz]
      split_ifs with hskip
      · have hpos : nonzeros chunk ≠ 0 := fun heq => hzero ⟨hskip, heq⟩
        omega
      · decide
    obtain ⟨items', hprinting⟩ := hlines.printing.keep hnz hchunk
    refine ⟨shown ++ pending.flatten ++ chunk, items', [], hended.p, hn, hended.nonzero, ?_, ?_,
      fun _ hmem => nomatch hmem⟩
    · rw [List.flatten_nil, List.append_nil, hlines.split]
    · rw [hout]
      exact hprinting

/-- The bytes of a whole dump: the full lines, and what is left for the last one. -/
theorem exists_lines (hfits : format.Fits) (bytes : List UInt8)
    (hlines : Lines format options d front shown items pending)
    (hfew : FewZeros format options (front ++ bytes)) :
    ∃ full rest shown' items' pending', bytes = full ++ rest ∧ rest.length < format.cols ∧
      Lines format options (full.foldl (dumpByte format options) d) (front ++ full) shown' items'
        pending' := by
  have hcols := format.one_le_cols
  induction hlength : bytes.length using Nat.strongRecOn generalizing bytes d front shown items
    pending with
  | ind length ih =>
      subst hlength
      rcases Nat.lt_or_ge bytes.length format.cols with hshort | hlong
      · exact ⟨[], bytes, shown, items, pending, rfl, hshort, by simpa using hlines⟩
      · have hchunk : (bytes.take format.cols).length = format.cols := by
          rw [List.length_take]
          omega
        rw [← List.take_append_drop format.cols bytes, ← List.append_assoc] at hfew
        obtain ⟨shown₁, items₁, pending₁, hlines₁⟩ := hlines.step hfits hchunk hfew.before
        obtain ⟨full, rest, shown₂, items₂, pending₂, hrest, hshort, hlines₂⟩ :=
          ih (bytes.drop format.cols).length (by rw [List.length_drop]; omega)
            (bytes.drop format.cols) hlines₁ hfew rfl
        refine ⟨bytes.take format.cols ++ full, rest, shown₂, items₂, pending₂, ?_, hshort, ?_⟩
        · rw [List.append_assoc, ← hrest, List.take_append_drop]
        · rw [List.foldl_append, ← List.append_assoc]
          exact hlines₂

/-- What is printed for bytes: full lines, of which the last is kept, or any of them before a
line that is not full. -/
theorem exists_dumped (options : Options) (mem : ℕ → Char) (hfits : format.Fits)
    (hfew : FewZeros format options bytes) :
    ∃ full rest items, bytes = full ++ rest ∧ rest.length < format.cols ∧
      (if rest = [] then LastKept format options full items
        else Dumped format options full items) ∧
      (dump format options mem bytes).out.fpo = items.flatMap Item.text ++
        if rest = [] then [] else (lineAt format options full.length rest).text := by
  obtain ⟨full, rest, shown, items, pending, hsplit, hshort, hlines⟩ :=
    exists_lines hfits bytes (lines_init format options mem) hfew
  rw [List.nil_append] at hlines
  have hadding : Adding format options (full.foldl (dumpByte format options) (.init mem))
      (rest.foldl (dumpByte format options) (full.foldl (dumpByte format options) (.init mem)))
      rest := (adding_nil hlines.p hlines.nonzero).run hfits (by simpa using hshort)
  have hdump : dump format options mem bytes = finish format options
      (rest.foldl (dumpByte format options)
        (full.foldl (dumpByte format options) (.init mem))) := by
    rw [dump, hsplit, List.foldl_append]
  rw [hdump]
  generalize full.foldl (dumpByte format options) (.init mem) = d₀ at hlines hadding
  by_cases hrest : rest = []
  · subst hrest
    rw [List.append_nil] at hsplit
    rw [List.foldl_nil, finish, if_neg (not_not.mpr hlines.p)]
    by_cases hskip : options.autoskip = true
    · obtain ⟨items', hkept, hfpo⟩ := hlines.printing.final hlines.last
      rw [hlines.split] at hkept
      refine ⟨full, [], items', by rw [hsplit, List.append_nil], hshort, by rwa [if_pos rfl], ?_⟩
      rw [if_pos hskip, if_pos rfl, List.append_nil]
      exact hfpo
    · have hpending : pending = [] := by
        rcases pending with _ | ⟨chunk, pending⟩
        · rfl
        · exact absurd (hlines.printing.zeros chunk List.mem_cons_self).skip hskip
      have hshown := hlines.split
      rw [hpending, List.flatten_nil, List.append_nil] at hshown
      subst hshown
      refine ⟨shown, [], items, by rw [hsplit, List.append_nil], hshort, ?_, ?_⟩
      · rw [if_pos rfl]
        exact hlines.printing.kept
      · rw [if_neg hskip, if_pos rfl, List.append_nil]
        exact hlines.printing.fpo
  · have hp : (rest.foldl (dumpByte format options) d₀).p ≠ 0 := by
      rw [hadding.p]
      exact Nat.ne_of_gt (List.length_pos_of_ne_nil hrest)
    have hline := (hadding.holds hrest).cstring hfits (Nat.le_of_lt hshort)
    obtain ⟨items', hdumped, -, hfpo⟩ := hlines.printing.flush Int.one_pos
      (lineAt format options full.length rest).text
    refine ⟨full, rest, items', hsplit, hshort, ?_, ?_⟩
    · rw [if_neg hrest, ← hlines.split]
      exact hdumped
    · rw [if_neg hrest, finish, if_pos hp, printLine]
      dsimp only
      rw [hadding.p, hline, hadding.out, hlines.n, hfpo]

/-! ## Reverting -/

/-- The places of so many bytes are in the range of a `long`, in the dump and in the output. -/
structure InRange (options : Options) (baseOff : ℤ) (count : ℕ) : Prop where
  base : 0 ≤ options.base
  dump : options.base + count < 2 ^ 31
  start : 0 ≤ baseOff + options.base
  output : baseOff + options.base + count < 2 ^ 31

section Revert

variable {seekable : Bool} {baseOff : ℤ} {f g rest : List UInt8} {count : ℕ}
  (hrange : InRange options baseOff count)
include hrange

theorem InRange.mono {less : ℕ} (hless : less ≤ count) : InRange options baseOff less :=
  ⟨hrange.base, by have := hrange.dump; omega, hrange.start, by have := hrange.output; omega⟩

theorem number_lineAt (format : Layout .normal) (chunk : List UInt8) :
    (number (lineAt format options count chunk).offset : ℤ) = count + options.base := by
  have hbase := hrange.base
  have hdump := hrange.dump
  have hoffset : lineOffset options count = (count + options.base).toNat := by
    rw [lineOffset, Int.emod_eq_of_lt (by omega) (by omega)]
  have hfield : (lineAt format options count chunk).offset =
      offsetText (lineOffset options count) := rfl
  rw [hfield, hoffset, number_offsetText (by omega)]
  exact Int.toNat_of_nonneg (by omega)

/-- Where the bytes of a line go. -/
theorem patch_lineAt (format : Layout .normal) (f chunk : List UInt8) :
    (lineAt format options count chunk).patch baseOff f =
      pwrite f ((baseOff + options.base).toNat + count) chunk := by
  have hstart := hrange.start
  rw [Line.patch, number_lineAt hrange format]
  have hplace : (baseOff + (count + options.base)).toNat =
      (baseOff + options.base).toNat + count := by omega
  rw [hplace]
  rfl

omit hrange in
theorem fits_lineAt (hrange : InRange options baseOff (count + chunk.length))
    (hreach : seekable = true ∨ f.length ≤ (baseOff + options.base).toNat + count) :
    (lineAt format options count chunk).Fits seekable baseOff f := by
  have hnumber := number_lineAt (hrange.mono (Nat.le_add_right count _)) format chunk
  have hbase := hrange.base
  have hdump := hrange.dump
  have hstart := hrange.start
  have houtput := hrange.output
  have hbytes : (lineAt format options count chunk).bytes = chunk := rfl
  push_cast at hdump houtput
  refine ⟨by omega, ?_, ?_, hreach.imp_right fun hle => by omega⟩
  · rw [hbytes]
    omega
  · rw [hbytes, hnumber]
    omega

end Revert

/-- The output `g` is that of `f` with some bytes written to it, up to zeros at its end. -/
structure Reverted (f : List UInt8) (start : ℕ) (front g : List UInt8) : Prop where
  cells : ∀ i, g.getD i 0 = (pwrite f start front).getD i 0
  le_length : f.length ≤ g.length
  length_le : g.length ≤ max f.length (start + front.length)

theorem Reverted.refl (f : List UInt8) (start : ℕ) : Reverted f start [] f :=
  ⟨fun i => by rw [pwrite_nil], le_rfl, Nat.le_max_left _ _⟩

theorem Reverted.append {f front g : List UInt8} {start : ℕ} (hg : Reverted f start front g)
    {rest : List UInt8} (hrest : rest ≠ []) :
    pwrite g (start + front.length) rest = pwrite f start (front ++ rest) := by
  have hle := hg.le_length
  have hlength := hg.length_le
  apply ext_getD
  · rw [length_pwrite_max _ _ hrest, length_pwrite_max _ _ (by simp [hrest]), List.length_append]
    omega
  · intro i
    rw [← pwrite_append, getD_pwrite, getD_pwrite (pwrite f start front), hg.cells]

theorem Reverted.keep {f front g : List UInt8} {start : ℕ} (hg : Reverted f start front g)
    {rest : List UInt8} (hrest : rest ≠ []) :
    Reverted f start (front ++ rest) (pwrite g (start + front.length) rest) := by
  have hne : front ++ rest ≠ [] := by simp [hrest]
  rw [hg.append hrest]
  exact ⟨fun _ => rfl, length_le_length_pwrite _ _ _, Nat.le_of_eq (length_pwrite_max _ _ hne)⟩

/-- Zeros need not be written where there are zeros. -/
theorem Reverted.drop {f front g : List UInt8} {start : ℕ} (hg : Reverted f start front g)
    (hf : ∀ i ≥ start, f.getD i 0 = 0) {rest : List UInt8} (hrest : ∀ byte ∈ rest, byte = 0) :
    Reverted f start (front ++ rest) g := by
  refine ⟨fun i => ?_, hg.le_length, hg.length_le.trans ?_⟩
  · rw [hg.cells, ← pwrite_append, getD_pwrite (pwrite f start front)]
    split_ifs with hin
    · have hzero : rest.getD (i - (start + front.length)) 0 = 0 := by
        rw [List.getD_eq_getElem?_getD]
        rcases hget : rest[i - (start + front.length)]? with _ | byte
        · rfl
        · exact hrest byte (List.mem_of_getElem? hget)
      rw [hzero, getD_pwrite, if_neg (by omega)]
      exact hf i (by omega)
    · rfl
  · rw [List.length_append]
    omega

theorem full_append {seekable : Bool} {cols : ℕ} {baseOff : ℤ} {f : List UInt8}
    {items more : List Item} (hitems : Full seekable cols baseOff f items)
    (hmore : Full seekable cols baseOff (items.foldl (Item.patch baseOff) f) more) :
    Full seekable cols baseOff f (items ++ more) := by
  induction items generalizing f with
  | nil => exact hmore
  | cons item items ih =>
      cases item with
      | entry line => exact ⟨hitems.1, hitems.2.1, ih hitems.2.2 hmore⟩
      | note text hplain => exact ih hitems hmore

section Dumped

variable {seekable : Bool} {baseOff : ℤ} {f : List UInt8}

/-- What was dumped is written. -/
theorem Dumped.revert (hdumped : Dumped format options front items)
    (hrange : InRange options baseOff front.length) (hreach : seekable = true ∨ f = [])
    (hzeros : options.autoskip = true → ∀ i ≥ (baseOff + options.base).toNat, f.getD i 0 = 0) :
    Full seekable format.cols baseOff f items ∧
      Reverted f (baseOff + options.base).toNat front (items.foldl (Item.patch baseOff) f) := by
  have hcols := format.one_le_cols
  induction hdumped with
  | nil => exact ⟨trivial, .refl _ _⟩
  | @keep front chunk items hfront hchunk ih =>
      rw [List.length_append] at hrange
      obtain ⟨hfull, hreverted⟩ := ih (hrange.mono (Nat.le_add_right _ _))
      have hne : chunk ≠ [] := by
        rintro rfl
        rw [List.length_nil] at hchunk
        omega
      have hpatch := patch_lineAt (hrange.mono (Nat.le_add_right _ _)) format
        (items.foldl (Item.patch baseOff) f) chunk
      refine ⟨full_append hfull ⟨hchunk, fits_lineAt hrange ?_, trivial⟩, ?_⟩
      · refine hreach.imp_right ?_
        rintro rfl
        have hlength := hreverted.length_le
        rw [List.length_nil] at hlength
        omega
      · rw [List.foldl_append, List.foldl_cons, List.foldl_nil, Item.patch, hpatch]
        exact hreverted.keep hne
  | @drop front chunk items hfront hskip hchunk hzero ih =>
      rw [List.length_append] at hrange
      obtain ⟨hfull, hreverted⟩ := ih (hrange.mono (Nat.le_add_right _ _))
      exact ⟨hfull, hreverted.drop (hzeros hskip) hzero⟩
  | @star front items hfront ih =>
      obtain ⟨hfull, hreverted⟩ := ih hrange
      refine ⟨full_append hfull trivial, ?_⟩
      rw [List.foldl_append]
      exact hreverted

theorem LastKept.revert (hkept : LastKept format options front items)
    (hrange : InRange options baseOff front.length) (hreach : seekable = true ∨ f = [])
    (hzeros : options.autoskip = true → ∀ i ≥ (baseOff + options.base).toNat, f.getD i 0 = 0) :
    items.foldl (Item.patch baseOff) f = pwrite f (baseOff + options.base).toNat front := by
  rcases hkept with ⟨rfl, rfl⟩ | ⟨before, items', chunk, rfl, hchunk, hbefore, rfl⟩
  · rw [pwrite_nil]
    rfl
  · rw [List.length_append] at hrange
    have hcols := format.one_le_cols
    have hless := hrange.mono (Nat.le_add_right before.length chunk.length)
    obtain ⟨-, hreverted⟩ := hbefore.revert hless hreach hzeros
    have hne : chunk ≠ [] := by
      rintro rfl
      rw [List.length_nil] at hchunk
      omega
    rw [List.foldl_append, List.foldl_cons, List.foldl_nil, Item.patch, patch_lineAt hless]
    exact hreverted.append hne

end Dumped

/-- What is dumped is reverted: the bytes are written to the output where they were in the
input, and nothing else is changed, for any columns and groups, either case of digits and
either character set, and also if carriage returns are put anywhere into the dump.  Lines of
zeroes that are left out need an output that has zeros there. -/
theorem huntype_dump {seekable : Bool} {baseOff : ℤ} {f : List UInt8} {text : List Char}
    (format : Layout .normal) (options : Options) (mem : ℕ → Char) (bytes : List UInt8)
    (hplaces : format.Fits) (hfew : FewZeros format options bytes)
    (hrange : InRange options baseOff bytes.length) (hreach : seekable = true ∨ f = [])
    (hzeros : options.autoskip = true → ∀ i ≥ (baseOff + options.base).toNat, f.getD i 0 = 0)
    (htext : text.filter (· ≠ '\r') = (dump format options mem bytes).out.fpo) :
    huntype seekable format.cols .normal baseOff text f =
      (0, pwrite f (baseOff + options.base).toNat bytes) := by
  obtain ⟨full, rest, items, hsplit, hshort, hdumped, hfpo⟩ :=
    exists_dumped options mem hplaces hfew
  rw [hsplit, List.length_append] at hrange
  have hfront := hrange.mono (Nat.le_add_right full.length rest.length)
  rw [← huntype_filter, htext, hfpo]
  by_cases hrest : rest = []
  · subst hrest
    rw [if_pos rfl] at hdumped ⊢
    obtain ⟨hfull, -⟩ := hdumped.dumped.revert hfront hreach hzeros
    have hrun := huntype_patches none format.one_le_cols hreach hfull
      (fun _ hmem => nomatch hmem)
    rw [Option.elim_none] at hrun
    rw [hrun, Option.elim_none, hdumped.revert hfront hreach hzeros, hsplit,
      List.append_nil]
  · rw [if_neg hrest] at hdumped ⊢
    obtain ⟨hfull, hreverted⟩ := hdumped.revert hfront hreach hzeros
    have hpadding := (textPlace_eq_add format options (Nat.le_of_lt hshort)).2
    have hfits : (lineAt format options full.length rest).Fits seekable baseOff
        (items.foldl (Item.patch baseOff) f) := by
      refine fits_lineAt hrange (hreach.imp_right ?_)
      rintro rfl
      have hlength := hreverted.length_le
      rw [List.length_nil] at hlength
      omega
    have htail : ∃ tail, (lineAt format options full.length rest).tail = ' ' :: ' ' :: tail := by
      obtain ⟨blanks, hblanks⟩ := Nat.exists_eq_add_of_le' hpadding
      refine ⟨List.replicate blanks ' ' ++ lineText options rest, ?_⟩
      change List.replicate (padding format options rest) ' ' ++ lineText options rest = _
      rw [hblanks]
      rfl
    have hrun := huntype_patches (some (lineAt format options full.length rest))
      format.one_le_cols hreach hfull (by
        rintro line ⟨⟩
        exact ⟨hfits, hrest, hshort, htail⟩)
    rw [Option.elim_some] at hrun
    rw [hrun, Option.elim_some, patch_lineAt hfront, hreverted.append hrest, hsplit]

/-- Two bytes in a line. -/
def pairs : Layout .normal := ⟨2, 2, by decide, fun _ _ => by decide, by decide, le_rfl⟩

/-- Three lines of zeroes, of which two are left out, and a byte behind them. -/
theorem huntype_dump_zeros :
    huntype false 2 .normal 0 (dump pairs ⟨false, false, true, 3⟩ (fun _ => 'x')
      [0, 0, 0, 0, 0, 0, 5]).out.fpo [] = (0, [0, 0, 0, 0, 0, 0, 0, 0, 0, 5]) := by
  refine huntype_dump pairs ⟨false, false, true, 3⟩ (fun _ => 'x') [0, 0, 0, 0, 0, 0, 5]
    ⟨by decide, nofun⟩ ?_ ⟨by decide, by decide, by decide, by decide⟩ (.inr rfl)
    (fun _ _ _ => rfl) ?_
  · intro _ zeroes hzeroes _
    exact Nat.lt_of_le_of_lt hzeroes.length_le (by decide)
  · decide +kernel

end Fip.Xxd
