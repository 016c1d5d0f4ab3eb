import Fip.Core.Scan

/-!
# The parse of IRC messages

`proc_proto` cuts the line in `pbuf` into strings and keeps pointers to them, as offsets
here.  It ends the parse without a parameter if the command is `005`.  A load or a store
outside of `pbuf`, or a store outside of `param[0..5]`, has no result.  `pbuf` may have
any size.
-/

namespace Fip.Firc.Parse

def space : UInt8 := 0x20

def colon : UInt8 := 0x3a

/-- Puts the end of a string behind the word at `p`, and skips the spaces. -/
def skip (pbuf : List UInt8) (p : ℕ) : Option (List UInt8 × ℕ) := do
  let p ← scan (fun c => c != space && c != 0) (pbuf.drop p) p
  let c ← pbuf[p]?
  if c = 0 then some (pbuf, p)
  else
    let pbuf := pbuf.set p 0
    let p ← scan (· == space) (pbuf.drop (p + 1)) (p + 1)
    some (pbuf, p)

/-- The globals that the parse sets; `none` is NULL. -/
structure Globals where
  pbuf : List UInt8
  pref : Option ℕ
  com : ℕ
  param : ℕ → ℕ
  paramNo : ℕ
  mes : Option ℕ

/-- `param[param_no++] = p` and `mes = p` -/
def Globals.store (s : Globals) (p : ℕ) : Option Globals :=
  if s.paramNo < 6 then
    some { s with
      param := Function.update s.param s.paramNo p
      paramNo := s.paramNo + 1
      mes := some p }
  else none

/-- The loop over the parameters.  Every round takes a byte of the buffer, so this fuel
lasts. -/
def paramLoop : ℕ → Globals → ℕ → Option Globals
  | 0, _, _ => none
  | fuel + 1, s, p => do
      let c ← s.pbuf[p]?
      if c = colon then s.store (p + 1)
      else if c = 0 then some s
      else
        let s ← s.store p
        let (pbuf, p) ← skip s.pbuf p
        paramLoop fuel { s with pbuf := pbuf } p

/-- `":prefix "`, if there is one -/
def parsePrefix (pbuf : List UInt8) : Option (List UInt8 × Option ℕ × ℕ) := do
  let c ← pbuf[0]?
  if c = colon then
    let (pbuf, p) ← skip pbuf 1
    some (pbuf, some 1, p)
  else some (pbuf, none, 0)

/-- What `proc_proto` does before it looks at the command for anything but `005`. -/
def procProto (param : ℕ → ℕ) (pbuf : List UInt8) : Option Globals := do
  let (pbuf, pref, com) ← parsePrefix pbuf
  let (pbuf, p) ← skip pbuf com
  let s : Globals := ⟨pbuf, pref, com, param, 0, none⟩
  if stringAt pbuf com = [0x30, 0x30, 0x35] then some s
  else paramLoop (pbuf.length + 1) s p

/-- `param[0..param_no-1]` -/
def Globals.params (s : Globals) : List ℕ :=
  (List.range s.paramNo).map s.param

/-! ## The grammar -/

/-- Neither a space nor a NUL. -/
structure Piece where
  text : List UInt8
  noSpace : space ∉ text
  noZero : 0 ∉ text

/-- A piece that is not empty and does not start with a colon. -/
structure Word extends Piece where
  nonempty : text ≠ []
  noColon : text.head? ≠ some colon

/-- One or more spaces. -/
def spaces (more : ℕ) : List UInt8 :=
  List.replicate (more + 1) space

/-- Middle parameters and perhaps a trailing one, each behind its spaces. -/
inductive Params
  | none
  | trailing (gap : ℕ) (text : List UInt8) (noZero : 0 ∉ text)
  | middle (gap : ℕ) (word : Word) (more : Params)

namespace Params

def text : Params → List UInt8
  | none => []
  | trailing gap text _ => spaces gap ++ colon :: text
  | middle gap word more => spaces gap ++ (word.text ++ more.text)

/-- The parameters, in order. -/
def list : Params → List (List UInt8)
  | none => []
  | trailing _ text _ => [text]
  | middle _ word more => word.text :: more.list

end Params

/-- The lines of the grammar, with any number of parameters. -/
structure Line where
  pref : Option (Piece × ℕ)
  command : Word
  params : Params
  not_005 : command.text ≠ [0x30, 0x30, 0x35]

def Line.prefixText (line : Line) : List UInt8 :=
  match line.pref with
  | some (piece, gap) => colon :: (piece.text ++ spaces gap)
  | none => []

def Line.text (line : Line) : List UInt8 :=
  line.prefixText ++ (line.command.text ++ line.params.text)

/-- The pointers are set to the parts of the line, and to nothing outside. -/
structure Line.ParsedAs (line : Line) (s : Globals) : Prop where
  pref_eq : s.pref.map (stringAt s.pbuf) = line.pref.map (·.1.text)
  command_eq : stringAt s.pbuf s.com = line.command.text
  params_eq : s.params.map (stringAt s.pbuf) = line.params.list
  mes_eq : s.mes.map (stringAt s.pbuf) = line.params.list.getLast?

/-- The line is parsed as the grammar says, whatever stands behind it in `pbuf` and
whatever `param` holds from before. -/
def Line.Parses (line : Line) : Prop :=
  ∀ param rest, ∃ s, procProto param (line.text ++ 0 :: rest) = some s ∧ line.ParsedAs s

/-! ## What the loop leaves in the buffer -/

namespace Params

/-- What `skip` makes of the spaces in front. -/
def gap : Params → List UInt8
  | none => []
  | trailing gap _ _ => 0 :: List.replicate gap space
  | middle gap _ _ => 0 :: List.replicate gap space

/-- What follows the spaces. -/
def ahead : Params → List UInt8
  | none => []
  | trailing _ text _ => colon :: text
  | middle _ word more => word.text ++ more.text

/-- What the loop makes of it. -/
def cut : Params → List UInt8
  | none => []
  | trailing _ text _ => colon :: text
  | middle _ word more => word.text ++ (more.gap ++ more.cut)

/-- A NUL follows the string in front of the parameters. -/
theorem gap_ahead (params : Params) (rest : List UInt8) :
    ∃ more, params.gap ++ (params.ahead ++ 0 :: rest) = 0 :: more := by
  cases params <;> exact ⟨_, rfl⟩

theorem gap_cut (params : Params) (rest : List UInt8) :
    ∃ more, params.gap ++ (params.cut ++ 0 :: rest) = 0 :: more := by
  cases params <;> exact ⟨_, rfl⟩

theorem length_ahead (params : Params) : params.ahead.length ≤ params.text.length := by
  cases params <;> simp [ahead, Params.text]

theorem length_list (params : Params) : params.list.length ≤ params.ahead.length := by
  induction params with
  | none => exact Nat.le_refl 0
  | trailing gap text => exact Nat.le_add_left 1 _
  | middle gap word more ih =>
      have hword := List.length_pos_iff.mpr word.nonempty
      have hmore := ih.trans more.length_ahead
      rw [list, ahead, List.length_cons, List.length_append]
      omega

end Params

/-! ## skip -/

theorem Word.head (word : Word) :
    ∃ c letters, word.text = c :: letters ∧ c ≠ space ∧ c ≠ 0 ∧ c ≠ colon := by
  obtain ⟨c, letters, htext⟩ := List.exists_cons_of_ne_nil word.nonempty
  have hmem : c ∈ word.text := htext ▸ List.mem_cons_self
  refine ⟨c, letters, htext, ?_, ?_, ?_⟩
  · exact fun hspace => word.noSpace (hspace ▸ hmem)
  · exact fun hzero => word.noZero (hzero ▸ hmem)
  · intro hcolon
    refine word.noColon ?_
    rw [htext, hcolon]
    rfl

theorem skip_end (front : List UInt8) (piece : Piece) (rest : List UInt8) :
    skip (front ++ (piece.text ++ 0 :: rest)) front.length =
      some (front ++ (piece.text ++ 0 :: rest), front.length + piece.text.length) := by
  simp only [skip, Option.bind_eq_bind, List.drop_left,
    scan_word piece.noSpace piece.noZero (.inr rfl), Option.bind_some, getElem?_behind]
  rfl

theorem skip_spaces (front : List UInt8) (piece : Piece) (more : ℕ) {c : UInt8}
    (hc : c ≠ space) (rest : List UInt8) :
    skip (front ++ (piece.text ++ (spaces more ++ c :: rest))) front.length =
      some (front ++ (piece.text ++ (0 :: List.replicate more space ++ c :: rest)),
        front.length + piece.text.length + 1 + more) := by
  have hspaces : spaces more ++ c :: rest = space :: (List.replicate more space ++ c :: rest) :=
    rfl
  have hskip : scan (· == space) (List.replicate more space ++ c :: rest)
      (front.length + piece.text.length + 1) =
        some (front.length + piece.text.length + 1 + more) := by
    refine (scan_append ?_ ?_ rest _).trans ?_
    · intro letter hletter
      exact beq_iff_eq.mpr (List.eq_of_mem_replicate hletter)
    · exact beq_eq_false_iff_ne.mpr hc
    · rw [List.length_replicate]
  simp only [skip, Option.bind_eq_bind, hspaces, List.drop_left,
    scan_word piece.noSpace piece.noZero (.inl rfl), Option.bind_some, getElem?_behind, set_behind,
    drop_behind, hskip]
  rfl

/-- What `skip` does with a piece in front of parameters. -/
theorem skip_params (front : List UInt8) (piece : Piece) (params : Params)
    (rest : List UInt8) :
    skip (front ++ (piece.text ++ (params.text ++ 0 :: rest))) front.length =
      some (front ++ (piece.text ++ (params.gap ++ (params.ahead ++ 0 :: rest))),
        (front ++ (piece.text ++ params.gap)).length) := by
  cases params with
  | none =>
      rw [List.length_append, List.length_append]
      exact skip_end front piece rest
  | trailing gap text noZero =>
      have hskip := skip_spaces front piece gap (by decide : colon ≠ space)
        (text ++ 0 :: rest)
      simp only [Params.text, Params.gap, Params.ahead, List.append_assoc, List.cons_append,
        List.length_append, List.length_cons, List.length_replicate] at hskip ⊢
      rw [hskip]
      congr 2
      omega
  | middle gap word more =>
      obtain ⟨c, letters, htext, hspace, _, _⟩ := word.head
      have hskip := skip_spaces front piece gap hspace
        (letters ++ (more.text ++ 0 :: rest))
      simp only [Params.text, Params.gap, Params.ahead, htext, List.append_assoc,
        List.cons_append, List.length_append, List.length_cons,
        List.length_replicate] at hskip ⊢
      rw [hskip]
      congr 2
      omega

/-! ## The loop over the parameters -/

section

variable {s : Globals}

theorem store_of_room (hroom : s.paramNo < 6) (p : ℕ) :
    ∃ s', s.store p = some s' ∧ s'.pbuf = s.pbuf ∧ s'.pref = s.pref ∧ s'.com = s.com ∧
      s'.paramNo = s.paramNo + 1 ∧ s'.params = s.params ++ [p] ∧ s'.mes = some p :=
  ⟨_, if_pos hroom, rfl, rfl, rfl, rfl, map_update_range_succ _ _ _, rfl⟩

theorem store_of_full (hfull : ¬ s.paramNo < 6) (p : ℕ) : s.store p = none :=
  if_neg hfull

theorem paramLoop_none (fuel : ℕ) (front rest : List UInt8)
    (hpbuf : s.pbuf = front ++ 0 :: rest) : paramLoop (fuel + 1) s front.length = some s := by
  have hload : s.pbuf[front.length]? = some 0 := by
    rw [hpbuf, getElem?_append_length]
  simp only [paramLoop, Option.bind_eq_bind, hload, Option.bind_some]
  rfl

theorem paramLoop_trailing (fuel : ℕ) (front rest : List UInt8)
    (hpbuf : s.pbuf = front ++ colon :: rest) :
    paramLoop (fuel + 1) s front.length = s.store (front.length + 1) := by
  have hload : s.pbuf[front.length]? = some colon := by
    rw [hpbuf, getElem?_append_length]
  simp only [paramLoop, Option.bind_eq_bind, hload, Option.bind_some]
  rfl

theorem paramLoop_middle (fuel : ℕ) (front : List UInt8) (word : Word) (more : Params)
    (rest : List UInt8)
    (hpbuf : s.pbuf = front ++ (word.text ++ (more.text ++ 0 :: rest))) :
    paramLoop (fuel + 1) s front.length = (s.store front.length).bind fun s' =>
      paramLoop fuel
        { s' with pbuf := front ++ (word.text ++ (more.gap ++ (more.ahead ++ 0 :: rest))) }
        (front ++ (word.text ++ more.gap)).length := by
  obtain ⟨c, letters, htext, _, hzero, hcolon⟩ := word.head
  have hload : s.pbuf[front.length]? = some c := by
    rw [hpbuf, htext]
    exact getElem?_append_length front c _
  rw [paramLoop]
  simp only [Option.bind_eq_bind, hload, Option.bind_some, if_neg hcolon, if_neg hzero]
  by_cases hroom : s.paramNo < 6
  · obtain ⟨s', hstore, hsame, _⟩ := store_of_room hroom front.length
    rw [hstore, Option.bind_some, Option.bind_some, hsame, hpbuf, skip_params, Option.bind_some]
  · rw [store_of_full hroom]
    rfl

/-- What the loop adds to the globals: pointers to the parameters, the last of which is
`mes`. -/
structure Extends (s s' : Globals) (list : List (List UInt8)) (ptrs : List ℕ) : Prop where
  pref_eq : s'.pref = s.pref
  com_eq : s'.com = s.com
  params_eq : s'.params = s.params ++ ptrs
  texts_eq : ptrs.map (stringAt s'.pbuf) = list
  mes_eq : s'.mes = ptrs.getLast?.or s.mes

/-- In front of the parameters, the loop stores a pointer to each, if there is room for
them. -/
theorem paramLoop_fits {params : Params} {front rest : List UInt8} {fuel : ℕ}
    (hpbuf : s.pbuf = front ++ (params.ahead ++ 0 :: rest))
    (hroom : s.paramNo + params.list.length ≤ 6) (hfuel : params.list.length < fuel) :
    ∃ s' ptrs, paramLoop fuel s front.length = some s' ∧
      s'.pbuf = front ++ (params.cut ++ 0 :: rest) ∧
      Extends s s' params.list ptrs := by
  induction params generalizing s front fuel with
  | none =>
      obtain ⟨fuel, rfl⟩ := Nat.exists_eq_succ_of_ne_zero (Nat.ne_zero_of_lt hfuel)
      exact ⟨s, [], paramLoop_none fuel front rest hpbuf, hpbuf, rfl, rfl,
        (List.append_nil _).symm, rfl, rfl⟩
  | trailing gap text hzero =>
      obtain ⟨fuel, rfl⟩ := Nat.exists_eq_succ_of_ne_zero (Nat.ne_zero_of_lt hfuel)
      obtain ⟨s', hstore, hsame, hpref, hcom, _, hparams, hmes⟩ :=
        store_of_room (Nat.lt_of_succ_le hroom) (front.length + 1)
      have htext : stringAt s'.pbuf (front.length + 1) = text := by
        have hmem : s'.pbuf = (front ++ [colon]) ++ (text ++ 0 :: rest) := by
          rw [hsame, hpbuf, Params.ahead]
          simp only [List.append_assoc, List.cons_append, List.nil_append]
        have hlength : front.length + 1 = (front ++ [colon]).length := by
          simp only [List.length_append, List.length_singleton]
        rw [hmem, hlength, stringAt_append _ hzero]
      refine ⟨s', [front.length + 1], ?_, hsame.trans hpbuf, hpref, hcom, hparams, ?_, hmes⟩
      · exact (paramLoop_trailing fuel front _ hpbuf).trans hstore
      · rw [List.map_singleton, htext]
        rfl
  | middle gap word more ih =>
      obtain ⟨fuel, rfl⟩ := Nat.exists_eq_succ_of_ne_zero (Nat.ne_zero_of_lt hfuel)
      rw [Params.list, List.length_cons] at hroom hfuel
      obtain ⟨s₁, hstore, hsame, hpref, hcom, hno, hparams, hmes⟩ :=
        store_of_room (by omega : s.paramNo < 6) front.length
      rw [Params.ahead, List.append_assoc] at hpbuf
      let s₂ : Globals :=
        { s₁ with pbuf := front ++ (word.text ++ (more.gap ++ (more.ahead ++ 0 :: rest))) }
      have hmem : s₂.pbuf =
          (front ++ (word.text ++ more.gap)) ++ (more.ahead ++ 0 :: rest) := by
        simp only [s₂, List.append_assoc]
      have hroom' : s₂.paramNo + more.list.length ≤ 6 := by
        change s₁.paramNo + _ ≤ 6
        omega
      obtain ⟨s', ptrs, hloop, hpbuf', hext⟩ := ih hmem hroom' (Nat.lt_of_succ_lt_succ hfuel)
      have hfinal : s'.pbuf =
          front ++ (word.text ++ (more.gap ++ (more.cut ++ 0 :: rest))) := by
        rw [hpbuf']
        simp only [List.append_assoc]
      have htext : stringAt s'.pbuf front.length = word.text := by
        obtain ⟨behind, hbehind⟩ := more.gap_cut rest
        rw [hfinal, hbehind, stringAt_append _ word.noZero]
      refine ⟨s', front.length :: ptrs, ?_, ?_, hext.pref_eq.trans hpref,
        hext.com_eq.trans hcom, ?_, ?_, ?_⟩
      · rw [paramLoop_middle fuel front word more rest hpbuf, hstore, Option.bind_some]
        exact hloop
      · rw [hfinal, Params.cut]
        simp only [List.append_assoc]
      · rw [hext.params_eq]
        change s₁.params ++ ptrs = _
        rw [hparams, List.append_assoc]
        rfl
      · rw [List.map_cons, htext, hext.texts_eq]
        rfl
      · rw [hext.mes_eq]
        change ptrs.getLast?.or s₁.mes = _
        rw [hmes, List.getLast?_cons]
        cases ptrs.getLast? <;> rfl

/-- The store for the seventh parameter is outside of `param`. -/
theorem paramLoop_overflow {params : Params} {front rest : List UInt8} {fuel : ℕ}
    (hpbuf : s.pbuf = front ++ (params.ahead ++ 0 :: rest)) (hno : s.paramNo ≤ 6)
    (hmany : 6 < s.paramNo + params.list.length) :
    paramLoop fuel s front.length = none := by
  induction params generalizing s front fuel with
  | none => exact absurd hmany (Nat.not_lt_of_le hno)
  | trailing gap text =>
      cases fuel with
      | zero => rfl
      | succ fuel =>
          rw [paramLoop_trailing fuel front _ hpbuf]
          exact store_of_full (Nat.not_lt_of_le (Nat.le_of_lt_succ hmany)) _
  | middle gap word more ih =>
      cases fuel with
      | zero => rfl
      | succ fuel =>
          rw [Params.ahead, List.append_assoc] at hpbuf
          rw [paramLoop_middle fuel front word more rest hpbuf]
          by_cases hroom : s.paramNo < 6
          · obtain ⟨s₁, hstore, _, _, _, hno', _⟩ := store_of_room hroom front.length
            rw [hstore, Option.bind_some]
            rw [Params.list, List.length_cons] at hmany
            refine ih ?_ ?_ ?_
            · simp only [List.append_assoc]
            · change s₁.paramNo ≤ 6
              omega
            · change 6 < s₁.paramNo + _
              omega
          · rw [store_of_full hroom]
            rfl

end

/-! ## The whole line -/

/-- What is in front of the command when the prefix is cut off. -/
def Line.cutPrefix (line : Line) : List UInt8 :=
  match line.pref with
  | some (piece, gap) => [colon] ++ (piece.text ++ 0 :: List.replicate gap space)
  | none => []

theorem parsePrefix_spec (line : Line) (rest : List UInt8) :
    parsePrefix (line.prefixText ++ (line.command.text ++ rest)) =
      some (line.cutPrefix ++ (line.command.text ++ rest), line.pref.map fun _ => 1,
        line.cutPrefix.length) := by
  obtain ⟨c, letters, htext, hspace, _, hcolon⟩ := line.command.head
  rw [Line.prefixText, Line.cutPrefix, parsePrefix]
  rcases line.pref with _ | ⟨piece, gap⟩
  · simp only [htext, List.nil_append, List.cons_append, List.getElem?_cons_zero,
      Option.bind_eq_bind, Option.bind_some, if_neg hcolon, Option.map_none]
    rfl
  · have hskip := skip_spaces [colon] piece gap hspace (letters ++ rest)
    simp only [htext, List.nil_append, List.cons_append, List.append_assoc,
      List.length_cons, List.length_nil, Nat.zero_add] at hskip ⊢
    simp only [List.getElem?_cons_zero, Option.bind_eq_bind, Option.bind_some, hskip,
      Option.map_some, if_true]
    congr 3
    simp only [List.length_append, List.length_cons, List.length_replicate]
    omega

theorem stringAt_prefix (line : Line) (rest : List UInt8) :
    (line.pref.map fun _ => 1).map (stringAt (line.cutPrefix ++ rest)) =
      line.pref.map (·.1.text) := by
  rw [Line.cutPrefix]
  rcases line.pref with _ | ⟨piece, gap⟩
  · rfl
  · have htext := stringAt_append [colon] piece.noZero (List.replicate gap space ++ rest)
    simp only [List.append_assoc, List.cons_append, Option.map_some]
    exact congrArg some htext

/-- The prefix and the command are cut off, and the loop starts. -/
theorem procProto_eq (line : Line) (param : ℕ → ℕ) (rest : List UInt8) :
    ∃ s : Globals, s.pbuf = (line.cutPrefix ++ (line.command.text ++ line.params.gap)) ++
        (line.params.ahead ++ 0 :: rest) ∧
      s.pref = (line.pref.map fun _ => 1) ∧ s.com = line.cutPrefix.length ∧
      s.paramNo = 0 ∧ s.mes = none ∧
      procProto param (line.text ++ 0 :: rest) = paramLoop (s.pbuf.length + 1) s
        (line.cutPrefix ++ (line.command.text ++ line.params.gap)).length := by
  let buffer := line.cutPrefix ++ (line.command.text ++
    (line.params.gap ++ (line.params.ahead ++ 0 :: rest)))
  have hcut : parsePrefix (line.text ++ 0 :: rest) = some (line.cutPrefix ++
      (line.command.text ++ (line.params.text ++ 0 :: rest)), line.pref.map fun _ => 1,
        line.cutPrefix.length) := by
    rw [← parsePrefix_spec, Line.text, List.append_assoc, List.append_assoc]
  have hcommand : stringAt buffer line.cutPrefix.length = line.command.text := by
    obtain ⟨more, hmore⟩ := line.params.gap_ahead rest
    simp only [buffer, hmore]
    exact stringAt_append _ line.command.noZero more
  refine ⟨⟨buffer, _, _, param, 0, none⟩, ?_, rfl, rfl, rfl, rfl, ?_⟩
  · simp only [buffer, List.append_assoc]
  · rw [procProto, hcut]
    simp only [Option.bind_eq_bind, Option.bind_some, skip_params]
    exact if_neg fun h => line.not_005 (hcommand.symm.trans h)

/-- A line of the grammar is parsed exactly if `param` has room for its parameters. -/
theorem parses_iff (line : Line) : line.Parses ↔ line.params.list.length ≤ 6 := by
  constructor
  · intro hparses
    by_contra hmany
    obtain ⟨s, hpbuf, _, _, hno, _, hproc⟩ := procProto_eq line (fun _ => 0) []
    obtain ⟨s', hs', _⟩ := hparses (fun _ => 0) []
    rw [hproc, paramLoop_overflow hpbuf (by omega) (by omega)] at hs'
    cases hs'
  · intro hroom param rest
    obtain ⟨s, hpbuf, hpref, hcom, hno, hmes, hproc⟩ := procProto_eq line param rest
    have hfuel : line.params.list.length < s.pbuf.length + 1 := by
      have hlist := line.params.length_list
      simp only [hpbuf, List.length_append]
      omega
    obtain ⟨s', ptrs, hloop, hpbuf', hext⟩ :=
      paramLoop_fits hpbuf (by omega : s.paramNo + line.params.list.length ≤ 6) hfuel
    have hfinal : s'.pbuf = line.cutPrefix ++ (line.command.text ++
        (line.params.gap ++ (line.params.cut ++ 0 :: rest))) := by
      rw [hpbuf']
      simp only [List.append_assoc]
    have hparams : s'.params = ptrs := by
      rw [hext.params_eq, Globals.params, hno]
      rfl
    refine ⟨s', hproc.trans hloop, ?_, ?_, ?_, ?_⟩
    · rw [hext.pref_eq, hpref, hfinal, stringAt_prefix]
    · obtain ⟨more, hmore⟩ := line.params.gap_cut rest
      rw [hext.com_eq, hcom, hfinal, hmore, stringAt_append _ line.command.noZero]
    · rw [hparams, hext.texts_eq]
    · rw [hext.mes_eq, hmes, ← hext.texts_eq, List.getLast?_map, Option.or_none]

theorem letter_ne_nil (c : UInt8) : [c] ≠ [] := List.cons_ne_nil c []

/-- A word of one letter. -/
def letter (c : UInt8) (hspace : space ≠ c) (hzero : 0 ≠ c) (hcolon : c ≠ colon) : Word where
  text := [c]
  noSpace := fun hmem => hspace (List.mem_singleton.mp hmem)
  noZero := fun hmem => hzero (List.mem_singleton.mp hmem)
  nonempty := letter_ne_nil c
  noColon := fun hhead => hcolon (Option.some.inj hhead)

/-- `x a a a a a a a` -/
def sevenParams : Line :=
  let a := letter 0x61 (by decide) (by decide) (by decide)
  ⟨none, letter 0x78 (by decide) (by decide) (by decide),
    .middle 0 a (.middle 0 a (.middle 0 a (.middle 0 a (.middle 0 a (.middle 0 a
      (.middle 0 a .none)))))), by decide⟩

theorem not_parses_seven : ¬ sevenParams.Parses := by
  intro hparses
  obtain ⟨s, hproc, _⟩ := hparses (fun _ => 0) []
  have hnone : procProto (fun _ => 0) (sevenParams.text ++ [0]) = none := rfl
  rw [hnone] at hproc
  cases hproc

end Fip.Firc.Parse
