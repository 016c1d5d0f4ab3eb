import Fip.Firc.Query

/-!
# What the resolver returns

A reply covers the query in the buffer.  The addresses that are returned are those of the
reply, but the two tests of its header bits let every reply pass, and a reply without an
address among the answers that are parsed gives an empty list.  Where the compiler
increments `lno` first, the list points to the row behind each address.
-/

namespace Fip.Firc.Resolver

/-- The address behind a pointer to a row; there is none at the end of the table. -/
def rowAt (s : Statics) (row : Fin 5) : Option (List UInt8) :=
  if h : row.val < 4 then some (List.ofFn (s.addrs ⟨row, h⟩)) else none

/-- The rows that so many entries of the list point to, up to a null pointer. -/
def rowsFrom (s : Statics) : ℕ → ℕ → Option (List (List UInt8))
  | 0, _ => none
  | left + 1, i =>
      if h : i < 5 then
        match s.list ⟨i, h⟩ with
        | none => some []
        | some row => do
            let address ← rowAt s row
            let rest ← rowsFrom s left (i + 1)
            return address :: rest
      else none

/-- `host.h_addr_list` -/
def addresses (s : Statics) : Option (List (List UInt8)) := rowsFrom s 5 0

/-- The packet is a response by its bit of the header. -/
def IsResponse (bytes : List UInt8) : Prop :=
  ∃ cntl, bytes[2]? = some cntl ∧ cntl &&& 0x80 ≠ 0

/-- The variables behind the read of a reply to this query. -/
def replied (s : Statics) (question : Buf) (bytes : List UInt8) : Statics :=
  { s with buf := receive question bytes }

/-- The resolver ends inside its arrays, and a host that it returns is a real answer. -/
def Genuine (signed ahead : Bool) (s : Statics) (question : Buf) (bytes : List UInt8) : Prop :=
  (∃ fuel out, process signed ahead fuel (replied s question bytes) = some out) ∧
    ∀ fuel s', process signed ahead fuel (replied s question bytes) = some (s', true) →
      bytes.take 2 = bytes16 42 ∧ IsResponse bytes ∧
        ∀ m : Message, m.WellFormed → m.bytes = bytes →
          addresses s' = some (addressesOf (m.answers.take 4)) ∧ addresses s' ≠ some []

/-- The addresses are one and the same, and it stands behind them in the table already. -/
def Repeated (table : Fin 4 → Fin 4 → UInt8) (rows : List (List UInt8)) : Prop :=
  ∃ h : rows.length < 4, ∀ row ∈ rows, row = List.ofFn (table ⟨rows.length, h⟩)

/-- A reply is refused for its id or its count of answers, or it is a response that is laid
out in the buffer; a well-formed one then has an address among the answers that are parsed,
and one that a list shifted by a row does not change. -/
def Answering (signed ahead : Bool) (s : Statics) (question : Buf) (bytes : List UInt8) : Prop :=
  id (receive question bytes) = 42 → ancount (receive question bytes) ≠ 0 →
    LaidOut signed (receive question bytes) ∧ IsResponse bytes ∧
      ∀ m : Message, m.WellFormed → m.bytes = bytes →
        (∃ r ∈ m.answers.take 4, r.type = 1) ∧
          (ahead = true → Repeated s.addrs (addressesOf (m.answers.take 4)))

section

variable {signed ahead : Bool} {s s' : Statics} {table : Fin 4 → Fin 4 → UInt8} {buf : Buf}
  {bytes : List UInt8}

/-! ## The tables -/

/-- The list points to rows one behind the other; the table begins with these, and is as it
was behind them. -/
structure Filled (ahead : Bool) (table : Fin 4 → Fin 4 → UInt8) (s : Statics)
    (rows : List (List UInt8)) : Prop where
  few : rows.length ≤ 4
  list (i : Fin 4) (hi : i.val < rows.length) :
    s.list i.castSucc = some ⟨i.val + ahead.toNat, add_ahead_lt ahead i.isLt⟩
  row (i : Fin 4) (hi : i.val < rows.length) : rows[i.val]? = some (List.ofFn (s.addrs i))
  rest (i : Fin 4) (hi : rows.length ≤ i.val) : s.addrs i = table i

/-- The addresses that such a list gives when it ends behind them. -/
def listed (ahead : Bool) (table : Fin 4 → Fin 4 → UInt8) (rows : List (List UInt8)) :
    Option (List (List UInt8)) :=
  if ahead = true ∧ rows ≠ [] then
    if h : rows.length < 4 then some (rows.tail ++ [List.ofFn (table ⟨rows.length, h⟩)])
    else none
  else some rows

theorem tail_append_eq_self_iff {α : Type} {x y : α} {xs : List α} :
    xs ++ [y] = x :: xs ↔ ∀ z ∈ x :: xs, z = y := by
  induction xs generalizing x with
  | nil => simp [eq_comm]
  | cons z zs ih =>
      rw [List.cons_append, List.cons.injEq, ih, List.forall_mem_cons, List.forall_mem_cons,
        List.forall_mem_cons]
      exact ⟨fun ⟨hzx, hz, hzs⟩ => ⟨hzx ▸ hz, hz, hzs⟩,
        fun ⟨hx, hz, hzs⟩ => ⟨hz.trans hx.symm, hz, hzs⟩⟩

theorem listed_eq_self_iff {rows : List (List UInt8)} (hrows : rows ≠ []) :
    listed ahead table rows = some rows ↔ (ahead = true → Repeated table rows) := by
  rw [listed, Repeated]
  cases ahead with
  | false => exact iff_of_true (if_neg (fun h => absurd h.1 (by decide))) (fun h => nomatch h)
  | true =>
      rw [if_pos ⟨rfl, hrows⟩, imp_iff_right rfl]
      by_cases hfew : rows.length < 4
      · obtain ⟨row, rest, rfl⟩ := List.exists_cons_of_ne_nil hrows
        rw [dif_pos hfew, Option.some.injEq, List.tail_cons, tail_append_eq_self_iff]
        exact ⟨fun hsame => ⟨hfew, hsame⟩, fun ⟨_, hsame⟩ => hsame⟩
      · rw [dif_neg hfew]
        exact iff_of_false (fun h => nomatch h) (fun h => hfew h.1)

theorem storeAddr_spec (s : Statics) (byte : UInt8) {lno j : ℕ} (hlno : lno < 4) (hj : j < 4) :
    ∃ s', storeAddr s lno j byte = some s' ∧ s'.buf = s.buf ∧ s'.list = s.list ∧
      (∀ row, row ≠ ⟨lno, hlno⟩ → s'.addrs row = s.addrs row) ∧
      (∀ i, i ≠ ⟨j, hj⟩ → s'.addrs ⟨lno, hlno⟩ i = s.addrs ⟨lno, hlno⟩ i) ∧
      s'.addrs ⟨lno, hlno⟩ ⟨j, hj⟩ = byte := by
  refine ⟨_, dif_pos ⟨hlno, hj⟩, rfl, rfl, fun row hrow => Function.update_of_ne hrow _ _, ?_, ?_⟩
  · intro i hi
    dsimp only
    rw [Function.update_self, Function.update_of_ne hi]
  · dsimp only
    rw [Function.update_self, Function.update_self]

/-- A row is copied from the buffer. -/
theorem copyAddr_row {lno : ℕ} (hlno : lno < 4) {data : List UInt8} {j : ℕ} {ptr : ℤ}
    (hj : j + data.length ≤ 4) (hholds : Holds s.buf ptr data) :
    ∃ s', copyAddr lno data.length j ptr s = some (ptr + data.length, s') ∧
      s'.buf = s.buf ∧ s'.list = s.list ∧
      (∀ row, row ≠ ⟨lno, hlno⟩ → s'.addrs row = s.addrs row) ∧
      (∀ i : Fin 4, i.val < j → s'.addrs ⟨lno, hlno⟩ i = s.addrs ⟨lno, hlno⟩ i) ∧
      ∀ i : Fin 4, j ≤ i.val → i.val < j + data.length →
        data[i.val - j]? = some (s'.addrs ⟨lno, hlno⟩ i) := by
  induction data generalizing j ptr s with
  | nil =>
      refine ⟨s, ?_, rfl, rfl, fun _ _ => rfl, fun _ _ => rfl, ?_⟩
      · have hend : ptr + (([] : List UInt8).length : ℤ) = ptr := Int.add_zero ptr
        rw [hend]
        rfl
      · intro i hfrom hto
        exact absurd hto (Nat.not_lt_of_ge hfrom)
  | cons byte data ih =>
      obtain ⟨hbyte, hrest⟩ := hholds
      rw [List.length_cons] at hj
      obtain ⟨s₁, hstore, hbuf₁, hlist₁, hother₁, hsame, hself⟩ :=
        storeAddr_spec s byte hlno (show j < 4 by omega)
      rw [← hbuf₁] at hrest
      obtain ⟨s', hcopy, hbuf, hlist, hother, hbefore, hbehind⟩ :=
        ih (show j + 1 + data.length ≤ 4 by omega) hrest
      refine ⟨s', ?_, hbuf.trans hbuf₁, hlist.trans hlist₁, ?_, ?_, ?_⟩
      · have hend : ptr + 1 + (data.length : ℤ) = ptr + ((byte :: data).length : ℤ) := by
          rw [List.length_cons]
          omega
        rw [← hend, List.length_cons, copyAddr, hbyte, Option.bind_eq_bind, Option.bind_some,
          hstore, Option.bind_eq_bind, Option.bind_some, hcopy]
      · exact fun row hrow => (hother row hrow).trans (hother₁ row hrow)
      · intro i hi
        rw [hbefore i (Nat.lt_succ_of_lt hi), hsame i]
        exact fun heq => absurd (congrArg Fin.val heq) (Nat.ne_of_lt hi)
      · intro i hfrom hto
        rw [List.length_cons] at hto
        rcases Nat.eq_or_lt_of_le hfrom with heq | hlt
        · have hi : i = ⟨j, by omega⟩ := Fin.ext heq.symm
          rw [hbefore i (heq ▸ Nat.lt_succ_self j), hi, hself, Nat.sub_self]
          rfl
        · have hindex : i.val - j = i.val - (j + 1) + 1 := by omega
          rw [hindex, List.getElem?_cons_succ]
          exact hbehind i hlt (by omega)

/-- One more address in the list. -/
theorem filled_address {rows : List (List UInt8)} (hfilled : Filled ahead table s rows)
    (hmore : rows.length < 4) {data : List UInt8} (hdata : data.length = 4) {ptr : ℤ}
    (hholds : Holds s.buf ptr data) :
    ∃ s₁ s₂, copyAddr rows.length data.length 0 ptr s = some (ptr + data.length, s₁) ∧
      storeAddress ahead s₁ rows.length = some s₂ ∧ s₂.buf = s.buf ∧
      Filled ahead table s₂ (rows ++ [data]) := by
  obtain ⟨s₁, hcopy, hbuf, hlist, hother, -, hrow⟩ :=
    copyAddr_row hmore (show 0 + data.length ≤ 4 by omega) hholds
  have hlength : (rows ++ [data]).length = rows.length + 1 := List.length_append
  have hne {i : Fin 4} (hi : i.val ≠ rows.length) : i ≠ ⟨rows.length, hmore⟩ := fun heq =>
    hi (congrArg Fin.val heq)
  refine ⟨s₁, _, hcopy, dif_pos hmore, hbuf, ?_, ?_, ?_, ?_⟩
  · rw [hlength]
    exact hmore
  · intro i hi
    rw [hlength] at hi
    dsimp only
    rcases Nat.eq_or_lt_of_le (Nat.le_of_lt_succ hi) with heq | hlt
    · obtain rfl : i = ⟨rows.length, hmore⟩ := Fin.ext heq
      rw [Fin.castSucc_mk, Function.update_self]
    · rw [Function.update_of_ne, hlist, hfilled.list i hlt]
      exact fun heq => absurd (congrArg Fin.val heq) (Nat.ne_of_lt hlt)
  · intro i hi
    rw [hlength] at hi
    dsimp only
    rcases Nat.eq_or_lt_of_le (Nat.le_of_lt_succ hi) with heq | hlt
    · obtain rfl : i = ⟨rows.length, hmore⟩ := Fin.ext heq
      rw [List.getElem?_concat_length]
      refine congrArg some (List.ext_getElem? fun k => ?_)
      rw [List.getElem?_ofFn]
      split
      · next hk => exact hrow ⟨k, hk⟩ (Nat.zero_le k) (by rw [hdata, Nat.zero_add]; exact hk)
      · next hk => exact List.getElem?_eq_none (by omega)
    · rw [List.getElem?_append_left hlt, hother i (hne (Nat.ne_of_lt hlt))]
      exact hfilled.row i hlt
  · intro i hi
    rw [hlength] at hi
    exact (hother i (hne (Nat.ne_of_gt hi))).trans (hfilled.rest i (Nat.le_of_succ_le hi))

/-- The list is read up to its null pointer. -/
theorem rowsFrom_eq_some {rows : List (List UInt8)} (hfew : rows.length < 5)
    (hrows : ∀ (i : ℕ) (hi : i < rows.length), ∃ row,
      s.list ⟨i, Nat.lt_trans hi hfew⟩ = some row ∧ rowAt s row = some rows[i])
    (hend : s.list ⟨rows.length, hfew⟩ = none) {left i : ℕ} (hleft : i + left = 5)
    (hi : i ≤ rows.length) : rowsFrom s left i = some (rows.drop i) := by
  induction left generalizing i with
  | zero => omega
  | succ left ih =>
      rw [rowsFrom, dif_pos (show i < 5 by omega)]
      rcases Nat.eq_or_lt_of_le hi with heq | hlt
      · subst heq
        rw [hend, List.drop_length]
      · obtain ⟨row, hlist, hrow⟩ := hrows i hlt
        rw [hlist, List.drop_eq_getElem_cons hlt]
        simp only [hrow, ih (show i + 1 + left = 5 by omega) hlt, Option.bind_eq_bind,
          Option.bind_some, Option.pure_def]

/-- The fourth entry points to the end of the table. -/
theorem rowsFrom_eq_none (hlist : ∀ i : Fin 5, i < 3 → s.list i ≠ none)
    (hlast : s.list 3 = some 4) {left i : ℕ} (hleft : i + left = 5) (hi : i ≤ 3) :
    rowsFrom s left i = none := by
  induction left generalizing i with
  | zero => rfl
  | succ left ih =>
      rw [rowsFrom, dif_pos (show i < 5 by omega)]
      rcases Nat.eq_or_lt_of_le hi with heq | hlt
      · subst heq
        have hlast' : s.list ⟨3, by omega⟩ = some 4 := hlast
        rw [hlast']
        rfl
      · obtain ⟨row, hrow⟩ := Option.ne_none_iff_exists'.mp (hlist ⟨i, by omega⟩ hlt)
        simp only [hrow, ih (show i + 1 + left = 5 by omega) hlt, Option.bind_eq_bind,
          Option.bind_none, Option.bind_fun_none]

section Ended

variable {rows : List (List UInt8)}

theorem Filled.rowAt (hfilled : Filled ahead table s rows) {i : ℕ} (hi : i < rows.length)
    (hrow : i < 5) : rowAt s ⟨i, hrow⟩ = some rows[i] := by
  have hfew := hfilled.few
  rw [Resolver.rowAt, dif_pos (show i < 4 by omega), ← hfilled.row ⟨i, by omega⟩ hi,
    List.getElem?_eq_getElem hi]

theorem Filled.storeNull (hfilled : Filled ahead table s rows) :
    ∃ s', storeNull s rows.length = some s' ∧ Filled ahead table s' rows ∧
      s'.list ⟨rows.length, Nat.lt_succ_of_le hfilled.few⟩ = none := by
  refine ⟨_, dif_pos (Nat.lt_succ_of_le hfilled.few),
    { hfilled with list := fun i hi => ?_ }, Function.update_self _ _ _⟩
  rw [← hfilled.list i hi]
  exact Function.update_of_ne (fun heq => absurd (congrArg Fin.val heq) (Nat.ne_of_lt hi)) _ _

/-- Every entry points to its own row. -/
theorem Filled.addresses_of_place (hfilled : Filled false table s rows)
    (hend : s.list ⟨rows.length, Nat.lt_succ_of_le hfilled.few⟩ = none) :
    addresses s = some rows :=
  rowsFrom_eq_some (Nat.lt_succ_of_le hfilled.few)
    (fun i hi => ⟨_, hfilled.list ⟨i, Nat.lt_of_lt_of_le hi hfilled.few⟩ hi, hfilled.rowAt hi _⟩)
    hend (Nat.zero_add 5) (Nat.zero_le _)

/-- Every entry points to the next row, and the last one behind the addresses. -/
theorem Filled.addresses_of_shifted (hfilled : Filled true table s rows) (hrows : rows ≠ [])
    (hroom : rows.length < 4)
    (hend : s.list ⟨rows.length, Nat.lt_succ_of_le hfilled.few⟩ = none) :
    addresses s = some (rows.tail ++ [List.ofFn (table ⟨rows.length, hroom⟩)]) := by
  have hsome := List.length_pos_iff.mpr hrows
  have hlength : (rows.tail ++ [List.ofFn (table ⟨rows.length, hroom⟩)]).length =
      rows.length := by
    rw [List.length_append, List.length_tail, List.length_singleton]
    omega
  refine rowsFrom_eq_some (by omega) (fun i hi => ?_) (by simp only [hlength, hend])
    (Nat.zero_add 5) (Nat.zero_le _)
  rw [hlength] at hi
  refine ⟨_, hfilled.list ⟨i, Nat.lt_trans hi hroom⟩ hi, ?_⟩
  rcases Nat.lt_or_ge (i + 1) rows.length with hnext | hlast
  · rw [List.getElem_append_left (by rw [List.length_tail]; omega), List.getElem_tail]
    exact hfilled.rowAt hnext _
  · have hi : i + 1 = rows.length := by omega
    rw [List.getElem_append_right (by rw [List.length_tail]; omega), List.getElem_singleton,
      ← hfilled.rest ⟨rows.length, hroom⟩ (Nat.le_refl _), Resolver.rowAt]
    simp only [Bool.toNat_true, hi]
    exact dif_pos hroom

/-- The last of four entries points to the end of the table. -/
theorem Filled.addresses_of_full (hfilled : Filled true table s rows) (hfull : rows.length = 4) :
    addresses s = none := by
  have hlast : (3 : Fin 4).val < rows.length := by
    rw [hfull]
    decide
  refine rowsFrom_eq_none (fun i hi => ?_) (hfilled.list 3 hlast) (Nat.zero_add 5)
    (Nat.zero_le 3)
  have hentry := hfilled.list ⟨i, Nat.lt_trans hi (by decide)⟩ (Nat.lt_trans hi hlast)
  exact fun hnone => absurd (hentry.symm.trans hnone) (Option.some_ne_none _)

/-- The list that ends behind its addresses. -/
theorem addresses_of_filled (hfilled : Filled ahead table s rows) :
    ∃ s', storeNull s rows.length = some s' ∧ addresses s' = listed ahead table rows := by
  obtain ⟨s', hstore, hfilled, hend⟩ := hfilled.storeNull
  refine ⟨s', hstore, ?_⟩
  rw [listed]
  cases ahead with
  | false =>
      rw [if_neg (fun h => absurd h.1 Bool.false_ne_true)]
      exact hfilled.addresses_of_place hend
  | true =>
      by_cases hrows : rows = []
      · subst hrows
        rw [if_neg (fun h => h.2 rfl)]
        exact @rowsFrom_eq_some _ [] (by decide) (fun i hi => absurd hi (Nat.not_lt_zero i)) hend
          5 0 (Nat.zero_add 5) (Nat.zero_le _)
      · rw [if_pos ⟨rfl, hrows⟩]
        by_cases hroom : rows.length < 4
        · rw [dif_pos hroom]
          exact hfilled.addresses_of_shifted hrows hroom hend
        · rw [dif_neg hroom]
          exact hfilled.addresses_of_full (Nat.le_antisymm hfilled.few (Nat.le_of_not_lt hroom))

end Ended

/-! ## The answers -/

/-- Records that lie in the buffer are parsed, and their addresses end up in the list. -/
theorem parseAnswers_of_holds (signed ahead : Bool) {answers : List Record}
    (hanswers : ∀ r ∈ answers, r.WellFormed)
    {rows : List (List UInt8)} (hfew : rows.length + answers.length ≤ 4) {ptr : ℤ}
    (hfilled : Filled ahead table s rows)
    (hholds : Holds s.buf ptr (answers.flatMap Record.bytes)) :
    ∃ fuel s', parseAnswers signed ahead fuel answers.length ptr rows.length s = some s' ∧
      addresses s' = listed ahead table (rows ++ addressesOf answers) := by
  induction answers generalizing rows ptr s with
  | nil =>
      obtain ⟨s', hstore, haddresses⟩ := addresses_of_filled hfilled
      exact ⟨0, s', hstore, haddresses.trans (congrArg _ (List.append_nil rows).symm)⟩
  | cons r answers ih =>
      rw [List.length_cons] at hfew
      rw [List.forall_mem_cons] at hanswers
      obtain ⟨hr, hmore⟩ := hanswers
      rw [List.flatMap_cons, Record.bytes, List.append_assoc, holds_append, List.append_assoc,
        holds_append, List.append_assoc, holds_append, List.append_assoc, holds_append,
        holds_append, hr.tail] at hholds
      obtain ⟨hname, htype, -, hrdlen, hdata, hrest⟩ := hholds
      obtain ⟨fuel, hskip⟩ := skipName_iff.mpr (name_of_holds signed hr.name hname)
      have htype := load16_of_holds hr.type htype
      have hrdlen := load16_of_holds hr.data hrdlen
      have htypelen : ((bytes16 r.type).length : ℤ) = 2 := rfl
      have hdatalen : ((bytes16 r.data.length).length : ℤ) = 2 := rfl
      rw [htypelen] at hrdlen hdata hrest
      rw [hdatalen] at hdata hrest
      generalize ptr + (r.name.length : ℤ) = t at *
      have htail : t + 2 + ((6 : ℕ) : ℤ) = t + 8 := by omega
      have hten : t + 8 + 2 = t + 10 := by omega
      rw [htail] at hrdlen hdata hrest
      rw [hten] at hdata hrest
      by_cases haddress : r.type = 1
      · have hdatalen := hr.address haddress
        obtain ⟨s₁, s₂, hcopy, hstore, hbuf, hfilled₂⟩ :=
          filled_address hfilled (by omega) hdatalen hdata
        rw [← hbuf] at hrest
        obtain ⟨more, s', hparse, haddresses⟩ := ih hmore (by
          rw [List.length_append, List.length_singleton]; omega) hfilled₂ hrest
        rw [List.length_append, List.length_singleton] at hparse
        refine ⟨max fuel more, s', parseAnswers_succ.mpr ⟨t, r.type, r.data.length,
          skipName_mono hskip (Nat.le_max_left _ _), htype, hrdlen, .inl ⟨haddress, _, s₁, s₂,
            hcopy, hstore, parseAnswers_mono hparse (Nat.le_max_right _ _)⟩⟩, ?_⟩
        rw [haddresses, addressesOf_cons, if_pos haddress, List.append_assoc,
          List.singleton_append]
      · obtain ⟨more, s', hparse, haddresses⟩ := ih hmore (by omega) hfilled hrest
        refine ⟨max fuel more, s', parseAnswers_succ.mpr ⟨t, r.type, r.data.length,
          skipName_mono hskip (Nat.le_max_left _ _), htype, hrdlen, .inr ⟨haddress,
            parseAnswers_mono hparse (Nat.le_max_right _ _)⟩⟩, ?_⟩
        rw [haddresses, addressesOf_cons, if_neg haddress]

/-! ## Replies -/

theorem header_of_holds {m : Message} (hm : m.WellFormed) (hholds : Holds buf 0 m.bytes) :
    id buf = m.id ∧ qdcount buf = m.questions.length ∧ ancount buf = m.answers.length := by
  rw [Message.bytes, holds_append, Message.header, holds_append, holds_append, holds_append,
    holds_append] at hholds
  obtain ⟨⟨hid, -, hqdcount, hancount, -⟩, -⟩ := hholds
  have hfour : (0 : ℤ) + ((bytes16 m.id).length : ℤ) + (([m.cntl, m.ret] : List UInt8).length : ℤ) =
    4 := rfl
  have hsix : (4 : ℤ) + ((bytes16 m.questions.length).length : ℤ) = 6 := rfl
  rw [hfour] at hqdcount hancount
  rw [hsix] at hancount
  have hid' : load16 buf 0 = some m.id := load16_of_holds hm.id hid
  have hqdcount' : load16 buf 4 = some m.questions.length :=
    load16_of_holds (Nat.lt_of_le_of_lt hm.few (by decide)) hqdcount
  have hancount' : load16 buf 6 = some m.answers.length := load16_of_holds hm.many hancount
  exact ⟨Option.some.inj hid', Option.some.inj hqdcount', Option.some.inj hancount'⟩

theorem length_header {m : Message} (hm : m.WellFormed) : m.header.length = 12 := by
  rw [Message.header, List.length_append, List.length_append, List.length_append,
    List.length_append, hm.tail]
  rfl

theorem within_capped (buf : Buf) : Within 6 8 buf (capped buf) := by
  rw [capped]
  split
  · obtain ⟨buf₁, hsix, -, hwithin₁⟩ := store_spec buf 0 (show 6 < 512 by decide)
    obtain ⟨buf₂, hseven, -, hwithin₂⟩ := store_spec buf₁ 4 (show 7 < 512 by decide)
    cases hsix
    cases hseven
    exact hwithin₁.trans hwithin₂ (by decide) (by decide)
  · exact fun _ _ => rfl

/-- A well-formed response is processed, and its addresses are returned. -/
theorem process_of_message (signed ahead : Bool) (s : Statics) {m : Message} (hm : m.WellFormed)
    (hbytes : m.bytes = bytes) (hlength : bytes.length ≤ 512) (hid : m.id = 42)
    (hsome : m.answers ≠ []) (question : Buf) :
    ∃ fuel s', process signed ahead fuel (replied s question bytes) = some (s', true) ∧
      addresses s' = listed ahead s.addrs (addressesOf (m.answers.take 4)) := by
  have hholds : Holds (replied s question bytes).buf 0 m.bytes := by
    rw [hbytes]
    exact holds_receive hlength
  obtain ⟨hid', hqdcount, hancount⟩ := header_of_holds hm hholds
  have haccepted : Accepted (replied s question bytes).buf := by
    rw [accepted_iff, hid', hancount]
    exact ⟨hid, mt List.length_eq_zero_iff.mp hsome⟩
  have hanswers : m.answers.flatMap Record.bytes =
      (m.answers.take 4).flatMap Record.bytes ++ (m.answers.drop 4).flatMap Record.bytes := by
    rw [← List.flatMap_append, List.take_append_drop]
  rw [Message.bytes, hanswers, List.append_assoc, holds_append, holds_append, holds_append,
    length_header hm] at hholds
  obtain ⟨-, hquestions, hparsed, -⟩ := hholds
  obtain ⟨fuel, hskip⟩ := skipQuestions_iff.mpr
    (questions_of_holds signed hm.question hquestions)
  have hcapped := (within_capped _).holds (.inr (by omega)) hparsed
  have hfilled : Filled ahead s.addrs { replied s question bytes with
      buf := capped (replied s question bytes).buf } [] :=
    ⟨Nat.zero_le 4, fun i hi => absurd hi (Nat.not_lt_zero _),
      fun i hi => absurd hi (Nat.not_lt_zero _), fun _ _ => rfl⟩
  have hfew : ([] : List (List UInt8)).length + (m.answers.take 4).length ≤ 4 := by
    rw [List.length_nil, Nat.zero_add, List.length_take]
    exact Nat.min_le_left _ _
  obtain ⟨more, s', hparse, haddresses⟩ :=
    parseAnswers_of_holds signed ahead (fun r hr => hm.answer r (List.mem_of_mem_take hr)) hfew
      hfilled hcapped
  have hskips := skipQuestions_mono hskip (Nat.le_max_left fuel more)
  have hparses := parseAnswers_mono hparse (Nat.le_max_right fuel more)
  rw [← Nat.min_eq_left hm.few, ← hqdcount] at hskips
  rw [List.length_take, Nat.min_comm, ← hancount] at hparses
  exact ⟨max fuel more, s', (process_eq_some haccepted).mpr ⟨_, s', hskips, hparses, rfl⟩,
    haddresses⟩

theorem process_mono {fuel more : ℕ} {out : Statics × Bool} (haccepted : Accepted s.buf)
    (hprocess : process signed ahead fuel s = some out) (hle : fuel ≤ more) :
    process signed ahead more s = some out := by
  obtain ⟨ptr, s', hskip, hparse, hout⟩ := (process_eq_some haccepted).mp hprocess
  exact (process_eq_some haccepted).mpr
    ⟨ptr, s', skipQuestions_mono hskip hle, parseAnswers_mono hparse hle, hout⟩

theorem addressesOf_replied {m : Message} (hm : m.WellFormed) (hbytes : m.bytes = bytes)
    (hlength : bytes.length ≤ 512) {question : Buf} {fuel : ℕ}
    (haccepted : Accepted (replied s question bytes).buf)
    (hprocess : process signed ahead fuel (replied s question bytes) = some (s', true)) :
    addresses s' = listed ahead s.addrs (addressesOf (m.answers.take 4)) := by
  have hholds : Holds (replied s question bytes).buf 0 m.bytes := by
    rw [hbytes]
    exact holds_receive hlength
  obtain ⟨hid, -, hancount⟩ := header_of_holds hm hholds
  obtain ⟨hid', hcount⟩ := (accepted_iff _).mp haccepted
  have hid : m.id = 42 := hid.symm.trans hid'
  have hsome : m.answers ≠ [] := by
    rw [hancount] at hcount
    exact mt List.length_eq_zero_iff.mpr hcount
  obtain ⟨more, t, hmessage, haddresses⟩ := process_of_message signed ahead s hm hbytes hlength
    hid hsome question
  have hleft := process_mono haccepted hprocess (Nat.le_max_left fuel more)
  have hright := process_mono haccepted hmessage (Nat.le_max_right fuel more)
  rw [hright, Option.some.injEq, Prod.mk.injEq] at hleft
  rw [← hleft.1]
  exact haddresses

/-- An accepted id is that of the packet: without one the count of answers is that of the
query. -/
theorem id_of_replied {name : List UInt8} {question : Buf} {length : ℕ}
    (hquestion : sendQuestion name = some (question, length))
    (haccepted : Accepted (replied s question bytes).buf) : bytes.take 2 = bytes16 42 := by
  rw [accepted_iff] at haccepted
  obtain ⟨hid, hancount⟩ := haccepted
  obtain ⟨hsix, hseven⟩ := zero_of_sendQuestion hquestion
  rcases bytes with _ | ⟨high, _ | ⟨low, bytes⟩⟩
  · have hnone : (question 6).toNat * 256 + (question 7).toNat ≠ 0 := hancount
    rw [hsix, hseven] at hnone
    exact absurd rfl hnone
  · have hnone : (question 6).toNat * 256 + (question 7).toNat ≠ 0 := hancount
    rw [hsix, hseven] at hnone
    exact absurd rfl hnone
  · have hid : high.toNat * 256 + low.toNat = 42 := hid
    have hhigh : high = 0 := UInt8.toNat.inj (show high.toNat = 0 by omega)
    have hlow : low = 42 := UInt8.toNat.inj (show low.toNat = 42 by omega)
    rw [hhigh, hlow]
    rfl

/-- The hosts that are returned for a reply are real answers for just these replies. -/
theorem genuine_iff {name : List UInt8} {question : Buf} {length : ℕ}
    (hquestion : sendQuestion name = some (question, length)) (hlength : bytes.length ≤ 512)
    (signed ahead : Bool) (s : Statics) :
    Genuine signed ahead s question bytes ↔ Answering signed ahead s question bytes := by
  constructor
  · rintro ⟨hends, hgenuine⟩ hid hancount
    have haccepted : Accepted (replied s question bytes).buf :=
      (accepted_iff _).mpr ⟨hid, hancount⟩
    obtain ⟨fuel, out, hprocess⟩ := hends
    refine ⟨(process_iff haccepted).mp ⟨fuel, out, hprocess⟩, ?_⟩
    obtain ⟨ptr, s', -, -, rfl⟩ := (process_eq_some haccepted).mp hprocess
    obtain ⟨-, hresponse, hanswers⟩ := hgenuine fuel s' hprocess
    refine ⟨hresponse, fun m hm hbytes => ?_⟩
    obtain ⟨haddresses, hsome⟩ := hanswers m hm hbytes
    have hlisted := addressesOf_replied hm hbytes hlength haccepted hprocess
    rw [haddresses] at hlisted hsome
    have hrows : addressesOf (m.answers.take 4) ≠ [] := mt (congrArg some) hsome
    exact ⟨(addressesOf_ne_nil_iff _).mp hrows, (listed_eq_self_iff hrows).mp hlisted.symm⟩
  · intro hanswering
    by_cases haccepted : Accepted (replied s question bytes).buf
    · obtain ⟨hid, hancount⟩ := (accepted_iff _).mp haccepted
      obtain ⟨hlaid, hresponse, hanswers⟩ := hanswering hid hancount
      refine ⟨(process_iff haccepted).mpr hlaid, fun fuel s' hprocess => ?_⟩
      refine ⟨id_of_replied hquestion haccepted, hresponse, fun m hm hbytes => ?_⟩
      obtain ⟨haddress, hshifted⟩ := hanswers m hm hbytes
      have hrows := (addressesOf_ne_nil_iff _).mpr haddress
      have hlisted := (addressesOf_replied hm hbytes hlength haccepted hprocess).trans
        ((listed_eq_self_iff hrows).mpr hshifted)
      exact ⟨hlisted, hlisted ▸ fun hnil => hrows (Option.some.inj hnil)⟩
    · have hprocess (fuel : ℕ) : process signed ahead fuel (replied s question bytes) =
          some (replied s question bytes, false) := process_refused haccepted fuel
      refine ⟨⟨0, _, hprocess 0⟩, fun fuel s' hreturned => ?_⟩
      rw [hprocess fuel] at hreturned
      cases hreturned

end

/-- No address yet. -/
def empty : Statics where
  buf := fun _ => 0
  addrs := fun _ _ => 0
  list := fun _ => none

/-- A packet with an address, and with these bits in its header. -/
def oneAddress (cntl : UInt8) : List UInt8 :=
  [0, 42, cntl, 0x80, 0, 0, 0, 1, 0, 0, 0, 0, 0, 0, 1, 0, 1, 0, 0, 0, 0, 0, 4, 192, 0, 2, 1]

/-- The host `a` is looked up. -/
theorem genuine_iff_oneAddress : ∃ question length,
    sendQuestion [0x61] = some (question, length) ∧
      (Genuine true false empty question (oneAddress 0x81) ↔
        Answering true false empty question (oneAddress 0x81)) := by
  have hquestion : sendQuestion [0x61] = some _ := rfl
  exact ⟨_, _, hquestion, genuine_iff hquestion (by decide) true false empty⟩

theorem header_oneAddress (question : Buf) (cntl : UInt8) :
    id (receive question (oneAddress cntl)) = 42 ∧
      qdcount (receive question (oneAddress cntl)) = 0 ∧
      ancount (receive question (oneAddress cntl)) = 1 := by
  have hid : receive question (oneAddress cntl) 0 = 0 ∧
      receive question (oneAddress cntl) 1 = 42 := ⟨rfl, rfl⟩
  have hqdcount : receive question (oneAddress cntl) 4 = 0 ∧
      receive question (oneAddress cntl) 5 = 0 := ⟨rfl, rfl⟩
  have hancount : receive question (oneAddress cntl) 6 = 0 ∧
      receive question (oneAddress cntl) 7 = 1 := ⟨rfl, rfl⟩
  rw [id, hid.1, hid.2, qdcount, hqdcount.1, hqdcount.2, ancount, hancount.1, hancount.2]
  exact ⟨rfl, rfl, rfl⟩

theorem laidOut_oneAddress (signed : Bool) (question : Buf) (cntl : UInt8) :
    LaidOut signed (receive question (oneAddress cntl)) := by
  obtain ⟨-, hqdcount, hancount⟩ := header_oneAddress question cntl
  have hcapped : capped (receive question (oneAddress cntl)) =
      receive question (oneAddress cntl) := by
    rw [capped_eq_iff, hancount]
    decide
  have hholds : Holds (receive question (oneAddress cntl)) 0 (oneAddress cntl) :=
    holds_receive (show 27 ≤ 512 by decide)
  obtain ⟨-, -, -, -, -, -, -, -, -, -, -, -, hroot, hhigh, hlow, -, -, -, -, -, -, hrdlen,
    hrdlen', -⟩ := hholds
  have hname : Name signed (receive question (oneAddress cntl)) 12 13 := .root hroot
  have htype : load16 (receive question (oneAddress cntl)) 13 = some 1 :=
    load16_of_holds (by decide) ⟨hhigh, hlow, trivial⟩
  have hrdlen : load16 (receive question (oneAddress cntl)) 21 = some 4 :=
    load16_of_holds (by decide) ⟨hrdlen, hrdlen', trivial⟩
  rw [LaidOut, hqdcount, hancount, hcapped]
  exact ⟨12, .nil 12, .address hname htype hrdlen (Nat.le_refl 4) (by decide) (.nil _)⟩

/-- A packet that is no response gives a host. -/
theorem not_genuine_query : ∃ question length,
    sendQuestion [0x61] = some (question, length) ∧
      ¬ Genuine true false empty question (oneAddress 0x1) := by
  have hquestion : sendQuestion [0x61] = some _ := rfl
  refine ⟨_, _, hquestion, fun hgenuine => ?_⟩
  have haccepted (question : Buf) : Accepted (replied empty question (oneAddress 0x1)).buf := by
    obtain ⟨hid, -, hancount⟩ := header_oneAddress question 0x1
    exact (accepted_iff _).mpr ⟨hid, hancount.trans_ne Nat.one_ne_zero⟩
  obtain ⟨fuel, out, hprocess⟩ :=
    (process_iff (haccepted _)).mpr (laidOut_oneAddress true _ 0x1)
  obtain ⟨ptr, s', -, -, rfl⟩ := (process_eq_some (haccepted _)).mp hprocess
  obtain ⟨cntl, hcntl, hbit⟩ := (hgenuine.2 fuel s' hprocess).2.1
  cases hcntl
  exact hbit rfl

end Fip.Firc.Resolver
