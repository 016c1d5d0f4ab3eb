import Fip.Core.Dictionary
import Fip.Lzw.Compress

/-!
# The pointer tables and the strings they stand for

An entry of the tables is the code of a prefix, smaller than the entry's own,
and one more byte.  `Represents` relates the tables to a dictionary of explicit
strings; under it `printsym`, `first`, `buildstr` and `exist` compute what
their strings say, and the recursions end.
-/

namespace Fip.Lzw

open Dictionary

/-- The code words of LZW, as the programs number them. -/
def symbol (code : ℕ) : Symbol UInt8 :=
  if code < 256 then .literal (UInt8.ofNat code)
  else if code = clear then .clear
  else .entry (code - 257)

/-- The codes that stand for a string of a dictionary of that size. -/
def Usable (size code : ℕ) : Prop :=
  code < 256 ∨ 257 ≤ code ∧ code < 257 + size

/-- The tables hold the strings of the dictionary from entry 257 on. -/
def Represents (ref : ℕ → ℕ) (app : ℕ → UInt8) (dict : List (List UInt8)) : Prop :=
  ∀ (index : ℕ) (word : List UInt8), dict[index]? = some word →
    Usable index (ref (257 + index)) ∧
      word = string dict (symbol (ref (257 + index))) ++ [app (257 + index)]

theorem symbol_of_lt {code : ℕ} (hlt : code < 256) :
    symbol code = .literal (UInt8.ofNat code) :=
  if_pos hlt

theorem symbol_entry (index : ℕ) : symbol (257 + index) = .entry index := by
  have hlarge : ¬ 257 + index < 256 := by omega
  have hne : 257 + index ≠ clear := by
    rw [clear]
    omega
  rw [symbol, if_neg hlarge, if_neg hne, Nat.add_sub_cancel_left]

theorem symbol_of_ge {code : ℕ} (hge : 257 ≤ code) :
    symbol code = .entry (code - 257) := by
  have hentry := symbol_entry (code - 257)
  rwa [Nat.add_sub_cancel' hge] at hentry

theorem symbol_ne_clear {code : ℕ} (hne : code ≠ clear) : symbol code ≠ .clear := by
  rw [symbol, if_neg hne]
  split <;> simp

theorem Usable.mono {size more code : ℕ} (husable : Usable size code)
    (hle : size ≤ more) : Usable more code := by
  rcases husable with hlt | ⟨hge, hlt⟩
  · exact .inl hlt
  · exact .inr ⟨hge, by omega⟩

theorem Usable.string_append {size code : ℕ} {dict : List (List UInt8)}
    (husable : Usable size code) (hsize : size ≤ dict.length)
    (more : List (List UInt8)) :
    string (dict ++ more) (symbol code) = string dict (symbol code) := by
  rcases husable with hlt | ⟨hge, hlt⟩
  · rw [symbol_of_lt hlt]
    rfl
  · rw [symbol_of_ge hge, string, string, List.getD_append]
    omega

section Represents

variable {ref : ℕ → ℕ} {app : ℕ → UInt8} {dict : List (List UInt8)}

theorem represents_nil : Represents ref app [] := by
  intro index word hword
  cases hword

/-- The string of an entry. -/
theorem Represents.string_entry (hrep : Represents ref app dict) {sym : ℕ}
    (hge : 257 ≤ sym) (hlt : sym < 257 + dict.length) :
    Usable (sym - 257) (ref sym) ∧
      string dict (symbol sym) =
        string dict (symbol (ref sym)) ++ [app sym] := by
  obtain ⟨index, rfl⟩ := Nat.exists_eq_add_of_le hge
  have hindex : index < dict.length := Nat.lt_of_add_lt_add_left hlt
  obtain ⟨husable, hword⟩ := hrep index _ (List.getElem?_eq_getElem hindex)
  rw [Nat.add_sub_cancel_left]
  refine ⟨husable, ?_⟩
  calc string dict (symbol (257 + index))
      = dict[index] := by
        rw [symbol_entry, string, List.getD_eq_getElem _ _ hindex]
    _ = _ := hword

theorem Represents.string_ne_nil (hrep : Represents ref app dict) {sym : ℕ}
    (husable : Usable dict.length sym) : string dict (symbol sym) ≠ [] := by
  rcases husable with hlt | ⟨hge, hlt⟩
  · rw [symbol_of_lt hlt]
    exact List.cons_ne_nil _ _
  · rw [(hrep.string_entry hge hlt).2]
    exact List.append_ne_nil_of_right_ne_nil _ (List.cons_ne_nil _ _)

/-- An entry's string is at most one byte longer than an earlier one. -/
theorem Represents.length_string (hrep : Represents ref app dict) {size sym : ℕ}
    (hsize : size ≤ dict.length) (husable : Usable size sym) :
    (string dict (symbol sym)).length ≤ size + 1 := by
  induction size generalizing sym with
  | zero =>
      have hlt : sym < 256 := husable.resolve_right fun h => absurd h.2 (by omega)
      rw [symbol_of_lt hlt]
      exact Nat.le_refl 1
  | succ size ih =>
      rcases husable with hlt | ⟨hge, hlt⟩
      · rw [symbol_of_lt hlt]
        exact Nat.le_add_left 1 _
      · obtain ⟨hcode, hstring⟩ := hrep.string_entry hge (by omega)
        have hlength := ih (by omega) (hcode.mono (by omega))
        rw [hstring, List.length_append, List.length_singleton]
        omega

/-- What `adddict` does to the tables adds one string. -/
theorem Represents.extend (hrep : Represents ref app dict) {pref : ℕ}
    (husable : Usable dict.length pref) (suffix : UInt8) :
    Represents (Function.update ref (257 + dict.length) pref)
      (Function.update app (257 + dict.length) suffix)
      (dict ++ [string dict (symbol pref) ++ [suffix]]) := by
  intro index word hword
  by_cases hnew : index = dict.length
  · subst hnew
    rw [List.getElem?_concat_length] at hword
    cases hword
    rw [Function.update_self, Function.update_self,
      husable.string_append (Nat.le_refl _)]
    exact ⟨husable, rfl⟩
  · have hlt : index < dict.length := by
      have hbound := (List.getElem?_eq_some_iff.mp hword).1
      rw [List.length_append, List.length_singleton] at hbound
      omega
    rw [List.getElem?_append_left hlt] at hword
    obtain ⟨hcode, hstring⟩ := hrep index word hword
    have hne : 257 + index ≠ 257 + dict.length := by omega
    rw [Function.update_of_ne hne, Function.update_of_ne hne,
      hcode.string_append hlt.le]
    exact ⟨hcode, hstring⟩

end Represents

namespace Uncompress

/-- The entry a cell belongs to. -/
def Cell.sym : Cell → ℕ
  | .ref sym => sym
  | .app sym => sym

/-- The log has grown by reads of entries of the dictionary only. -/
def OnlyReads (size : ℕ) (before after : List Access) : Prop :=
  ∃ reads, after = before ++ reads ∧ ∀ access ∈ reads,
    ∃ cell : Cell, access = .read cell ∧ 257 ≤ cell.sym ∧ cell.sym < 257 + size

theorem OnlyReads.refl (size : ℕ) (log : List Access) : OnlyReads size log log :=
  ⟨[], (List.append_nil log).symm, by simp⟩

theorem OnlyReads.trans {size : ℕ} {first second third : List Access}
    (hfirst : OnlyReads size first second) (hsecond : OnlyReads size second third) :
    OnlyReads size first third := by
  obtain ⟨reads, rfl, hreads⟩ := hfirst
  obtain ⟨more, rfl, hmore⟩ := hsecond
  refine ⟨reads ++ more, List.append_assoc _ _ _, ?_⟩
  intro access hmem
  exact (List.mem_append.mp hmem).elim (hreads access) (hmore access)

theorem OnlyReads.read {size : ℕ} (log : List Access) (cell : Cell)
    (hge : 257 ≤ cell.sym) (hlt : cell.sym < 257 + size) :
    OnlyReads size log (log ++ [.read cell]) := by
  refine ⟨[.read cell], rfl, ?_⟩
  intro access hmem
  exact ⟨cell, List.mem_singleton.mp hmem, hge, hlt⟩

theorem printsym_of_lt {sym : ℕ} (hlt : sym < 256) (fuel : ℕ) (d : Decoder) :
    d.printsym fuel sym = some (d.outbyte (UInt8.ofNat sym)) := by
  cases fuel <;> rw [Decoder.printsym, if_pos hlt]

theorem first_of_lt {sym : ℕ} (hlt : sym < 256) (fuel : ℕ) (d : Decoder) :
    d.first fuel sym = some (UInt8.ofNat sym, d) := by
  cases fuel <;> rw [Decoder.first, if_pos hlt]

/-- `printsym` ends and sends the string of its code. -/
theorem printsym_spec {dict : List (List UInt8)} {fuel sym : ℕ} {d : Decoder}
    (hrep : Represents d.ref d.app dict) (husable : Usable dict.length sym)
    (hfuel : sym < 257 + fuel) :
    ∃ output log, d.printsym fuel sym = some { d with output := output, log := log } ∧
      output.sent = d.output.sent ++ string dict (symbol sym) ∧
      OnlyReads dict.length d.log log := by
  have hliteral : ∀ (fuel sym : ℕ) (d : Decoder), sym < 256 →
      ∃ output log,
        d.printsym fuel sym = some { d with output := output, log := log } ∧
        output.sent = d.output.sent ++ string dict (symbol sym) ∧
        OnlyReads dict.length d.log log := by
    intro fuel sym d hlt
    refine ⟨_, _, printsym_of_lt hlt fuel d, ?_, .refl _ _⟩
    rw [Sink.sent_outbyte, symbol_of_lt hlt]
    rfl
  induction fuel generalizing sym d with
  | zero => exact hliteral _ _ _ (husable.resolve_right fun h => by omega)
  | succ fuel ih =>
      rcases husable with hlt | ⟨hge, hlt⟩
      · exact hliteral _ _ _ hlt
      · obtain ⟨hcode, hstring⟩ := hrep.string_entry hge hlt
        have hsmaller : d.ref sym < 257 + fuel := by
          rcases hcode with h | ⟨_, h⟩ <;> omega
        have hread : Represents (d.read (.ref sym)).ref (d.read (.ref sym)).app dict :=
          hrep
        obtain ⟨output, log, hprint, hsent, hlog⟩ :=
          ih hread (hcode.mono (by omega)) hsmaller
        have hlarge : ¬ sym < 256 := by omega
        refine ⟨output.outbyte (d.app sym), log ++ [.read (.app sym)], ?_, ?_, ?_⟩
        · rw [Decoder.printsym, if_neg hlarge]
          simp only [hprint]
          rfl
        · rw [Sink.sent_outbyte, hsent, hstring, List.append_assoc]
          rfl
        · exact (OnlyReads.read d.log (.ref sym) hge hlt).trans
            (hlog.trans (OnlyReads.read log (.app sym) hge hlt))

/-- `first` ends with the first byte of the string. -/
theorem first_spec {dict : List (List UInt8)} {fuel sym : ℕ} {d : Decoder}
    (hrep : Represents d.ref d.app dict) (husable : Usable dict.length sym)
    (hfuel : sym < 257 + fuel) :
    ∃ c log, d.first fuel sym = some (c, { d with log := log }) ∧
      (string dict (symbol sym)).head? = some c ∧
      OnlyReads dict.length d.log log := by
  have hliteral : ∀ (fuel sym : ℕ) (d : Decoder), sym < 256 →
      ∃ c log, d.first fuel sym = some (c, { d with log := log }) ∧
        (string dict (symbol sym)).head? = some c ∧
        OnlyReads dict.length d.log log := by
    intro fuel sym d hlt
    refine ⟨_, _, first_of_lt hlt fuel d, ?_, .refl _ _⟩
    rw [symbol_of_lt hlt]
    rfl
  induction fuel generalizing sym d with
  | zero => exact hliteral _ _ _ (husable.resolve_right fun h => by omega)
  | succ fuel ih =>
      rcases husable with hlt | ⟨hge, hlt⟩
      · exact hliteral _ _ _ hlt
      · obtain ⟨hcode, hstring⟩ := hrep.string_entry hge hlt
        have hsmaller : d.ref sym < 257 + fuel := by
          rcases hcode with h | ⟨_, h⟩ <;> omega
        have hshort : Usable dict.length (d.ref sym) := hcode.mono (by omega)
        have hread : Represents (d.read (.ref sym)).ref (d.read (.ref sym)).app dict :=
          hrep
        obtain ⟨c, log, hfirst, hhead, hlog⟩ := ih hread hshort hsmaller
        have hlarge : ¬ sym < 256 := by omega
        refine ⟨c, log, ?_, ?_, (OnlyReads.read d.log (.ref sym) hge hlt).trans hlog⟩
        · rw [Decoder.first, if_neg hlarge]
          exact hfirst
        · rw [hstring, List.head?_append_of_ne_nil _ (hrep.string_ne_nil hshort)]
          exact hhead

end Uncompress

namespace Compress

/-- `buildstr` puts the string of an entry in front, if there is room. -/
theorem buildstr_spec {ref : ℕ → ℕ} {app : ℕ → UInt8} {dict : List (List UInt8)}
    {room entry : ℕ} (hrep : Represents ref app dict) (husable : Usable dict.length entry)
    (hroom : (string dict (symbol entry)).length ≤ room) (s : List UInt8) :
    buildstr ref app room entry s = some (string dict (symbol entry) ++ s) := by
  induction room generalizing entry s with
  | zero =>
      have hempty := List.length_eq_zero_iff.mp (Nat.le_zero.mp hroom)
      exact absurd hempty (hrep.string_ne_nil husable)
  | succ room ih =>
      rw [buildstr]
      rcases husable with hlt | ⟨hge, hlt⟩
      · rw [if_pos hlt, symbol_of_lt hlt]
        rfl
      · obtain ⟨hcode, hstring⟩ := hrep.string_entry hge hlt
        have hlarge : ¬ entry < 256 := by omega
        rw [hstring, List.length_append, List.length_singleton] at hroom
        rw [if_neg hlarge, ih (hcode.mono (by omega)) (by omega), hstring,
          List.append_assoc]
        rfl

theorem existLoop_spec {dict : List (List UInt8)} {e : Encoder}
    (hrep : Represents e.ref e.app dict) (hsize : dict.length < strz)
    (s : List UInt8) {left index : ℕ} (hleft : index + left = dict.length) :
    e.existLoop s left (257 + index) =
      some (if s ∈ dict.drop index then
        some (257 + index + (dict.drop index).idxOf s) else none) := by
  induction left generalizing index with
  | zero =>
      have hend : dict.drop index = [] := List.drop_eq_nil_of_le (by omega)
      rw [hend]
      rfl
  | succ left ih =>
      have hindex : index < dict.length := by omega
      have husable : Usable dict.length (257 + index) :=
        .inr ⟨by omega, by omega⟩
      have hword : string dict (symbol (257 + index)) = dict[index] := by
        rw [symbol_entry, string, List.getD_eq_getElem _ _ hindex]
      have hlength := hrep.length_string (Nat.le_refl _) husable
      have hbuild : buildstr e.ref e.app strz (257 + index) [] = some dict[index] := by
        rw [buildstr_spec hrep husable (by omega), List.append_nil, hword]
      rw [Encoder.existLoop, hbuild, List.drop_eq_getElem_cons hindex]
      by_cases hsame : s = dict[index]
      · simp only [if_pos hsame]
        rw [if_pos (hsame ▸ List.mem_cons_self), hsame,
          List.idxOf_cons_self, Nat.add_zero]
      · have hnext : e.existLoop s left (257 + index + 1) = _ :=
          ih (by omega : index + 1 + left = dict.length)
        simp only [if_neg hsame, hnext]
        simp only [List.mem_cons, hsame, false_or,
          List.idxOf_cons_ne _ (Ne.symm hsame)]
        congr 3
        omega

/-- `exist` finds the entry of the extended string. -/
theorem exist_spec {dict : List (List UInt8)} {e : Encoder} {pref : ℕ}
    (hrep : Represents e.ref e.app dict)
    (hnexti : e.counters.nexti = 257 + dict.length) (hsize : dict.length < strz)
    (husable : Usable dict.length pref) (suffix : UInt8) :
    e.exist pref suffix =
      some (if string dict (symbol pref) ++ [suffix] ∈ dict then
        some (257 + dict.idxOf (string dict (symbol pref) ++ [suffix])) else none) := by
  have hlength := hrep.length_string (Nat.le_refl _) husable
  have hbuild : buildstr e.ref e.app strz pref [] = some (string dict (symbol pref)) := by
    rw [buildstr_spec hrep husable (by omega), List.append_nil]
  rw [Encoder.exist, hbuild, hnexti, Nat.add_sub_cancel_left]
  exact existLoop_spec hrep hsize _ (Nat.zero_add _)

end Compress

end Fip.Lzw
