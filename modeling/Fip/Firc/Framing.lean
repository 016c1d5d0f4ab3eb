import Mathlib.Data.List.Basic
import Mathlib.Data.List.OfFn
import Mathlib.Data.List.TakeWhile
import Mathlib.Logic.Function.Basic
import Mathlib.Tactic.Common

/-!
# The lines of the IRC client

`do_network` reads bytes from the server, and `fill_proto` collects them in
`pbuf` until a newline, whose predecessor it overwrites with the end of the
string that `proc_proto` then gets.  A store outside of `pbuf` has no result
here.  What `proc_proto` leaves in `pbuf` is a parameter.
-/

namespace Fip.Firc

/-- `pbuf` -/
abbrev Pbuf := Fin 512 → UInt8

/-- What one `read` puts into `nbuf`. -/
abbrev Nbuf := { bytes : List UInt8 // bytes.length ≤ 512 }

/-- `pbuf`, and how far the static `p` of `fill_proto` is behind its start. -/
structure Proto where
  pbuf : Pbuf
  p : ℕ

def Proto.start : Proto := ⟨fun _ => 0, 0⟩

theorem toNat_lt_of_inside {offset : ℤ} (h : 0 ≤ offset ∧ offset < 512) :
    offset.toNat < 512 := by
  omega

def storeProto (pbuf : Pbuf) (offset : ℤ) (c : UInt8) : Option Pbuf :=
  if h : 0 ≤ offset ∧ offset < 512 then
    some (Function.update pbuf ⟨offset.toNat, toNat_lt_of_inside h⟩ c)
  else none

/-- The string at the start of `pbuf`. -/
def protoString (pbuf : Pbuf) : List UInt8 :=
  (List.ofFn pbuf).takeWhile (· ≠ 0)

section

variable (procProto : Pbuf → Pbuf)

/-- Fill the protocol buffer; the string is what `proc_proto` is called with. -/
def fillProto (s : Proto) (c : UInt8) : Option (Proto × Option (List UInt8)) :=
  if c = 0x0a then do
    let pbuf ← storeProto s.pbuf (s.p - 1) 0
    some (⟨procProto pbuf, 0⟩, some (protoString pbuf))
  else do
    let pbuf ← storeProto s.pbuf s.p c
    some (⟨pbuf, s.p + 1⟩, none)

/-- The loop of `do_network`. -/
def fillProtos : Proto → List UInt8 → Option (Proto × List (List UInt8))
  | s, [] => some (s, [])
  | s, c :: rest => do
      let (s, line) ← fillProto procProto s c
      let (s, lines) ← fillProtos s rest
      some (s, line.toList ++ lines)

/-- Get bytes from the network; a `read` that gets none changes nothing. -/
def doNetwork (s : Proto) (nbuf : Nbuf) : Option (Proto × List (List UInt8)) :=
  fillProtos procProto s nbuf.val

def doNetworks : Proto → List Nbuf → Option (Proto × List (List UInt8))
  | s, [] => some (s, [])
  | s, nbuf :: rest => do
      let (s, lines) ← doNetwork procProto s nbuf
      let (s, more) ← doNetworks s rest
      some (s, lines ++ more)

end

/-! ## Lines -/

/-- The lines of a stream that are terminated. -/
def linesOf (stream : List UInt8) : List (List UInt8) :=
  (stream.splitOn 0x0a).dropLast

/-- What follows the last newline. -/
def restOf (stream : List UInt8) : List UInt8 :=
  (stream.splitOn 0x0a).getLast (List.splitOn_ne_nil _ _)

/-- Without a carriage return at the end. -/
def stripped (line : List UInt8) : List UInt8 :=
  if line.getLast? = some 0x0d then line.dropLast else line

/-- A line that ends with a carriage return, has no NUL, and fits into `pbuf` with
the carriage return. -/
structure Framed (line : List UInt8) : Prop where
  return_last : line.getLast? = some 0x0d
  fits : line.length ≤ 512
  text : 0 ∉ line

/-- The lines of the stream are given to `proc_proto`, and nothing is stored
outside of `pbuf`. -/
def Exact (procProto : Pbuf → Pbuf) (nbufs : List Nbuf) : Prop :=
  ∃ s, doNetworks procProto .start nbufs =
    some (s, (linesOf (nbufs.flatMap Subtype.val)).map stripped)

section

variable {procProto : Pbuf → Pbuf} {s : Proto} {front rest stream : List UInt8} {c : UInt8}

/-- The cut into reads does not matter. -/
theorem fillProtos_append (s : Proto) (first second : List UInt8) :
    fillProtos procProto s (first ++ second) =
      (fillProtos procProto s first).bind fun (s, lines) =>
        (fillProtos procProto s second).map fun (s, more) => (s, lines ++ more) := by
  induction first generalizing s with
  | nil => simp [fillProtos]
  | cons c first ih =>
      simp only [List.cons_append, fillProtos, ih]
      cases fillProto procProto s c with
      | none => rfl
      | some filled =>
          obtain ⟨s, line⟩ := filled
          cases hfirst : fillProtos procProto s first with
          | none => simp [hfirst]
          | some done =>
              simp [hfirst, Option.map_eq_bind, Option.bind_assoc]

theorem doNetworks_eq (s : Proto) (nbufs : List Nbuf) :
    doNetworks procProto s nbufs =
      fillProtos procProto s (nbufs.flatMap Subtype.val) := by
  induction nbufs generalizing s with
  | nil => rfl
  | cons nbuf nbufs ih =>
      rw [doNetworks, List.flatMap_cons, fillProtos_append, doNetwork]
      cases fillProtos procProto s nbuf.val with
      | none => rfl
      | some done =>
          simp [ih, Option.map_eq_bind]

theorem linesOf_newline (hfront : 0x0a ∉ front) :
    linesOf (front ++ 0x0a :: rest) = front :: linesOf rest := by
  rw [linesOf, List.splitOn_append_cons_self_of_not_mem hfront,
    List.dropLast_cons_of_ne_nil (List.splitOn_ne_nil _ _), linesOf]

theorem restOf_newline (hfront : 0x0a ∉ front) :
    restOf (front ++ 0x0a :: rest) = restOf rest := by
  simp only [restOf, List.splitOn_append_cons_self_of_not_mem hfront,
    List.getLast_cons (List.splitOn_ne_nil _ _)]

theorem linesOf_open (hfront : 0x0a ∉ front) : linesOf front = [] := by
  rw [linesOf, List.splitOn_eq_singleton hfront, List.dropLast_singleton]

theorem restOf_open (hfront : 0x0a ∉ front) : restOf front = front := by
  simp only [restOf, List.splitOn_eq_singleton hfront, List.getLast_singleton]

/-- No line and no rest that starts with so many bytes fits. -/
theorem not_fits_of_long (hfront : 0x0a ∉ front) (hlong : 512 < front.length) :
    ¬ ((∀ line ∈ linesOf (front ++ rest), Framed line) ∧
      (restOf (front ++ rest)).length ≤ 512) := by
  rintro ⟨hlines, hrest⟩
  by_cases hmem : 0x0a ∈ rest
  · obtain ⟨more, behind, rfl, hmore⟩ := List.eq_append_cons_of_mem hmem
    have hopen : 0x0a ∉ front ++ more := by
      rw [List.mem_append]
      exact not_or.mpr ⟨hfront, hmore⟩
    rw [← List.append_assoc, linesOf_newline hopen] at hlines
    have hfits := (hlines _ List.mem_cons_self).fits
    rw [List.length_append] at hfits
    omega
  · have hopen : 0x0a ∉ front ++ rest := by
      rw [List.mem_append]
      exact not_or.mpr ⟨hfront, hmem⟩
    rw [restOf_open hopen, List.length_append] at hrest
    omega

/-- Only of a line that ends with a carriage return the right byte is cut off. -/
theorem given_eq_iff (hfits : front.length ≤ 512) (hne : front ≠ []) :
    front.dropLast.takeWhile (· ≠ 0) = stripped front ↔ Framed front := by
  rw [stripped]
  split
  · next hlast =>
      have hsplit : front = front.dropLast ++ [0x0d] :=
        (List.dropLast_append_getLast? _ hlast).symm
      have hmem : 0 ∉ front ↔ 0 ∉ front.dropLast := by
        rw [hsplit, List.dropLast_concat, List.mem_append, List.mem_singleton]
        exact not_congr (or_iff_left (by decide))
      rw [List.takeWhile_eq_self_iff]
      constructor
      · intro htext
        refine ⟨hlast, hfits, hmem.mpr ?_⟩
        intro hzero
        simpa using htext 0 hzero
      · intro hframed c hc
        rw [decide_eq_true_iff]
        rintro rfl
        exact hmem.mp hframed.text hc
  · next hlast =>
      apply iff_of_false _ fun hframed => hlast hframed.return_last
      intro heq
      have hle := (List.takeWhile_prefix (· ≠ 0) (l := front.dropLast)).length_le
      rw [heq, List.length_dropLast] at hle
      have := List.length_pos_iff.mpr hne
      omega

/-- The buffer starts with these bytes. -/
def Stored (pbuf : Pbuf) (text : List UInt8) : Prop :=
  ∀ index : Fin 512, index.val < text.length → text[index.val]? = some (pbuf index)

theorem Stored.concat {pbuf : Pbuf} (hstored : Stored pbuf front) (hroom : front.length < 512) :
    Stored (Function.update pbuf ⟨front.length, hroom⟩ c) (front ++ [c]) := by
  intro index hindex
  rw [List.length_append, List.length_singleton] at hindex
  rcases Nat.lt_succ_iff_lt_or_eq.mp hindex with hless | hlast
  · have hother : index ≠ ⟨front.length, hroom⟩ := Fin.ne_of_val_ne (Nat.ne_of_lt hless)
    rw [List.getElem?_append_left hless, Function.update_of_ne hother]
    exact hstored index hless
  · obtain rfl : index = ⟨front.length, hroom⟩ := Fin.ext hlast
    rw [Function.update_self]
    exact List.getElem?_concat_length

/-- A byte is left out at the end. -/
theorem Stored.dropLast {pbuf : Pbuf} (hstored : Stored pbuf front) :
    Stored pbuf front.dropLast := by
  intro index hindex
  rw [List.getElem?_dropLast, if_pos (by rwa [← List.length_dropLast])]
  rw [List.length_dropLast] at hindex
  exact hstored index (Nat.lt_of_lt_pred hindex)

theorem takeWhile_stop (text behind : List UInt8) :
    (text ++ 0 :: behind).takeWhile (· ≠ 0) = text.takeWhile (· ≠ 0) := by
  induction text with
  | nil => rfl
  | cons c text ih =>
      rw [List.cons_append, List.takeWhile_cons, List.takeWhile_cons, ih]

/-- The string when a NUL has been stored behind the bytes. -/
theorem Stored.protoString_update {pbuf : Pbuf} (hstored : Stored pbuf front)
    (hroom : front.length < 512) :
    protoString (Function.update pbuf ⟨front.length, hroom⟩ 0) =
      front.takeWhile (· ≠ 0) := by
  have hnul : Stored (Function.update pbuf ⟨front.length, hroom⟩ 0) (front ++ [0]) :=
    hstored.concat hroom
  generalize Function.update pbuf ⟨front.length, hroom⟩ 0 = pbuf' at hnul ⊢
  have htake : (List.ofFn pbuf').take (front.length + 1) = front ++ [0] := by
    apply List.ext_getElem?
    intro index
    rw [List.getElem?_take]
    split
    · next hless =>
        have hindex : index < 512 := by omega
        rw [List.getElem?_ofFn, dif_pos hindex]
        refine (hnul ⟨index, hindex⟩ ?_).symm
        rw [List.length_append]
        exact hless
    · next hless =>
        rw [List.getElem?_eq_none]
        rw [List.length_append]
        exact Nat.le_of_not_lt hless
  rw [protoString, ← List.take_append_drop (front.length + 1) (List.ofFn pbuf'), htake,
    List.append_assoc]
  exact takeWhile_stop _ _

theorem storeProto_inside (pbuf : Pbuf) (c : UInt8) {offset : ℕ} (hoffset : offset < 512) :
    storeProto pbuf offset c = some (Function.update pbuf ⟨offset, hoffset⟩ c) :=
  dif_pos (by omega)

/-- The start of a line is in the buffer. -/
structure Proto.Holds (s : Proto) (front : List UInt8) : Prop where
  position : s.p = front.length
  fits : front.length ≤ 512
  stored : Stored s.pbuf front
  unfinished : 0x0a ∉ front

theorem Proto.holds_nil (pbuf : Pbuf) : Proto.Holds ⟨pbuf, 0⟩ [] :=
  ⟨rfl, Nat.zero_le _, fun _ hless => absurd hless (Nat.not_lt_zero _), List.not_mem_nil⟩

theorem Proto.Holds.byte (procProto : Pbuf → Pbuf) (hs : s.Holds front) (hc : c ≠ 0x0a)
    (hroom : front.length < 512) :
    ∃ s', fillProto procProto s c = some (s', none) ∧ s'.Holds (front ++ [c]) := by
  obtain ⟨pbuf, p⟩ := s
  obtain rfl : p = front.length := hs.position
  refine ⟨⟨Function.update pbuf ⟨front.length, hroom⟩ c, front.length + 1⟩, ?_, ?_⟩
  · rw [fillProto, if_neg hc, storeProto_inside pbuf c hroom]
    rfl
  · refine ⟨?_, ?_, hs.stored.concat hroom, ?_⟩
    · rw [List.length_append]
      rfl
    · rw [List.length_append]
      exact hroom
    · rw [List.mem_append, List.mem_singleton]
      exact not_or.mpr ⟨hs.unfinished, hc.symm⟩

theorem Proto.Holds.full (hs : s.Holds front) (hc : c ≠ 0x0a) (hfull : ¬ front.length < 512) :
    fillProto procProto s c = none := by
  have := hs.position
  rw [fillProto, if_neg hc, storeProto, dif_neg (by omega)]
  rfl

/-- The newline of an empty line is stored in front of the buffer. -/
theorem Proto.Holds.newline_first (hs : s.Holds []) : fillProto procProto s 0x0a = none := by
  have hposition : s.p = 0 := hs.position
  rw [fillProto, if_pos rfl, storeProto, dif_neg (by omega)]
  rfl

theorem Proto.Holds.newline (procProto : Pbuf → Pbuf) (hs : s.Holds front)
    (hne : front ≠ []) :
    ∃ s', fillProto procProto s 0x0a =
        some (s', some (front.dropLast.takeWhile (· ≠ 0))) ∧ s'.Holds [] := by
  obtain ⟨pbuf, p⟩ := s
  obtain rfl : p = front.length := hs.position
  have hpos := List.length_pos_iff.mpr hne
  have hfits := hs.fits
  have hlength : front.dropLast.length = front.length - 1 := List.length_dropLast
  have hroom : front.dropLast.length < 512 := by omega
  have hoffset : (front.length - 1 : ℤ) = (front.dropLast.length : ℕ) := by omega
  refine ⟨⟨procProto (Function.update pbuf ⟨_, hroom⟩ 0), 0⟩, ?_, Proto.holds_nil _⟩
  rw [fillProto, if_pos rfl, hoffset, storeProto_inside pbuf 0 hroom,
    ← hs.stored.dropLast.protoString_update hroom]
  rfl

theorem fillProtos_cons {s' : Proto} {line : Option (List UInt8)}
    (hfill : fillProto procProto s c = some (s', line)) {final : Proto}
    {lines : List (List UInt8)} :
    fillProtos procProto s (c :: stream) = some (final, lines) ↔
      ∃ more, fillProtos procProto s' stream = some (final, more) ∧
        line.toList ++ more = lines := by
  rw [fillProtos, hfill]
  simp [Option.bind_eq_some_iff]

/-- From the start of a line that is in the buffer. -/
theorem Proto.Holds.framed_iff (hs : s.Holds front) :
    (∃ s', fillProtos procProto s stream =
        some (s', (linesOf (front ++ stream)).map stripped)) ↔
      (∀ line ∈ linesOf (front ++ stream), Framed line) ∧
        (restOf (front ++ stream)).length ≤ 512 := by
  induction stream generalizing s front with
  | nil =>
      rw [List.append_nil, linesOf_open hs.unfinished, restOf_open hs.unfinished]
      exact iff_of_true ⟨s, rfl⟩ ⟨fun _ hmem => absurd hmem List.not_mem_nil, hs.fits⟩
  | cons c stream ih =>
      by_cases hc : c = 0x0a
      · subst hc
        rw [linesOf_newline hs.unfinished, restOf_newline hs.unfinished, List.map_cons,
          List.forall_mem_cons]
        by_cases hne : front = []
        · subst hne
          rw [fillProtos, hs.newline_first]
          apply iff_of_false
          · rintro ⟨s', hnone⟩
            cases hnone
          · intro hcond
            cases hcond.1.1.return_last
        · obtain ⟨s', hfill, hs'⟩ := hs.newline procProto hne
          simp only [fillProtos_cons hfill]
          rw [← given_eq_iff hs.fits hne, and_assoc, ← List.nil_append stream, ← ih hs',
            List.nil_append]
          constructor
          · rintro ⟨final, more, hrest, hlines⟩
            obtain ⟨hgiven, rfl⟩ := List.cons.inj hlines
            exact ⟨hgiven, final, hrest⟩
          · rintro ⟨hgiven, final, hrest⟩
            exact ⟨final, _, hrest, congrArg (· :: _) hgiven⟩
      · by_cases hroom : front.length < 512
        · obtain ⟨s', hfill, hs'⟩ := hs.byte procProto hc hroom
          simp only [fillProtos_cons hfill, Option.toList_none, List.nil_append,
            exists_eq_right]
          rw [List.append_cons, ← ih hs']
        · rw [fillProtos, hs.full hc hroom]
          apply iff_of_false
          · rintro ⟨s', hnone⟩
            cases hnone
          · rw [List.append_cons]
            apply not_fits_of_long
            · rw [List.mem_append, List.mem_singleton]
              exact not_or.mpr ⟨hs.unfinished, Ne.symm hc⟩
            · rw [List.length_append, List.length_singleton]
              omega

end

end Fip.Firc
