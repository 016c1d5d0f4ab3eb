import Fip.Slz.Format

/-!
# The packer writes the packed format

The match loop finds only bytes that are equal inside the buffer, whatever it
compares behind its end, because a match is cut off there.  So each item of the
packer is a token that goes on with the text, and what it writes is the packed
form of its tokens.
-/

namespace Fip.Slz

open Fip.Lz77 Fip.Machine

/-! ## Matches -/

theorem matchLength_spec (buffer : ℕ → UInt8) (rounds a b temp : ℕ) :
    ∃ count ≤ rounds, matchLength buffer a b temp rounds = temp + count ∧
      ∀ i < count, buffer (a + i) = buffer (b + i) := by
  induction rounds generalizing a b temp with
  | zero => exact ⟨0, Nat.le_refl 0, rfl, fun i hi => absurd hi (Nat.not_lt_zero i)⟩
  | succ rounds ih =>
      rw [matchLength]
      by_cases hsame : buffer a = buffer b
      · rw [if_pos hsame]
        obtain ⟨count, hcount, hlength, hcells⟩ := ih (a + 1) (b + 1) (temp + 1)
        refine ⟨count + 1, Nat.succ_le_succ hcount, ?_, ?_⟩
        · rw [hlength, Nat.add_assoc, Nat.add_comm 1]
        · intro i hi
          cases i with
          | zero => exact hsame
          | succ i =>
              rw [← Nat.add_assoc, Nat.add_right_comm, ← Nat.add_assoc b, Nat.add_right_comm b]
              exact hcells i (Nat.lt_of_succ_lt_succ hi)
      · rw [if_neg hsame]
        exact ⟨0, Nat.zero_le _, rfl, fun i hi => absurd hi (Nat.not_lt_zero i)⟩

section Pack

variable {inbuffer : List UInt8} (past : ℕ → ℕ → UInt8)

/-- What the scan has found: nothing, or equal bytes inside the buffer. -/
structure Found (inbuffer : List UInt8) (loop1 startvalue : ℕ) (best : ℕ × ℕ) : Prop where
  short : best.1 ≤ MAX_COMP_LEN
  start : best.1 ≠ 0 → startvalue ≤ best.2 ∧ best.2 < loop1
  inside : best.1 ≠ 0 → loop1 + best.1 ≤ inbuffer.length
  same : ∀ i < best.1, inbuffer[best.2 + i]? = inbuffer[loop1 + i]?

theorem byteAt_inside (loop1 : ℕ) {index : ℕ} (hindex : index < inbuffer.length) :
    inbuffer[index]? = some (byteAt inbuffer past loop1 index) := by
  rw [byteAt, List.getD_eq_getElem?_getD, List.getElem?_eq_getElem hindex, Option.getD_some]

variable {loop1 startvalue : ℕ}

/-- Equal bytes, up to the end of the buffer, are a match. -/
theorem found_of_same {endvalue found : ℕ} (hstart : startvalue ≤ endvalue)
    (hend : endvalue < loop1) (hshort : found ≤ MAX_COMP_LEN)
    (hinside : loop1 + found ≤ inbuffer.length)
    (hsame : ∀ i < found, byteAt inbuffer past loop1 (loop1 + i) =
      byteAt inbuffer past loop1 (endvalue + i)) :
    Found inbuffer loop1 startvalue (found, endvalue) where
  short := hshort
  start := fun _ => ⟨hstart, hend⟩
  inside := fun _ => hinside
  same := by
    intro i hi
    have hi : i < found := hi
    rw [byteAt_inside past loop1 (show endvalue + i < inbuffer.length by omega),
      byteAt_inside past loop1 (show loop1 + i < inbuffer.length by omega), hsame i hi]

theorem scan_spec (hplace : loop1 < inbuffer.length) {count : ℕ}
    (hcount : startvalue + count ≤ loop1) {best : ℕ × ℕ}
    (hbest : Found inbuffer loop1 startvalue best) :
    Found inbuffer loop1 startvalue (scan inbuffer past loop1 startvalue count best) := by
  induction count generalizing best with
  | zero => exact hbest
  | succ count ih =>
      obtain ⟨found, wherefound⟩ := best
      obtain ⟨temp, htemp, hlength, hsame⟩ := matchLength_spec
        (byteAt inbuffer past loop1) MAX_COMP_LEN loop1 (startvalue + count) 0
      rw [Nat.zero_add] at hlength
      have hstart : startvalue ≤ startvalue + count := Nat.le_add_right _ _
      have hend : startvalue + count < loop1 := hcount
      have hcandidate : Found inbuffer loop1 startvalue
          (if temp + loop1 > inbuffer.length then
            if found < inbuffer.length - loop1 then
              (inbuffer.length - loop1, startvalue + count)
            else (found, wherefound)
          else (temp, startvalue + count)) := by
        by_cases hlong : temp + loop1 > inbuffer.length
        · rw [if_pos hlong]
          by_cases hmore : found < inbuffer.length - loop1
          · rw [if_pos hmore]
            exact found_of_same past hstart hend (by omega) (by omega)
              fun i hi => hsame i (by omega)
          · rw [if_neg hmore]
            exact hbest
        · rw [if_neg hlong]
          exact found_of_same past hstart hend htemp (by omega) hsame
      rw [scan]
      simp only [hlength]
      by_cases hbetter : found < temp
      · rw [if_pos hbetter]
        generalize (if temp + loop1 > inbuffer.length then
          if found < inbuffer.length - loop1 then
            (inbuffer.length - loop1, startvalue + count)
          else (found, wherefound)
        else (temp, startvalue + count)) = best at hcandidate ⊢
        by_cases hlongest : best.1 = MAX_COMP_LEN
        · rw [if_pos hlongest]
          exact hcandidate
        · rw [if_neg hlongest]
          exact ih (Nat.le_of_lt hend) hcandidate
      · rw [if_neg hbetter]
        exact ih (Nat.le_of_lt hend) hbest

/-! ## Items -/

/-- The packer has packed `tokens`, of which the last are in the group. -/
structure Packed (inbuffer : List UInt8) (p : Packer) (group tokens : List (Token UInt8)) :
    Prop where
  iter : p.iter = group.length
  fits : group.length ≤ 8
  myTAG : p.myTAG = tagFrom 0 group
  outchars : p.outchars = group.flatMap itemBytes
  place : p.loop1 ≤ inbuffer.length
  rest : p.loop2 = inbuffer.length - p.loop1
  done : p.done = decide (p.loop2 ≤ 0)
  last : p.done = true → group ≠ []
  valid : Valid [] tokens
  text : expand [] tokens = inbuffer.take p.loop1
  written : ∀ later, later ≠ [] ∨ group ≠ [] →
    p.outfile ++ encode group later = encode [] (tokens ++ later)

/-- One more token. -/
theorem Packed.push {p p' : Packer} {group tokens : List (Token UInt8)}
    (hp : Packed inbuffer p group tokens) (hfits : group.length < 8) (token : Token UInt8)
    {length : ℕ} (hplace : p.loop1 + length ≤ inbuffer.length)
    (hvalid : Valid (inbuffer.take p.loop1) [token])
    (htext : expand (inbuffer.take p.loop1) [token] = inbuffer.take (p.loop1 + length))
    (hiter : p'.iter = p.iter + 1) (htag : p'.myTAG = p.myTAG ||| tagBit p.iter token)
    (hchars : p'.outchars = p.outchars ++ itemBytes token)
    (hloop1 : p'.loop1 = p.loop1 + length) (hloop2 : p'.loop2 = p.loop2 - length)
    (hdone : p'.done = decide (p'.loop2 ≤ 0)) (hout : p'.outfile = p.outfile) :
    Packed inbuffer p' (group ++ [token]) (tokens ++ [token]) := by
  have hne : group ++ [token] ≠ [] := List.append_ne_nil_of_right_ne_nil _ (by simp)
  have hlength : (group ++ [token]).length = group.length + 1 := by
    rw [List.length_append, List.length_singleton]
  constructor
  · rw [hiter, hp.iter, hlength]
  · omega
  · rw [htag, hp.myTAG, hp.iter, tagFrom_snoc, Nat.zero_add]
  · rw [hchars, hp.outchars, List.flatMap_append, List.flatMap_singleton]
  · rw [hloop1]
    exact hplace
  · rw [hloop1, hloop2, hp.rest]
    omega
  · exact hdone
  · exact fun _ => hne
  · rw [valid_append, hp.text]
    exact ⟨hp.valid, hvalid⟩
  · rw [expand_append, hp.text, htext, hloop1]
  · intro later _
    have hnext : encode group (token :: later) = encode (group ++ [token]) later := by
      rw [encode, if_neg (Nat.ne_of_lt hfits)]
    rw [hout, ← hnext, List.append_assoc, List.singleton_append]
    exact hp.written (token :: later) (Or.inl (List.cons_ne_nil token later))

/-- An item of the packer is a token. -/
theorem packItem_spec {p : Packer} {group tokens : List (Token UInt8)}
    (hp : Packed inbuffer p group tokens) (hfits : group.length < 8) (hdone : p.done = false) :
    ∃ token, Packed inbuffer (packItem inbuffer past p) (group ++ [token])
      (tokens ++ [token]) ∧ p.loop1 < (packItem inbuffer past p).loop1 := by
  have hmore : p.loop1 < inbuffer.length := by
    have hrest := hp.done
    rw [hdone, eq_comm, decide_eq_false_iff_not, hp.rest] at hrest
    omega
  have hlength : (inbuffer.take p.loop1).length = p.loop1 :=
    List.length_take_of_le (Nat.le_of_lt hmore)
  have hnone : Found inbuffer p.loop1 (p.loop1 - MASK_history) (0, 0) :=
    ⟨Nat.zero_le _, fun hne => absurd rfl hne, fun hne => absurd rfl hne,
      fun i hi => absurd hi (Nat.not_lt_zero i)⟩
  have hcount : p.loop1 - MASK_history + (p.loop1 - (p.loop1 - MASK_history)) ≤ p.loop1 := by
    omega
  have hscan := scan_spec past hmore hcount hnone
  rw [packItem]
  rcases hbest : scan inbuffer past p.loop1 (p.loop1 - MASK_history)
    (p.loop1 - (p.loop1 - MASK_history)) (0, 0) with ⟨found, wherefound⟩
  rw [hbest] at hscan
  dsimp only
  by_cases hworth : found > 2
  · have hne : found ≠ 0 := by omega
    obtain ⟨hstart, hend⟩ := hscan.start hne
    have hinside : p.loop1 + found ≤ inbuffer.length := hscan.inside hne
    have hshort : found ≤ 17 := hscan.short
    have hhistory : MASK_history = 4095 := rfl
    have htext : copy (p.loop1 - wherefound) found (inbuffer.take p.loop1) =
        inbuffer.take (p.loop1 + found) := by
      apply copy_take (by omega) (Nat.sub_le _ _) hinside
      intro i hi
      rw [Nat.sub_sub_self (Nat.le_of_lt hend)]
      exact hscan.same i hi
    refine ⟨.copy (p.loop1 - wherefound) found, ?_, ?_⟩
    · rw [if_pos hworth]
      refine hp.push hfits _ hinside ⟨⟨by omega, ?_, by omega, hworth, hshort⟩, trivial⟩ htext
        rfl rfl rfl rfl rfl rfl rfl
      have hstart : p.loop1 - MASK_history ≤ wherefound := hstart
      omega
    · rw [if_pos hworth]
      exact Nat.lt_add_of_pos_right (Nat.pos_of_ne_zero hne)
  · have hcell : inbuffer[p.loop1]? = some (inbuffer.getD p.loop1 0) := by
      rw [List.getD_eq_getElem?_getD, List.getElem?_eq_getElem hmore, Option.getD_some]
    have htext : inbuffer.take p.loop1 ++ [inbuffer.getD p.loop1 0] =
        inbuffer.take (p.loop1 + 1) := by
      rw [List.take_add_one, hcell]
      rfl
    refine ⟨.literal (inbuffer.getD p.loop1 0), ?_, ?_⟩
    · rw [if_neg hworth]
      refine hp.push hfits _ hmore trivial htext rfl ?_ rfl rfl rfl rfl rfl
      exact (Nat.or_zero p.myTAG).symm
    · rw [if_neg hworth]
      exact Nat.lt_succ_self p.loop1

/-- The end of a group. -/
theorem packGroup_spec {p : Packer} {group tokens : List (Token UInt8)}
    (hp : Packed inbuffer p group tokens) (hfull : group.length = 8) (hdone : p.done = false) :
    Packed inbuffer (packGroup p) [] tokens where
  iter := rfl
  fits := Nat.zero_le 8
  myTAG := rfl
  outchars := rfl
  place := hp.place
  rest := hp.rest
  done := hp.done
  last := fun htrue => absurd (hdone.symm.trans htrue) Bool.false_ne_true
  valid := hp.valid
  text := hp.text
  written := by
    intro later hlater
    obtain ⟨token, later, rfl⟩ := List.exists_cons_of_ne_nil
      (hlater.resolve_right fun hne => hne rfl)
    have hwritten := hp.written (token :: later) (Or.inl (List.cons_ne_nil token later))
    rw [encode, if_pos hfull] at hwritten
    rw [← hwritten, packGroup, hp.myTAG, hp.outchars, List.append_assoc, List.cons_append]
    rfl

theorem packStart_spec (hlength : 3 ≤ inbuffer.length) :
    Packed inbuffer (packStart inbuffer) [.literal (inbuffer.getD 0 0)]
      [.literal (inbuffer.getD 0 0)] where
  iter := rfl
  fits := by simp
  myTAG := by
    rw [tagFrom, tagFrom, tagBit]
    exact (Nat.or_zero 0).symm
  outchars := rfl
  place := by
    change 1 ≤ inbuffer.length
    omega
  rest := rfl
  done := by
    have hmore : ¬(inbuffer.length : ℤ) - 1 ≤ 0 := by omega
    exact (decide_eq_false hmore).symm
  last := fun _ => List.cons_ne_nil _ _
  valid := trivial
  text := by
    obtain ⟨first, rest, rfl⟩ := List.exists_cons_of_length_pos
      (show 0 < inbuffer.length by omega)
    rfl
  written := fun later _ => rfl

/-- The group that is left, and the mark of the end. -/
theorem packEnd_spec {p : Packer} {group tokens : List (Token UInt8)}
    (hp : Packed inbuffer p group tokens) (hdone : p.done = true) :
    packEnd p = encode [] tokens := by
  have hwritten := hp.written [] (Or.inr (hp.last hdone))
  rw [List.append_nil] at hwritten
  rw [← hwritten, packEnd, encode, hp.iter, hp.myTAG, hp.outchars]
  by_cases hfull : group.length = 8
  · rw [if_pos hfull, if_pos hfull]
  · rw [if_neg hfull, if_neg hfull]

/-- The text behind a packer that is done. -/
theorem text_of_done {p : Packer} {group tokens : List (Token UInt8)}
    (hp : Packed inbuffer p group tokens) (hdone : p.done = true) :
    expand [] tokens = inbuffer := by
  have hrest := hp.done
  rw [hdone, eq_comm, decide_eq_true_iff, hp.rest] at hrest
  rw [hp.text, List.take_of_length_le]
  omega

/-- The packer ends, and what it has written is the packed form of tokens that expand
to its input. -/
theorem packSLZ_spec (hlength : 3 ≤ inbuffer.length) :
    ∃ fuel tokens, packSLZ inbuffer past fuel = some (encode [] tokens) ∧
      Valid [] tokens ∧ expand [] tokens = inbuffer := by
  have hstep : ∀ p : Packer, (∃ group tokens, Packed inbuffer p group tokens) →
      Advances (fun p => ∃ group tokens, Packed inbuffer p group tokens)
        (fun p => p.done = true ∧ ∃ group tokens, Packed inbuffer p group tokens)
        (fun p => 2 * (inbuffer.length - p.loop1) + p.iter / 8)
        (2 * (inbuffer.length - p.loop1) + p.iter / 8) (packStep inbuffer past p) := by
    rintro p ⟨group, tokens, hp⟩
    have hiter := hp.iter
    have hfits := hp.fits
    rw [packStep]
    cases hdone : p.done with
    | true => exact ⟨hdone, group, tokens, hp⟩
    | false =>
        rw [if_neg Bool.false_ne_true]
        by_cases hfull : p.iter < 8
        · rw [if_pos hfull]
          obtain ⟨token, hnext, hless⟩ := packItem_spec past hp (by omega) hdone
          refine ⟨⟨_, _, hnext⟩, ?_⟩
          have hplace := hnext.place
          have hiter' := hnext.iter
          rw [List.length_append, List.length_singleton] at hiter'
          change 2 * (inbuffer.length - (packItem inbuffer past p).loop1) +
            (packItem inbuffer past p).iter / 8 < _
          omega
        · rw [if_neg hfull]
          have hgroup : group.length = 8 := by omega
          refine ⟨⟨_, _, packGroup_spec hp hgroup hdone⟩, ?_⟩
          change 2 * (inbuffer.length - p.loop1) + 0 / 8 < _
          omega
  have hfuel : 2 * (inbuffer.length - (packStart inbuffer).loop1) +
      (packStart inbuffer).iter / 8 < 2 * inbuffer.length + 1 := by
    change 2 * (inbuffer.length - 1) + 1 / 8 < 2 * inbuffer.length + 1
    omega
  obtain ⟨p, hrun, hdone, group, tokens, hp⟩ := run_total hstep
    ⟨_, _, packStart_spec hlength⟩ hfuel
  refine ⟨2 * inbuffer.length + 1, tokens, ?_, hp.valid, text_of_done hp hdone⟩
  rw [packSLZ, hrun, Option.map_some, packEnd_spec hp hdone]

end Pack

end Fip.Slz
