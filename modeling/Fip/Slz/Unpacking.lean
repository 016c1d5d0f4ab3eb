import Fip.Core.Fragment
import Fip.Slz.Format

/-!
# The unpacker expands the packed format

Each item is a step that appends what its token stands for; the tag, doubled
with every item, has the flag of the next one in its place; and the ring gives a
match the bytes that were written before.
-/

namespace Fip.Slz

open Fip.Lz77 Fip.Machine

/-- A tag behind so many items. -/
def doubled (tag : UInt8) : ℕ → UInt16
  | 0 => tag.toUInt16
  | place + 1 => doubled tag place + doubled tag place

theorem doubled_toNat (tag : UInt8) (place : ℕ) :
    (doubled tag place).toNat = tag.toNat * 2 ^ place % 65536 := by
  induction place with
  | zero =>
      have hlt := tag.toNat_lt
      rw [doubled, UInt8.toNat_toUInt16, Nat.pow_zero, Nat.mul_one,
        Nat.mod_eq_of_lt (by omega)]
  | succ place ih =>
      have hdouble : tag.toNat * 2 ^ (place + 1) =
          tag.toNat * 2 ^ place + tag.toNat * 2 ^ place := by
        rw [Nat.pow_succ, ← Nat.mul_assoc, Nat.mul_two]
      calc (doubled tag (place + 1)).toNat
          = ((doubled tag place).toNat + (doubled tag place).toNat) % 65536 :=
            UInt16.toNat_add _ _
        _ = tag.toNat * 2 ^ (place + 1) % 65536 := by rw [ih, ← Nat.add_mod, hdouble]

/-- The bit that is tested is that of the place. -/
theorem doubled_flag (tag : UInt8) {place : ℕ} (hplace : place < 8) :
    doubled tag place &&& 0x80 ≠ 0 ↔ tag.toNat.testBit (7 - place) = true := by
  have hzero : doubled tag place &&& 0x80 = 0 ↔ (doubled tag place).toNat &&& 2 ^ 7 = 0 := by
    rw [← UInt16.toNat_inj, UInt16.toNat_and]
    rfl
  have hbit : (tag.toNat * 2 ^ place % 2 ^ 16).testBit 7 = tag.toNat.testBit (7 - place) := by
    have hle : place ≤ 7 := Nat.le_of_lt_succ hplace
    rw [Nat.testBit_mod_two_pow, Nat.testBit_mul_two_pow, decide_eq_true hle, Bool.true_and]
    exact Bool.true_and _
  have hmod : tag.toNat * 2 ^ place % 65536 = tag.toNat * 2 ^ place % 2 ^ 16 := rfl
  rw [ne_eq, hzero, Nat.and_two_pow, doubled_toNat, hmod, hbit]
  cases tag.toNat.testBit (7 - place) <;> simp

/-- The ring of the unpacker recalls what was written. -/
structure Remembers (u : Unpacker) : Prop where
  offset : u.lzhistOffset < 4096
  recalls : Recalls 4096 u.history u.lzhistOffset u.outfile

/-- The unpacker in front of an item. -/
structure At (u : Unpacker) (tag : UInt8) (place : ℕ) (inbuffer outfile : List UInt8) :
    Prop where
  inbuffer : u.inbuffer = inbuffer
  myTAG : u.myTAG = doubled tag place
  loop1 : u.loop1 = place
  outfile : u.outfile = outfile
  remembers : Remembers u

theorem and_history (offset : ℕ) : offset &&& MASK_history = offset % 4096 :=
  Nat.and_two_pow_sub_one_eq_mod offset 12

theorem Remembers.writechar {u : Unpacker} (hu : Remembers u) (outchar : UInt8) :
    Remembers (writechar u outchar) := by
  constructor
  · rw [Slz.writechar, and_history]
    exact Nat.mod_lt _ (by decide)
  · rw [Slz.writechar, and_history]
    exact hu.recalls.push hu.offset outchar

/-- What the inner loop does: it copies, and touches nothing else. -/
theorem copyOut_spec {distance : ℕ} (hpos : 0 < distance) (hsmall : distance < 4096)
    (length : ℕ) {u : Unpacker} (hu : Remembers u) (hplace : distance ≤ u.outfile.length) :
    (copyOut (HISTORY_SIZE - distance) length u).inbuffer = u.inbuffer ∧
      (copyOut (HISTORY_SIZE - distance) length u).myTAG = u.myTAG ∧
      (copyOut (HISTORY_SIZE - distance) length u).loop1 = u.loop1 ∧
      (copyOut (HISTORY_SIZE - distance) length u).outfile =
        copy distance length u.outfile ∧
      Remembers (copyOut (HISTORY_SIZE - distance) length u) := by
  induction length generalizing u with
  | zero => exact ⟨rfl, rfl, rfl, rfl, hu⟩
  | succ length ih =>
      have hcell : u.outfile[u.outfile.length - distance]? =
          some (u.history ((u.lzhistOffset + (HISTORY_SIZE - distance)) &&& MASK_history)) := by
        rw [and_history]
        exact hu.recalls distance hpos hplace hsmall
      have hrest := ih (hu.writechar
        (u.history ((u.lzhistOffset + (HISTORY_SIZE - distance)) &&& MASK_history)))
        (by
          rw [writechar, List.length_append]
          exact Nat.le_add_right_of_le hplace)
      rw [copyOut, copy, hcell]
      exact hrest

section Items

variable {u : Unpacker} {tag : UInt8} {place : ℕ} {inbuffer outfile : List UInt8}

theorem literal_step {literal : UInt8} (hplace : place < 8)
    (hflag : tag.toNat.testBit (7 - place) = false)
    (hu : At u tag place (literal :: inbuffer) outfile) :
    ∃ u', unpackStep u = .inl u' ∧
      At u' tag (place + 1) inbuffer (outfile ++ [literal]) := by
  have hclear : ¬doubled tag place &&& 0x80 ≠ 0 := by
    rw [doubled_flag tag hplace, hflag]
    decide
  have hloop : ¬place = 8 := Nat.ne_of_lt hplace
  have hwritten := Remembers.writechar (u := { u with inbuffer := inbuffer })
    ⟨hu.remembers.offset, hu.remembers.recalls⟩ literal
  refine ⟨nextItem (writechar { u with inbuffer := inbuffer } literal), ?_, ?_⟩
  · rw [unpackStep, hu.loop1, if_neg hloop, hu.myTAG, if_neg hclear, hu.inbuffer]
  · refine ⟨rfl, ?_, ?_, ?_, ⟨hwritten.offset, hwritten.recalls⟩⟩
    · exact congrArg₂ (· + ·) hu.myTAG hu.myTAG
    · exact congrArg (· + 1) hu.loop1
    · exact congrArg (· ++ [literal]) hu.outfile

theorem copy_step {distance length : ℕ} (hplace : place < 8)
    (hflag : tag.toNat.testBit (7 - place) = true)
    (hvalid : Valid outfile [.copy distance length])
    (hu : At u tag place (matchBytes distance length ++ inbuffer) outfile) :
    ∃ u', unpackStep u = .inl u' ∧
      At u' tag (place + 1) inbuffer (copy distance length outfile) := by
  obtain ⟨⟨hpos, hsmall, hreach, hlong, hshort⟩, -⟩ := hvalid
  obtain ⟨first, second, hbytes, hne, hdistance, hlength⟩ :=
    matchBytes_spec hsmall hlong hshort
  have hset : doubled tag place &&& 0x80 ≠ 0 := (doubled_flag tag hplace).mpr hflag
  have hloop : ¬place = 8 := Nat.ne_of_lt hplace
  have hreach' : distance ≤ u.outfile.length := hu.outfile ▸ hreach
  have hcopied := copyOut_spec hpos hsmall length (u := { u with inbuffer := inbuffer })
    ⟨hu.remembers.offset, hu.remembers.recalls⟩ hreach'
  obtain ⟨hin, htag, hitem, hout, hremembers⟩ := hcopied
  refine ⟨nextItem (copyOut (HISTORY_SIZE - distance) length { u with inbuffer := inbuffer }),
    ?_, ?_⟩
  · rw [unpackStep, hu.loop1, if_neg hloop, hu.myTAG, if_pos hset, hu.inbuffer, hbytes]
    split
    · next heq => cases heq
    · next heq => exact absurd (List.cons.inj heq).1 hne
    · next heq => cases heq
    · next heq =>
      cases heq
      simp only [hdistance, hlength]
      rfl
  · refine ⟨hin, ?_, ?_, ?_, ⟨hremembers.offset, hremembers.recalls⟩⟩
    · exact congrArg₂ (· + ·) (htag.trans hu.myTAG) (htag.trans hu.myTAG)
    · exact congrArg (· + 1) (hitem.trans hu.loop1)
    · exact hout.trans (congrArg (copy distance length) hu.outfile)

/-- One item. -/
theorem item_step {token : Token UInt8} (hplace : place < 8)
    (hflag : tag.toNat.testBit (7 - place) = isCopy token) (hvalid : Valid outfile [token])
    (hu : At u tag place (itemBytes token ++ inbuffer) outfile) :
    ∃ u', unpackStep u = .inl u' ∧
      At u' tag (place + 1) inbuffer (expand outfile [token]) := by
  cases token with
  | literal cell => exact literal_step hplace hflag hu
  | copy distance length => exact copy_step hplace hflag hvalid hu

/-- The items of a group, one after the other. -/
theorem items_run {group : List (Token UInt8)} (hfits : place + group.length ≤ 8)
    (hflags : Flagged tag.toNat place group) (hvalid : Valid outfile group)
    (hu : At u tag place (group.flatMap itemBytes ++ inbuffer) outfile) :
    ∃ u', Reaches unpackStep u u' ∧
      At u' tag (place + group.length) inbuffer (expand outfile group) := by
  induction group generalizing u place outfile with
  | nil => exact ⟨u, .refl, hu⟩
  | cons token group ih =>
      have hsplit : Valid outfile ([token] ++ group) := hvalid
      rw [valid_append] at hsplit
      rw [List.length_cons] at hfits
      rw [List.flatMap_cons, List.append_assoc] at hu
      obtain ⟨u', hstep, hu'⟩ := item_step (by omega) hflags.1 hsplit.1 hu
      obtain ⟨u'', hreaches, hu''⟩ := ih (by omega) hflags.2 hsplit.2 hu'
      refine ⟨u'', .head hstep hreaches, ?_⟩
      rw [← List.singleton_append, expand_append, List.length_append, List.length_singleton,
        ← Nat.add_assoc]
      exact hu''

end Items

/-! ## Groups -/

section Groups

variable {u : Unpacker} {outfile : List UInt8}

/-- The unpacker in front of a tag. -/
structure Behind (u : Unpacker) (inbuffer outfile : List UInt8) : Prop where
  inbuffer : u.inbuffer = inbuffer
  loop1 : u.loop1 = 8
  outfile : u.outfile = outfile
  remembers : Remembers u

theorem tag_step {tag : UInt8} {inbuffer : List UInt8}
    (hu : Behind u (tag :: inbuffer) outfile) :
    ∃ u', unpackStep u = .inl u' ∧ At u' tag 0 inbuffer outfile := by
  refine ⟨{ u with inbuffer := inbuffer, myTAG := tag.toUInt16, loop1 := 0 }, ?_,
    ⟨rfl, rfl, rfl, hu.outfile, ⟨hu.remembers.offset, hu.remembers.recalls⟩⟩⟩
  rw [unpackStep, if_pos hu.loop1, hu.inbuffer]

/-- A flag in front of a zero ends the text. -/
theorem end_step {tag : UInt8} {place : ℕ} {inbuffer : List UInt8} (hplace : place < 8)
    (hflag : tag.toNat.testBit (7 - place) = true)
    (hu : At u tag place (0 :: inbuffer) outfile) :
    unpackStep u = .inr (some outfile) := by
  have hset : doubled tag place &&& 0x80 ≠ 0 := (doubled_flag tag hplace).mpr hflag
  have hloop : ¬place = 8 := Nat.ne_of_lt hplace
  rw [unpackStep, hu.loop1, if_neg hloop, hu.myTAG, if_pos hset, hu.inbuffer, hu.outfile]
  rfl

/-- The byte of a tag. -/
theorem tag_toNat {tag : ℕ} (htag : tag < 256) : (UInt8.ofNat tag).toNat = tag :=
  UInt8.toNat_ofNat_of_lt' htag

/-- From the tag of a group to behind its items. -/
theorem group_run {group : List (Token UInt8)} {tag : ℕ} {inbuffer : List UInt8}
    (hfits : group.length ≤ 8) (htag : tag < 256) (hflags : Flagged tag 0 group)
    (hvalid : Valid outfile group)
    (hu : Behind u (UInt8.ofNat tag :: (group.flatMap itemBytes ++ inbuffer)) outfile) :
    ∃ u', Reaches unpackStep u u' ∧
      At u' (UInt8.ofNat tag) group.length inbuffer (expand outfile group) := by
  obtain ⟨u', hstep, hu'⟩ := tag_step hu
  have hflags' : Flagged (UInt8.ofNat tag).toNat 0 group := by
    rw [tag_toNat htag]
    exact hflags
  obtain ⟨u'', hreaches, hu''⟩ := items_run (by omega) hflags' hvalid hu'
  rw [Nat.zero_add] at hu''
  exact ⟨u'', .head hstep hreaches, hu''⟩

/-- The packed tokens are expanded, and the unpacker stops. -/
theorem encode_run {group tokens : List (Token UInt8)} (hfits : group.length ≤ 8)
    (hvalid : Valid outfile (group ++ tokens)) (hu : Behind u (encode group tokens) outfile) :
    ∃ fuel, run unpackStep fuel u = some (some (expand outfile (group ++ tokens))) := by
  induction tokens generalizing u group outfile with
  | nil =>
      rw [List.append_nil] at hvalid ⊢
      rw [encode] at hu
      by_cases hfull : group.length = 8
      · rw [if_pos hfull] at hu
        obtain ⟨u₁, hreaches, hu₁⟩ := group_run hfits (tagFrom_lt (by omega))
          (flagged_tagFrom hfits) hvalid hu
        obtain ⟨u₂, hstep, hu₂⟩ := tag_step
          ⟨hu₁.inbuffer, hu₁.loop1.trans hfull, hu₁.outfile, hu₁.remembers⟩
        have hend := end_step (by decide) (by decide) hu₂
        have hrun : run unpackStep 1 u₂ = some (some (expand outfile group)) := by
          rw [run, hend]
        exact Reaches.run (hreaches.tail hstep) hrun
      · rw [if_neg hfull] at hu
        have hshort : group.length < 8 := Nat.lt_of_le_of_ne hfits hfull
        obtain ⟨hflags, hflag⟩ := flagged_end hshort
        have htag : tagFrom 0 group ||| 128 >>> group.length < 2 ^ 8 :=
          Nat.or_lt_two_pow (tagFrom_lt (by omega))
            (Nat.lt_of_le_of_lt (Nat.shiftRight_le 128 _) (by decide))
        obtain ⟨u₁, hreaches, hu₁⟩ := group_run hfits htag hflags hvalid hu
        have hend := end_step hshort (by rw [tag_toNat htag]; exact hflag) hu₁
        have hrun : run unpackStep 1 u₁ = some (some (expand outfile group)) := by
          rw [run, hend]
        exact hreaches.run hrun
  | cons token tokens ih =>
      rw [encode] at hu
      by_cases hfull : group.length = 8
      · rw [if_pos hfull] at hu
        rw [valid_append] at hvalid
        rw [expand_append]
        obtain ⟨u₁, hreaches, hu₁⟩ := group_run hfits (tagFrom_lt (by omega))
          (flagged_tagFrom hfits) hvalid.1 hu
        have hone : [token].length ≤ 8 := Nat.le_add_left 1 7
        obtain ⟨fuel, hrun⟩ := ih hone hvalid.2
          ⟨hu₁.inbuffer, hu₁.loop1.trans hfull, hu₁.outfile, hu₁.remembers⟩
        exact hreaches.run hrun
      · rw [if_neg hfull] at hu
        have hnext : (group ++ [token]).length ≤ 8 := by
          rw [List.length_append, List.length_singleton]
          omega
        rw [List.append_cons] at hvalid ⊢
        exact ih hnext hvalid hu

end Groups

end Fip.Slz
