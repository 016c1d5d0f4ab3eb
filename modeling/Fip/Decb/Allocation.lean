import Fip.Decb.Volume
import Mathlib.Tactic.IntervalCases

/-!
# The allocation loop of `put`

The bytes of the granule table as a linked allocation table, what `findgran`
returns, and what the loop of `put` does to the table and to the image when
there are enough free granules: it threads a chain through granules that were
free and stores the source along it.
-/

namespace Fip.Decb

open Fip.ByteFile

/-! ## Table bytes -/

/-- A byte ends a chain exactly from 0xC0 up. -/
theorem isLast_iff (value : UInt8) : isLast value ↔ 192 ≤ value.toNat := by
  have hall : ∀ n : Fin 256,
      (UInt8.ofNat n &&& 0xc0 = 0xc0) ↔ 192 ≤ n.val := by
    decide +kernel
  have hvalue := hall ⟨value.toNat, value.toNat_lt⟩
  rwa [show UInt8.ofNat (Fin.mk value.toNat value.toNat_lt).val = value by
    simp] at hvalue

/-- A granule number survives its passage through an unsigned byte. -/
theorem toNat_ofNat_granule (granule : Fin 68) :
    (UInt8.ofNat granule).toNat = granule := by
  have hlt := granule.isLt
  rw [UInt8.toNat_ofNat']
  omega

/-- A granule is not an end mark. -/
theorem not_isLast_granule (granule : Fin 68) :
    ¬ isLast (UInt8.ofNat granule) := by
  rw [isLast_iff, toNat_ofNat_granule]
  have := granule.isLt
  omega

/-- A round of the loop of `delchain`. -/
theorem delchain_granule (fat : Fat) (first : Fin 68) :
    delchain fat (UInt8.ofNat first) =
      delchain (Function.update fat first 0xff) (fat first) := by
  rw [delchain, if_neg (not_isLast_granule first)]
  simp only [toNat_ofNat_granule, Fin.isLt, dite_true, Fin.eta]

theorem delchain_last {fat : Fat} {value : UInt8} (hlast : isLast value) :
    delchain fat value = some fat := by
  rw [delchain, if_pos hlast]

/-- `gran & ~0x80` -/
theorem toNat_unmarked_granule (granule : Fin 68) :
    (UInt8.ofNat granule.val &&& ~~~0x80).toNat = granule.val := by
  revert granule
  decide

theorem ofInt_granule (granule : Fin 68) :
    UInt8.ofInt (granule.val : ℤ) = UInt8.ofNat granule := by
  revert granule
  decide

/-- The failure value of `findgran` becomes 255. -/
theorem ofInt_neg_one : UInt8.ofInt (-1) = 255 := by decide

theorem ofNat_granule_ne_free (granule : Fin 68) :
    UInt8.ofNat granule ≠ 0xff := by
  intro heq
  have hval := congrArg UInt8.toNat heq
  rw [toNat_ofNat_granule] at hval
  have hlt := granule.isLt
  have h255 : (0xff : UInt8).toNat = 255 := rfl
  omega

/-- The table as successor or end mark. -/
def fatNext (fat : Fat) (granule : Fin 68) : Fin 68 ⊕ UInt8 :=
  if h : (fat granule).toNat < 68 then .inl ⟨(fat granule).toNat, h⟩
  else .inr (fat granule)

theorem fatNext_link {fat : Fat} {granule succ : Fin 68}
    (hlink : fat granule = UInt8.ofNat succ) :
    fatNext fat granule = .inl succ := by
  have hval := toNat_ofNat_granule succ
  rw [← hlink] at hval
  rw [fatNext, dif_pos (by omega)]
  exact congrArg Sum.inl (Fin.ext hval)

theorem fatNext_mark (fat : Fat) (granule : Fin 68)
    (hmark : 68 ≤ (fat granule).toNat) :
    fatNext fat granule = .inr (fat granule) := by
  rw [fatNext, dif_neg (by omega)]

theorem fatNext_eq_inl {fat : Fat} {granule succ : Fin 68}
    (hnext : fatNext fat granule = .inl succ) :
    fat granule = UInt8.ofNat succ := by
  unfold fatNext at hnext
  split_ifs at hnext
  cases hnext
  simp

theorem fatNext_eq_inr {fat : Fat} {granule : Fin 68} {mark : UInt8}
    (hnext : fatNext fat granule = .inr mark) :
    fat granule = mark ∧ 68 ≤ mark.toNat := by
  unfold fatNext at hnext
  split_ifs at hnext
  cases hnext
  exact ⟨rfl, by omega⟩

theorem fatNext_congr {fat fat' : Fat} {granule : Fin 68}
    (heq : fat' granule = fat granule) :
    fatNext fat' granule = fatNext fat granule := by
  simp only [fatNext, heq]

/-- Change of a table away from a chain. -/
theorem Chain.fat_congr {fat fat' : Fat} {start : Fin 68}
    {nodes : List (Fin 68)} {mark : UInt8}
    (hchain : Chain (fatNext fat) start nodes mark)
    (hagree : ∀ node ∈ nodes, fat' node = fat node) :
    Chain (fatNext fat') start nodes mark :=
  hchain.congr fun node hnode => fatNext_congr (hagree node hnode)

/-! ## findgran -/

theorem findgran_of_free {fat : Fat} (hfree : (freeGrans fat).Nonempty) :
    ∃ granule, fat granule = 0xff ∧
      findgran fat = ((granule.val : ℤ), Function.update fat granule 0xc0) := by
  obtain ⟨witness, hwitness⟩ := hfree
  cases hfind : (List.finRange 68).find? fun granule => fat granule = 0xff with
  | some granule =>
      refine ⟨granule, ?_, by simp [findgran, hfind]⟩
      simpa using List.find?_some hfind
  | none =>
      rw [List.find?_eq_none] at hfind
      have habsurd := hfind witness (List.mem_finRange witness)
      simp only [decide_eq_true_eq] at habsurd
      exact absurd (mem_freeGrans.mp hwitness) habsurd

theorem findgran_of_full {fat : Fat} (hfull : freeGrans fat = ∅) :
    findgran fat = (-1, fat) := by
  have hfind : (List.finRange 68).find?
      (fun granule => fat granule = 0xff) = none := by
    rw [List.find?_eq_none]
    intro granule _
    have hnot : granule ∉ freeGrans fat := by simp [hfull]
    simpa using hnot
  simp [findgran, hfind]

theorem freeGrans_update_used {fat : Fat} {granule : Fin 68} {value : UInt8}
    (hvalue : value ≠ 0xff) :
    freeGrans (Function.update fat granule value) =
      (freeGrans fat).erase granule := by
  ext other
  by_cases hother : other = granule
  · subst other
    simp [hvalue]
  · simp [hother]

/-- The next granule is taken and linked to the one before it, which was taken. -/
theorem freeGrans_link {fat : Fat} {x : Fin 68} (hused : fat x ≠ 0xff) (next : Fin 68) :
    freeGrans (Function.update (Function.update fat next 0xc0) x (UInt8.ofNat next)) =
      (freeGrans fat).erase next := by
  have hkept : x ∉ (freeGrans fat).erase next := fun h =>
    hused (mem_freeGrans.mp (Finset.mem_of_mem_erase h))
  rw [freeGrans_update_used (ofNat_granule_ne_free next),
    freeGrans_update_used (by decide), Finset.erase_eq_of_notMem hkept]

/-! ## The loop -/

/-- What the loop of `put` made of a table and an image: a chain from `x`,
whose later granules were free, that holds the source. -/
structure Allocated (opts : Opts) (fat : Fat) (image : List UInt8)
    (x : Fin 68) (src : List UInt8) (fat' : Fat) (image' : List UInt8)
    (tail : List (Fin 68)) (last : Fin 68) : Prop where
  length_tail : tail.length = src.length / granz
  tail_free : ∀ granule ∈ tail, fat granule = 0xff
  last_mem : last ∈ x :: tail
  linked : ∀ mark : UInt8, 68 ≤ mark.toNat →
    Chain (fatNext (Function.update fat' last mark)) x (x :: tail) mark
  fat_frame : ∀ granule, granule ∉ x :: tail → fat' granule = fat granule
  length_image : image'.length = image.length
  image_frame : ∀ index,
    (∀ granule ∈ x :: tail, ¬ inGran opts.offset granule index) →
      image'[index]? = image[index]?
  contents : ((x :: tail).flatMap (granOf image' opts.offset)).take src.length =
    opts.toDisk src

@[simp]
theorem length_toDisk (opts : Opts) (bytes : List UInt8) :
    (opts.toDisk bytes).length = bytes.length := by
  simp only [Opts.toDisk, nl2cr]
  split <;> simp

theorem toDisk_append (opts : Opts) (left right : List UInt8) :
    opts.toDisk (left ++ right) = opts.toDisk left ++ opts.toDisk right := by
  simp only [Opts.toDisk, nl2cr]
  split <;> simp

/-- The last round: the rest of the source fits into the granule. -/
theorem allocated_last {opts : Opts} {image : List UInt8}
    (hholds : Holds image opts.offset) (fat : Fat) (x : Fin 68)
    {src : List UInt8} (hshort : src.length < granz) :
    Allocated opts fat image x src fat
      (writegran image opts.offset x (opts.toDisk src)) [] x where
  length_tail := by simp [Nat.div_eq_of_lt hshort]
  tail_free := by simp
  last_mem := by simp
  linked := fun mark hmark => by
    have hself : Function.update fat x mark x = mark :=
      Function.update_self x mark fat
    have hnext := fatNext_mark (Function.update fat x mark) x (by rwa [hself])
    rw [hself] at hnext
    exact .last hnext
  fat_frame := fun _ _ => rfl
  length_image := (writegran_frame hholds x _ (by simp; omega)).1
  image_frame := fun index hclear =>
    (writegran_frame hholds x _ (by simp; omega)).2 index
      (hclear x List.mem_cons_self)
  contents := by
    simp only [List.flatMap_cons, List.flatMap_nil, List.append_nil]
    rw [granOf_writegran_self hholds x (by simp; omega),
      List.take_append_of_le_length (by simp)]
    simp

/-- A round that goes on: `x` is full, the loop continues in `next`. -/
theorem Allocated.cons {opts : Opts} {image image' : List UInt8}
    (hholds : Holds image opts.offset) {fat fat' : Fat} {x next : Fin 68}
    {src : List UInt8} {tail : List (Fin 68)} {last : Fin 68}
    (hused : fat x ≠ 0xff) (hfree : fat next = 0xff)
    (hlong : granz ≤ src.length)
    (hrest : Allocated opts
      (Function.update (Function.update fat next 0xc0) x (UInt8.ofNat next))
      (writegran image opts.offset x (opts.toDisk (src.take granz))) next
      (src.drop granz) fat' image' tail last) :
    Allocated opts fat image x src fat' image' (next :: tail) last := by
  have hne : next ≠ x := fun heq => hused (heq ▸ hfree)
  have hchunk : (opts.toDisk (src.take granz)).length = granz := by
    simp [hlong]
  have htail : ∀ granule ∈ tail, granule ≠ x ∧ fat granule = 0xff := by
    intro granule hmem
    have hvalue := hrest.tail_free granule hmem
    have hx : granule ≠ x := by
      rintro rfl
      rw [Function.update_self] at hvalue
      exact ofNat_granule_ne_free next hvalue
    refine ⟨hx, ?_⟩
    rw [Function.update_of_ne hx] at hvalue
    by_cases hnext : granule = next
    · rw [hnext]
      exact hfree
    · rwa [Function.update_of_ne hnext] at hvalue
  have hx : x ∉ next :: tail := by
    rw [List.mem_cons, not_or]
    exact ⟨hne.symm, fun hmem => (htail x hmem).1 rfl⟩
  have hframe := writegran_frame hholds x (opts.toDisk (src.take granz))
    (by omega)
  refine ⟨?_, ?_, List.mem_cons_of_mem _ hrest.last_mem, ?_, ?_, ?_, ?_, ?_⟩
  · have hpositive : 0 < granz := by decide
    rw [List.length_cons, hrest.length_tail, List.length_drop,
      Nat.div_eq_sub_div hpositive hlong]
  · intro granule hmem
    rcases List.mem_cons.mp hmem with rfl | hmem
    · exact hfree
    · exact (htail granule hmem).2
  · intro mark hmark
    refine .link (fatNext_link ?_) (hrest.linked mark hmark)
    have hlast : x ≠ last := fun heq => hx (heq ▸ hrest.last_mem)
    rw [Function.update_of_ne hlast, hrest.fat_frame x hx, Function.update_self]
  · intro granule hgranule
    rw [List.mem_cons, not_or] at hgranule
    have hnext : granule ≠ next := fun heq =>
      hgranule.2 (heq ▸ List.mem_cons_self)
    rw [hrest.fat_frame granule hgranule.2,
      Function.update_of_ne hgranule.1, Function.update_of_ne hnext]
  · rw [hrest.length_image, hframe.1]
  · intro index hclear
    rw [hrest.image_frame index fun granule hmem =>
        hclear granule (List.mem_cons_of_mem _ hmem),
      hframe.2 index (hclear x List.mem_cons_self)]
  · have hkept : granOf image' opts.offset x =
        opts.toDisk (src.take granz) := by
      rw [granOf_congr fun index hindex => hrest.image_frame index ?_,
        granOf_writegran_self hholds x (by omega), hchunk,
        List.drop_of_length_le (length_granOf hholds x).le, List.append_nil]
      intro granule hmem
      refine not_inGran_of_ne ?_ hindex
      rintro rfl
      exact hx hmem
    rw [List.flatMap_cons, hkept, List.take_append, hchunk,
      List.take_of_length_le (by omega), ← List.length_drop, hrest.contents,
      ← toDisk_append, List.take_append_drop]

/-- The loop succeeds when enough granules are free. -/
theorem putLoop_spec (opts : Opts) (first : UInt8) (fat : Fat)
    (image : List UInt8) (x : Fin 68) (src : List UInt8)
    (hholds : Holds image opts.offset) (hused : fat x ≠ 0xff)
    (hroom : src.length / granz ≤ (freeGrans fat).card) :
    ∃ fat' image' tail last,
      putLoop opts first fat image (UInt8.ofNat x) src =
        .ok (fat', image', UInt8.ofNat last.val, src.length % granz) ∧
      Allocated opts fat image x src fat' image' tail last := by
  induction hsize : src.length using Nat.strong_induction_on
    generalizing fat image x src with
  | _ size ih =>
  subst hsize
  rcases Nat.lt_or_ge src.length granz with hshort | hlong
  · refine ⟨fat, _, [], x, ?_, allocated_last hholds fat x hshort⟩
    rw [putLoop]
    simp only [List.take_of_length_le hshort.le, hshort, toNat_ofNat_granule,
      dite_true, writegran, Nat.mod_eq_of_lt hshort]
  · have hpositive : 0 < granz := by decide
    have hcount := Nat.div_eq_sub_div hpositive hlong
    rw [hcount] at hroom
    have hsome : (freeGrans fat).Nonempty :=
      Finset.card_pos.mp (Nat.lt_of_lt_of_le (Nat.succ_pos _) hroom)
    obtain ⟨next, hfree, hfind⟩ := findgran_of_free hsome
    have hne : next ≠ x := fun heq => hused (heq ▸ hfree)
    have hmember : next ∈ freeGrans fat := mem_freeGrans.mpr hfree
    have hfree' := freeGrans_link hused next
    have hframe := writegran_frame hholds x (opts.toDisk (src.take granz))
      (by simp)
    obtain ⟨fat', image', tail, last, hloop, halloc⟩ :=
      ih (src.drop granz).length (by simp only [List.length_drop]; omega)
        (Function.update (Function.update fat next 0xc0) x (UInt8.ofNat next))
        (writegran image opts.offset x (opts.toDisk (src.take granz))) next
        (src.drop granz) (hholds.of_length_eq hframe.1)
        (by rw [Function.update_of_ne hne, Function.update_self]; decide)
        (by
          rw [hfree', Finset.card_erase_of_mem hmember, List.length_drop]
          exact Nat.le_sub_of_add_le hroom) rfl
    refine ⟨fat', image', next :: tail, last, ?_,
      Allocated.cons hholds hused hfree hlong halloc⟩
    rw [putLoop]
    simp only [List.length_take, Nat.min_eq_left hlong, lt_irrefl, dite_false,
      toNat_ofNat_granule, hfind, ofInt_granule, Fin.isLt, dite_true,
      Int.natCast_nonneg, not_lt.mpr, if_false, Fin.eta]
    rw [List.length_drop, ← Nat.mod_eq_sub_mod hlong] at hloop
    exact hloop

end Fip.Decb
