import Fip.Core.Bits
import Fip.Os9sim.Break

/-!
# The areas of a module

`main` of `os9sim` puts the code of a module at the break, its data area behind it, and
the parameter string and the registers of the program at the end of the data area.  The
end of the string is stored behind the last byte of that area.  All words are 16 bits
wide.
-/

namespace Fip.Os9sim

/-- The fields of the header that the areas depend on. -/
structure Header where
  size : UInt16
  exec : UInt16
  dsize : UInt16

/-- The string `argv[2]`. -/
abbrev Param := { bytes : List UInt8 // 0 ∉ bytes }

/-- All the pointers os9 needs. -/
structure Areas where
  ibot : UInt16
  itop : UInt16
  dtop : UInt16
  psize : UInt16
  pbot : UInt16
  sbot : UInt16
  size : UInt16
  ipc : UInt16

/-- Calculate areas and the total that is needed. -/
def areas (mybrk : UInt16) (h : Header) (param : Param) : Areas :=
  let ibot := mybrk
  let itop := pages (ibot + h.size)
  let dtop := pages (itop + h.dsize)
  let psize := UInt16.ofNat param.val.length
  let pbot := dtop - psize
  { ibot, itop, dtop, psize, pbot
    sbot := pbot - 12
    size := dtop - ibot
    ipc := ibot + h.exec }

/-- The high byte comes first. -/
def wordBytes (word : UInt16) : List UInt8 :=
  [(word >>> 8).toUInt8, word.toUInt8]

/-- The initial interrupt stack, a `struct regs_s`. -/
def Areas.frame (l : Areas) : List UInt8 :=
  0x80 :: wordBytes l.psize ++ (l.itop >>> 8).toUInt8 :: wordBytes l.pbot ++
    wordBytes l.dtop ++ wordBytes l.itop ++ wordBytes l.ipc

/-- The stores of bytes from an address on. -/
def storesAt (addr : UInt16) (bytes : List UInt8) : List (UInt16 × UInt8) :=
  bytes.mapIdx fun i c => (addr + UInt16.ofNat i, c)

/-- `strcpy` of the string, and the frame. -/
def Areas.stores (l : Areas) (param : Param) : List (UInt16 × UInt8) :=
  storesAt l.pbot (param.val ++ [0]) ++ storesAt l.sbot l.frame

/-- What `main` does from the computation of the areas on, but for reading the module;
`none` if it exits because of `mysbrk`. -/
def main (s : State) (h : Header) (param : Param) :
    Option (Areas × State × List (UInt16 × UInt8)) :=
  let l := areas s.mybrk h param
  let (ret, s) := mysbrk { s with datasize := l.dtop - l.itop } l.size.toInt16
  if ret = 0xffff then none
  else some (l, s, l.stores param)

/-! ## What the areas should be -/

/-- The areas follow each other, as integers, and end at the new break. -/
structure Areas.Ordered (l : Areas) (h : Header) (param : Param) (s : State) : Prop where
  code : l.ibot.toNat + h.size.toNat ≤ l.itop.toNat
  data : l.itop.toNat ≤ l.sbot.toNat
  stack : l.sbot.toNat < l.pbot.toNat
  string : l.pbot.toNat ≤ l.dtop.toNat
  string_pos : param.val ≠ [] → l.pbot.toNat < l.dtop.toNat
  break_eq : l.dtop = s.mybrk
  limit : s.mybrk.toNat ≤ s.mytop.toNat

/-- The address is one of the data area. -/
def Areas.Inside (l : Areas) (addr : UInt16) : Prop :=
  l.itop.toNat ≤ addr.toNat ∧ addr.toNat < l.dtop.toNat

/-- If `mysbrk` succeeds the areas are in order, and all stores are in the data area. -/
def LaidOut (s : State) (h : Header) (param : Param) : Prop :=
  ∀ l s' stores, main s h param = some (l, s', stores) →
    l.Ordered h param s' ∧ ∀ addr c, (addr, c) ∈ stores → l.Inside addr

/-- `mysbrk` fails, because the end of the data area is above the limit, or because the
old break is taken for -1. -/
def Refused (s : State) (h : Header) : Prop :=
  s.mytop < pages (pages (s.mybrk + h.size) + h.dsize) ∨ s.mybrk = 0xffff

instance (s : State) (h : Header) : Decidable (Refused s h) :=
  inferInstanceAs (Decidable (_ ∨ _))

section

variable {s : State} {h : Header} {param : Param}

theorem main_refused (hrefused : Refused s h) : main s h param = none := by
  rw [main, mysbrk]
  simp only [areas, UInt16.toUInt16_toInt16, add_sub_cancel]
  split
  · rfl
  · next hlimit =>
      exact if_pos (hrefused.resolve_left hlimit)

theorem main_accepted (haccepted : ¬ Refused s h) :
    main s h param = some (areas s.mybrk h param,
      { s with
        mybrk := (areas s.mybrk h param).dtop
        datasize := (areas s.mybrk h param).dtop - (areas s.mybrk h param).itop },
      (areas s.mybrk h param).stores param) := by
  obtain ⟨hlimit, hbreak⟩ := not_or.mp haccepted
  rw [main, mysbrk]
  simp only [areas, UInt16.toUInt16_toInt16, add_sub_cancel, if_neg hlimit]
  exact if_neg hbreak

theorem accepted_of_main {result : Areas × State × List (UInt16 × UInt8)}
    (hmain : main s h param = some result) : ¬ Refused s h := by
  intro hrefused
  rw [main_refused hrefused] at hmain
  cases hmain

/-- The end of the string is stored at the end of the data area. -/
theorem terminator_mem (mybrk : UInt16) (h : Header) (param : Param) :
    ((areas mybrk h param).dtop, 0) ∈ (areas mybrk h param).stores param := by
  have haddr : (areas mybrk h param).pbot + UInt16.ofNat param.val.length =
      (areas mybrk h param).dtop := sub_add_cancel _ _
  refine List.mem_append_left _ (List.mem_mapIdx.mpr ⟨param.val.length, ?_, ?_⟩)
  · rw [List.length_append, List.length_singleton]
    exact Nat.lt_succ_self _
  · rw [haddr, List.getElem_append_right (Nat.le_refl _)]
    simp

/-- The areas are never laid out as they should be when `mysbrk` succeeds. -/
theorem laidOut_iff (s : State) (h : Header) (param : Param) :
    LaidOut s h param ↔ Refused s h := by
  constructor
  · intro hlaid
    by_contra haccepted
    obtain ⟨_, hinside⟩ := hlaid _ _ _ (main_accepted haccepted)
    exact Nat.lt_irrefl _ (hinside _ _ (terminator_mem s.mybrk h param)).2
  · intro hrefused l s' stores hmain
    exact absurd hrefused (accepted_of_main hmain)

end

/-- A module with a page of code and a page of data: the end of the string `x` is stored
at 0x2200. -/
theorem not_laidOut_page :
    ¬ LaidOut ⟨0x2000, 0xf000, 0, ⟨0, 0, 0, 0⟩, 0⟩ ⟨0x100, 0x0d, 0x100⟩
      ⟨[0x78], by decide⟩ := by
  intro hlaid
  obtain ⟨_, hinside⟩ := hlaid _ _ _ rfl
  have hend := (hinside 0x2200 0 (by decide)).2
  exact absurd hend (by decide)

/-! ## The areas themselves -/

theorem toNat_pages (d : UInt16) :
    (pages d).toNat = (d.toNat + 0xff) % 0x10000 / 0x100 * 0x100 := by
  have hmask := Bits.and_mask ((d.toNat + 0xff) % 0x10000) 8 8
  rw [pages, UInt16.toNat_and, UInt16.toNat_add]
  refine hmask.trans ?_
  congr 1
  exact Nat.mod_eq_of_lt (by omega)

/-- The code ends in front of its page's end unless one of the sums wraps. -/
theorem code_iff (mybrk size : UInt16) :
    mybrk.toNat + size.toNat ≤ (pages (mybrk + size)).toNat ↔
      mybrk.toNat + size.toNat ≤ 0xff00 := by
  have hbrk := mybrk.toNat_lt
  have hsize := size.toNat_lt
  rw [toNat_pages, UInt16.toNat_add]
  omega

/-- The string and the frame are above the code unless there is no room for them. -/
theorem tail_iff (itop dtop psize : UInt16) :
    (itop.toNat ≤ (dtop - psize - 12).toNat ∧
      (dtop - psize - 12).toNat < (dtop - psize).toNat ∧
      (dtop - psize).toNat ≤ dtop.toNat) ↔
      itop.toNat + psize.toNat + 12 ≤ dtop.toNat := by
  have hitop := itop.toNat_lt
  have hdtop := dtop.toNat_lt
  have hpsize := psize.toNat_lt
  have htwelve : (12 : UInt16).toNat = 12 := rfl
  rw [UInt16.toNat_sub, UInt16.toNat_sub, htwelve]
  omega

theorem mem_storesAt {base addr : UInt16} {bytes : List UInt8} {c : UInt8}
    (hroom : base.toNat + bytes.length ≤ 0x10000) (hmem : (addr, c) ∈ storesAt base bytes) :
    ∃ i, bytes[i]? = some c ∧ addr.toNat = base.toNat + i := by
  obtain ⟨i, hi, hstore⟩ := List.mem_mapIdx.mp hmem
  obtain ⟨rfl, rfl⟩ := Prod.mk.inj hstore
  refine ⟨i, List.getElem?_eq_getElem hi, ?_⟩
  rw [UInt16.toNat_add, UInt16.toNat_ofNat']
  omega

section

variable {s s' : State} {h : Header} {param : Param} {l : Areas}
  {stores : List (UInt16 × UInt8)}

theorem toNat_psize (hshort : param.val.length < 0x10000) :
    (UInt16.ofNat param.val.length).toNat = param.val.length := by
  rw [UInt16.toNat_ofNat']
  exact Nat.mod_eq_of_lt hshort

/-- Where the string and the frame are if there is room for them. -/
theorem toNat_tail {mybrk : UInt16} (hshort : param.val.length < 0x10000)
    (hroom : param.val.length + 12 ≤ (areas mybrk h param).dtop.toNat) :
    (areas mybrk h param).pbot.toNat + param.val.length =
        (areas mybrk h param).dtop.toNat ∧
      (areas mybrk h param).sbot.toNat + 12 = (areas mybrk h param).pbot.toNat := by
  have hpsize := toNat_psize hshort
  have hpbot : (areas mybrk h param).pbot.toNat =
      (areas mybrk h param).dtop.toNat - param.val.length := by
    have hle : UInt16.ofNat param.val.length ≤ (areas mybrk h param).dtop := by
      rw [UInt16.le_iff_toNat_le, hpsize]
      omega
    rw [← hpsize]
    exact UInt16.toNat_sub_of_le _ _ hle
  have hsbot : (areas mybrk h param).sbot.toNat = (areas mybrk h param).pbot.toNat - 12 := by
    refine UInt16.toNat_sub_of_le _ 12 ?_
    change 12 ≤ (areas mybrk h param).pbot.toNat
    omega
  omega

/-- The areas are in order, as integers, exactly if the code ends below 0xff00 and the
data area has room for the string and the frame. -/
theorem ordered_iff (hshort : param.val.length < 0x10000)
    (hmain : main s h param = some (l, s', stores)) :
    l.Ordered h param s' ↔ s.mybrk.toNat + h.size.toNat ≤ 0xff00 ∧
      l.itop.toNat + param.val.length + 12 ≤ l.dtop.toNat := by
  have haccepted := accepted_of_main hmain
  cases (main_accepted haccepted).symm.trans hmain
  have htail := tail_iff (areas s.mybrk h param).itop (areas s.mybrk h param).dtop
    (UInt16.ofNat param.val.length)
  rw [toNat_psize hshort] at htail
  have hlimit : (areas s.mybrk h param).dtop.toNat ≤ s.mytop.toNat :=
    Nat.le_of_not_lt (not_or.mp haccepted).1
  rw [← code_iff]
  constructor
  · intro hordered
    exact ⟨hordered.code, htail.mp ⟨hordered.data, hordered.stack, hordered.string⟩⟩
  · rintro ⟨hcode, hroom⟩
    obtain ⟨hdata, hstack, hstring⟩ := htail.mpr hroom
    refine ⟨hcode, hdata, hstack, hstring, ?_, rfl, hlimit⟩
    intro hne
    have hpos := List.length_pos_iff.mpr hne
    have hfits : param.val.length + 12 ≤ (areas s.mybrk h param).dtop.toNat := by omega
    exact Nat.lt_of_lt_of_eq (Nat.lt_add_of_pos_right hpos) (toNat_tail hshort hfits).1

/-- Of what is stored then, only the end of the string is outside of the data area. -/
theorem stores_inside (hshort : param.val.length < 0x10000)
    (hmain : main s h param = some (l, s', stores)) (hordered : l.Ordered h param s')
    {addr : UInt16} {c : UInt8} (hstore : (addr, c) ∈ stores) :
    l.Inside addr ∨ addr = l.dtop ∧ c = 0 := by
  have hroom := ((ordered_iff hshort hmain).mp hordered).2
  have hdata := hordered.data
  cases (main_accepted (accepted_of_main hmain)).symm.trans hmain
  have hfits : param.val.length + 12 ≤ (areas s.mybrk h param).dtop.toNat := by omega
  obtain ⟨hpbot, hsbot⟩ := toNat_tail hshort hfits
  have hdtop := (areas s.mybrk h param).dtop.toNat_lt
  rcases List.mem_append.mp hstore with hstring | hframe
  · obtain ⟨i, hbyte, haddr⟩ := mem_storesAt (by
      rw [List.length_append, List.length_singleton]
      omega) hstring
    by_cases hi : i < param.val.length
    · left
      constructor <;> omega
    · rw [List.getElem?_append_right (Nat.le_of_not_lt hi)] at hbyte
      obtain ⟨hlast, hzero⟩ := List.getElem?_eq_some_iff.mp hbyte
      rw [List.length_singleton] at hlast
      refine .inr ⟨UInt16.toNat.inj ?_, ?_⟩
      · omega
      · rw [← hzero, List.getElem_singleton]
  · have hlength : (areas s.mybrk h param).frame.length = 12 := rfl
    obtain ⟨i, hbyte, haddr⟩ := mem_storesAt (by omega) hframe
    obtain ⟨hi, _⟩ := List.getElem?_eq_some_iff.mp hbyte
    left
    constructor <;> omega

end

end Fip.Os9sim
