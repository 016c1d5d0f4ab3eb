import Fip.Core.Shelf
import Fip.Snazzy.Widget
import Mathlib.Algebra.Order.Ring.Int
import Mathlib.Data.List.Pairwise

/-!
# Packing a box

`box_pack` gives the children of a box their place: a horizontal one has rows of
children, a vertical one columns.  These are the shelves of the same algorithm with
the axes exchanged.  Coordinates are integers here, as where no `int` overflows.
-/

namespace Fip.Snazzy

open Forest

/-- The geometry of a `struct widget`. -/
@[ext]
structure Area where
  x : ℤ
  y : ℤ
  w : ℤ
  h : ℤ

/-- A `struct boxdata`. -/
structure BoxData where
  xpos : ℤ
  ypos : ℤ
  xpad : ℤ
  ypad : ℤ
  max : ℤ
  type : ℤ

def hbox : ℤ := 0

def vbox : ℤ := 1

/-- The geometry that `new_widget` leaves. -/
def newArea : Area := ⟨0, 0, 0, 0⟩

/-- The data of a new box, for the padding that the driver suggests. -/
def box (defXpad defYpad type : ℤ) : BoxData where
  xpos := newArea.x + defXpad
  ypos := newArea.y + defYpad
  xpad := defXpad
  ypad := defYpad
  max := 0
  type := type

/-- Place a child `c` in a box `w`. -/
def boxPack (b : BoxData) (w c : Area) : BoxData × Area :=
  if b.type = hbox then
    let b :=
      if b.xpos + c.w + b.xpad > w.w then
        { b with xpos := b.xpad, ypos := b.ypos + (b.max + b.ypad), max := 0 }
      else b
    let c := { c with x := w.x + b.xpos, y := w.y + b.ypos }
    let b := { b with xpos := b.xpos + (c.w + b.xpad) }
    (if b.max < c.h then { b with max := c.h } else b, c)
  else if b.type = vbox then
    let b :=
      if b.ypos + c.h + b.ypad > w.h then
        { b with ypos := b.ypad, xpos := b.xpos + (b.max + b.xpad), max := 0 }
      else b
    let c := { c with x := w.x + b.xpos, y := w.y + b.ypos }
    let b := { b with ypos := b.ypos + (c.h + b.ypad) }
    (if b.max < c.w then { b with max := c.w } else b, c)
  else (b, c)

/-- The geometry of all widgets, and the data of those that are boxes. -/
structure Canvas (ι : Type*) where
  area : ι → Area
  data : ι → BoxData

variable {ι : Type*} [DecidableEq ι]

/-- What `p->pack` does for a box. -/
def pack (p : ι) (canvas : Canvas ι) (c : ι) : Canvas ι :=
  let (b, a) := boxPack (canvas.data p) (canvas.area p) (canvas.area c)
  ⟨Function.update canvas.area c a, Function.update canvas.data p b⟩

/-- Calls of `pack_widget` for one box, of the given rounds each. -/
def packWidgets (rounds : ℕ) (p : ι) :
    Heap ι × Canvas ι → List ι → Option (Heap ι × Canvas ι)
  | (heap, canvas), [] => some (heap, canvas)
  | (heap, canvas), c :: cs =>
      match packWidget rounds heap p c with
      | none => none
      | some heap => packWidgets rounds p (heap, pack p canvas c) cs

/-- What `dirty_rect` passes over. -/
def Area.far (i w : Area) : Bool :=
  i.x + i.w < w.x || i.x > w.x + w.w || i.y + i.h < w.y || i.y > w.y + w.h

/-- The cell of the screen is in the rectangle. -/
def Area.Covers (a : Area) (x y : ℤ) : Prop :=
  a.x ≤ x ∧ x < a.x + a.w ∧ a.y ≤ y ∧ y < a.y + a.h

def Area.Apart (a b : Area) : Prop := ∀ x y, ¬ (a.Covers x y ∧ b.Covers x y)

/-! ## Rows and columns as shelves -/

/-- A rectangle on the shelves of a box, which are columns in a vertical one. -/
def item (type : ℤ) (a : Area) : Shelf.Item ℤ :=
  if type = vbox then ⟨a.y, a.x, a.h, a.w⟩ else ⟨a.x, a.y, a.w, a.h⟩

def frame (b : BoxData) (w : Area) : Shelf.Frame ℤ :=
  if b.type = vbox then ⟨w.y, w.x, w.h, b.ypad, b.xpad⟩ else ⟨w.x, w.y, w.w, b.xpad, b.ypad⟩

def cursor (b : BoxData) : Shelf.Cursor ℤ :=
  if b.type = vbox then ⟨b.ypos, b.xpos, b.max⟩ else ⟨b.xpos, b.ypos, b.max⟩

section

variable {b : BoxData} {w c : Area}

theorem hbox_ne_vbox : hbox ≠ vbox := by decide

theorem vbox_ne_hbox : vbox ≠ hbox := by decide

/-- A box puts a child on its shelves, and stays as it is otherwise. -/
def Puts (b : BoxData) (w c : Area) : Prop :=
  cursor (boxPack b w c).1 = (Shelf.put (frame b w) (cursor b) (item b.type c)).1 ∧
    item b.type (boxPack b w c).2 = (Shelf.put (frame b w) (cursor b) (item b.type c)).2 ∧
    frame (boxPack b w c).1 w = frame b w ∧ (boxPack b w c).1.type = b.type

/-- The first case of the `switch`. -/
theorem puts_hbox (htype : b.type = hbox) : Puts b w c := by
  rw [Puts, Shelf.put, Shelf.turn]
  by_cases hturn : w.w < b.xpos + c.w + b.xpad
  · by_cases hdeep : 0 < c.h <;>
      simp [boxPack, cursor, frame, item, Shelf.pass, Shelf.place, htype, hbox_ne_vbox, hturn,
        hdeep]
  · by_cases hdeep : b.max < c.h <;>
      simp [boxPack, cursor, frame, item, Shelf.pass, Shelf.place, htype, hbox_ne_vbox, hturn,
        hdeep]

/-- The second case, which has the axes exchanged. -/
theorem puts_vbox (htype : b.type = vbox) : Puts b w c := by
  rw [Puts, Shelf.put, Shelf.turn]
  by_cases hturn : w.h < b.ypos + c.h + b.ypad
  · by_cases hdeep : 0 < c.w <;>
      simp [boxPack, cursor, frame, item, Shelf.pass, Shelf.place, htype, vbox_ne_hbox, hturn,
        hdeep]
  · by_cases hdeep : b.max < c.w <;>
      simp [boxPack, cursor, frame, item, Shelf.pass, Shelf.place, htype, vbox_ne_hbox, hturn,
        hdeep]

theorem puts_box (htype : b.type = hbox ∨ b.type = vbox) : Puts b w c := by
  rcases htype with hhbox | hvbox
  · exact puts_hbox hhbox
  · exact puts_vbox hvbox

/-- The size of a child is its own. -/
theorem boxPack_size : (boxPack b w c).2.w = c.w ∧ (boxPack b w c).2.h = c.h := by
  rw [boxPack]
  split
  · exact ⟨rfl, rfl⟩
  · split
    · exact ⟨rfl, rfl⟩
    · exact ⟨rfl, rfl⟩

theorem Area.apart_of_item {type : ℤ} {a b : Area}
    (hapart : Shelf.Apart (item type a) (item type b)) : a.Apart b := by
  rintro x y ⟨⟨hax, hax', hay, hay'⟩, ⟨hbx, hbx', hby, hby'⟩⟩
  rw [item, item] at hapart
  split at hapart
  · exact hapart y x ⟨⟨hay, hay', hax, hax'⟩, ⟨hby, hby', hbx, hbx'⟩⟩
  · exact hapart x y ⟨⟨hax, hax', hay, hay'⟩, ⟨hbx, hbx', hby, hby'⟩⟩

end

section

variable {defXpad defYpad type : ℤ} {w : Area}

theorem gaps_box (hxpad : 0 ≤ defXpad) (hypad : 0 ≤ defYpad) :
    0 ≤ (frame (box defXpad defYpad type) w).gapAlong ∧
      0 ≤ (frame (box defXpad defYpad type) w).gapAcross := by
  rw [frame]
  split
  · exact ⟨hypad, hxpad⟩
  · exact ⟨hxpad, hypad⟩

theorem onShelf_box :
    Shelf.OnShelf (frame (box defXpad defYpad type) w) (cursor (box defXpad defYpad type)) := by
  rw [frame, cursor]
  split
  · exact ⟨(Int.zero_add _).ge, Int.le_refl _⟩
  · exact ⟨(Int.zero_add _).ge, Int.le_refl _⟩

end

/-! ## A box and its children -/

section

variable {canvas : Canvas ι} {p c d : ι} {cs : List ι}

theorem pack_area_self :
    (pack p canvas c).area c = (boxPack (canvas.data p) (canvas.area p) (canvas.area c)).2 :=
  Function.update_self ..

theorem pack_area_of_ne (hne : d ≠ c) : (pack p canvas c).area d = canvas.area d :=
  Function.update_of_ne hne ..

theorem pack_data :
    (pack p canvas c).data p = (boxPack (canvas.data p) (canvas.area p) (canvas.area c)).1 :=
  Function.update_self ..

theorem foldl_pack_of_not_mem (hnot : d ∉ cs) :
    (cs.foldl (pack p) canvas).area d = canvas.area d := by
  induction cs generalizing canvas with
  | nil => rfl
  | cons c cs ih =>
      rw [List.foldl_cons, ih (List.not_mem_of_not_mem_cons hnot),
        pack_area_of_ne (List.ne_of_not_mem_cons hnot)]

theorem foldl_pack_size :
    ((cs.foldl (pack p) canvas).area d).w = (canvas.area d).w ∧
      ((cs.foldl (pack p) canvas).area d).h = (canvas.area d).h := by
  induction cs generalizing canvas with
  | nil => exact ⟨rfl, rfl⟩
  | cons c cs ih =>
      obtain ⟨hw, hh⟩ := @ih (pack p canvas c)
      rw [List.foldl_cons, hw, hh]
      by_cases hd : d = c
      · subst hd
        rw [pack_area_self]
        exact boxPack_size
      · rw [pack_area_of_ne hd]
        exact ⟨rfl, rfl⟩

/-- The children of a box are what its shelves have. -/
theorem items_foldl_pack {type : ℤ} (htype : type = hbox ∨ type = vbox)
    (hdata : (canvas.data p).type = type) (hnodup : cs.Nodup) (hnot : p ∉ cs) :
    (cs.map fun c => item type ((cs.foldl (pack p) canvas).area c)) =
      (Shelf.putAll (frame (canvas.data p) (canvas.area p)) (cursor (canvas.data p))
        (cs.map fun c => item type (canvas.area c))).2 := by
  induction cs generalizing canvas with
  | nil => rfl
  | cons c cs ih =>
      obtain ⟨hc, hnodup⟩ := List.nodup_cons.mp hnodup
      have hpc : p ≠ c := List.ne_of_not_mem_cons hnot
      subst hdata
      obtain ⟨hcursor, hitem, hframe, hkept⟩ :=
        @puts_box (canvas.data p) (canvas.area p) (canvas.area c) htype
      rw [← pack_data] at hcursor hframe hkept
      rw [← pack_area_self] at hitem
      have hsame : (cs.map fun d => item (canvas.data p).type ((pack p canvas c).area d)) =
          cs.map fun d => item (canvas.data p).type (canvas.area d) := by
        apply List.map_congr_left
        intro d hd
        have hne : d ≠ c := fun heq => hc (heq ▸ hd)
        rw [pack_area_of_ne hne]
      have hrest := ih hkept hnodup (List.not_mem_of_not_mem_cons hnot)
      rw [pack_area_of_ne hpc, hframe, hcursor, hsame] at hrest
      rw [List.foldl_cons, List.map_cons, List.map_cons, Shelf.putAll, hrest,
        foldl_pack_of_not_mem hc, hitem]

/-- `pack_widget` puts new widgets behind the children of a box, and all of them get
their place. -/
theorem exists_packWidgets {kids : ι → List ι} {heap : Heap ι} (hbuilt : Built heap kids)
    (hnodup : cs.Nodup) (hfree : ∀ c ∈ cs, ∀ m, c ∉ kids m) (hnot : ∀ c ∈ cs, ¬ Below kids c p)
    {rounds : ℕ} (hrounds : (kids p).length + cs.length ≤ rounds) :
    ∃ heap' kids', packWidgets rounds p (heap, canvas) cs =
        some (heap', cs.foldl (pack p) canvas) ∧
      Built heap' kids' ∧ kids' p = kids p ++ cs := by
  induction cs generalizing canvas heap kids with
  | nil => exact ⟨heap, kids, rfl, hbuilt, (List.append_nil _).symm⟩
  | cons c cs ih =>
      obtain ⟨hc, hnodup⟩ := List.nodup_cons.mp hnodup
      obtain ⟨hfirst, hfree⟩ := List.forall_mem_cons.mp hfree
      obtain ⟨hnotc, hnot⟩ := List.forall_mem_cons.mp hnot
      rw [List.length_cons] at hrounds
      have hne : c ≠ p := by
        rintro rfl
        exact hnotc Below.refl
      have hroom : (kids p).length ≤ rounds := by omega
      have hpack := packWidget_eq hbuilt.linked.2 hfirst hne rounds
      rw [if_pos hroom] at hpack
      have hfree' : ∀ d ∈ cs, ∀ m, d ∉ graft kids p c m := by
        intro d hd m hmem
        rcases mem_graft.mp hmem with hmem | ⟨_, rfl⟩
        · exact hfree d hd m hmem
        · exact hc hd
      have hnot' : ∀ d ∈ cs, ¬ Below (graft kids p c) d p := by
        intro d hd hbelow
        exact hnot d hd ((below_of_graft hbelow).elim id id)
      have hgraft : graft kids p c p = kids p ++ [c] := Function.update_self ..
      have hrounds' : (graft kids p c p).length + cs.length ≤ rounds := by
        rw [hgraft, List.length_append, List.length_singleton]
        omega
      obtain ⟨heap', kids', hrun, hbuilt', hkids⟩ :=
        @ih (pack p canvas c) _ _ (.pack hbuilt hfirst hnotc hpack) hnodup hfree' hnot' hrounds'
      refine ⟨heap', kids', ?_, hbuilt', ?_⟩
      · rw [packWidgets, hpack]
        exact hrun
      · rw [hkids, hgraft, List.append_assoc]
        rfl

end

/-- The children of a new box do not overlap, and each one that fits stays within its
edges. -/
theorem packed_apart {canvas : Canvas ι} {p : ι} {defXpad defYpad type : ℤ}
    (hxpad : 0 ≤ defXpad) (hypad : 0 ≤ defYpad) (htype : type = hbox ∨ type = vbox)
    (hdata : canvas.data p = box defXpad defYpad type) {cs : List ι} (hnodup : cs.Nodup)
    (hnot : p ∉ cs) (hsize : ∀ c ∈ cs, 0 ≤ (canvas.area c).w ∧ 0 ≤ (canvas.area c).h) :
    let w := canvas.area p
    let area := (cs.foldl (pack p) canvas).area
    (∀ c ∈ cs, ∀ d ∈ cs, c ≠ d → (area c).Apart (area d)) ∧
      (∀ c, (area c).w = (canvas.area c).w ∧ (area c).h = (canvas.area c).h) ∧
      (type = hbox → ∀ c ∈ cs, (area c).w + 2 * defXpad ≤ w.w →
        w.x ≤ (area c).x ∧ (area c).x + (area c).w ≤ w.x + w.w) ∧
      (type = vbox → ∀ c ∈ cs, (area c).h + 2 * defYpad ≤ w.h →
        w.y ≤ (area c).y ∧ (area c).y + (area c).h ≤ w.y + w.h) := by
  intro w area
  have hkind : (canvas.data p).type = type := by
    rw [hdata]
    rfl
  have hitems := items_foldl_pack htype hkind hnodup hnot
  rw [hdata] at hitems
  obtain ⟨halong, hacross⟩ := @gaps_box _ _ type w hxpad hypad
  have hshelf := @onShelf_box defXpad defYpad type w
  have hlength : ∀ i ∈ cs.map fun c => item type (canvas.area c), 0 ≤ i.length := by
    intro i hi
    obtain ⟨c, hc, rfl⟩ := List.mem_map.mp hi
    rw [item]
    split
    · exact (hsize c hc).2
    · exact (hsize c hc).1
  have hpairwise := Shelf.pairwise_putAll halong hacross hshelf hlength
  have hfits := Shelf.putAll_fits halong hshelf hlength
  rw [← hitems] at hpairwise hfits
  have hfits := List.forall_mem_map.mp hfits
  refine ⟨?_, fun c => foldl_pack_size, ?_, ?_⟩
  · have hsymm : Std.Symm fun c d => (area c).Apart (area d) :=
      ⟨fun _ _ hapart x y hboth => hapart x y hboth.symm⟩
    have hapart : cs.Pairwise fun c d => (area c).Apart (area d) :=
      (List.pairwise_map.mp hpairwise).imp Area.apart_of_item
    exact fun c hc d hd => hapart.forall hc hd
  · rintro rfl c hc
    exact hfits c hc
  · rintro rfl c hc
    exact hfits c hc

/-- A box of two rows, for three children. -/
def twoRows : Canvas ℕ where
  area w := if w = 0 then ⟨0, 0, 13, 2⟩ else ⟨0, 0, 5, 1⟩
  data _ := box 1 0 hbox

/-- The third one is put into the second row, and all of them are within the edges. -/
theorem packed_apart_rows :
    let area := ([1, 2, 3].foldl (pack 0) twoRows).area
    ((area 2).x, (area 2).y) = (7, 0) ∧ ((area 3).x, (area 3).y) = (1, 1) ∧
      (∀ c ∈ [1, 2, 3], ∀ d ∈ [1, 2, 3], c ≠ d → (area c).Apart (area d)) ∧
      ∀ c ∈ [1, 2, 3], 0 ≤ (area c).x ∧ (area c).x + 5 ≤ 13 := by
  intro area
  have hsize : ∀ c ∈ [1, 2, 3], 0 ≤ (twoRows.area c).w ∧ 0 ≤ (twoRows.area c).h := by decide
  obtain ⟨hapart, -, hedges, -⟩ := @packed_apart _ _ twoRows 0 1 0 hbox (by decide) (by decide)
    (.inl rfl) rfl [1, 2, 3] (by decide) (by decide) hsize
  refine ⟨rfl, rfl, hapart, fun c hc => ?_⟩
  have hwidth : (area c).w = 5 := by
    have hall : ∀ c ∈ [1, 2, 3], (([1, 2, 3].foldl (pack 0) twoRows).area c).w = 5 := by decide
    exact hall c hc
  have hedge := hedges rfl c hc (by change (area c).w + 2 * 1 ≤ 13; rw [hwidth]; decide)
  rw [← hwidth]
  exact hedge

end Fip.Snazzy
