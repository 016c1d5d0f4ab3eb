import Fip.Snazzy.Box
import Fip.Snazzy.Dialog

/-!
# The dialog of `main`

A row of buttons, a column of checks, three radio buttons and a line of text, and a menu that
is hidden until the first button is clicked.  The widgets are numbered as they are created.
-/

namespace Fip.Snazzy

open Forest

/-- The calls of `pack_widget`. -/
def packs : List (ℕ × ℕ) :=
  [(0, 1), (0, 2), (0, 3), (0, 4), (0, 5),
    (1, 6), (1, 7), (1, 8), (1, 9), (1, 10), (1, 11),
    (3, 12), (3, 13), (3, 14), (3, 15), (3, 16), (3, 17), (3, 18),
    (4, 19), (4, 20), (4, 21),
    (0, 22), (22, 23), (22, 24), (22, 25), (22, 26), (22, 27), (5, 28)]

/-- The widgets that are created, which are enough rounds for each call too. -/
def widgets : ℕ := 29

def packAll (heap : Heap ℕ) (packs : List (ℕ × ℕ)) : Option (Heap ℕ) :=
  packs.foldlM (fun heap pack => packWidget widgets heap pack.1 pack.2) heap

def mainHeap : Heap ℕ := (packAll newWidgets packs).getD newWidgets

/-! ## Where the widgets are -/

def mainText (w : ℕ) : String :=
  ["", "", "This is a Label", "", "", "", "Menu", "Ok", "Cancel", "one", "two", "three", "Awesome!",
    "cool!", "radical!", "narly!", "blah de blah", "42!", "does this works?", "mutex", "xetum",
    "now now", "", "Open", "Print", "File", "Run", "Exit", "some text"].getD w ""

/-- What the hints of the driver make of the text: for a button, a check or radio button, an
item of the menu, the line of text and a label. -/
def mainWidth (w : ℕ) : ℤ :=
  if 6 ≤ w ∧ w ≤ 11 then (mainText w).length + 4
  else if 12 ≤ w ∧ w ≤ 17 ∨ 19 ≤ w ∧ w ≤ 21 then (mainText w).length + 6
  else if 23 ≤ w ∧ w ≤ 27 then (mainText w).length + 2
  else if w = 28 then (mainText w).length + 49 + 2
  else (mainText w).length

def isBox (w : ℕ) : Bool := w = 0 || w = 1 || w = 3 || w = 4 || w = 5 || w = 22

/-- With the padding of the driver. -/
def newCanvas : Canvas ℕ where
  area w :=
    if w = 0 then ⟨0, 0, 80, 25⟩
    else if w = 1 then ⟨0, 0, 80, 4⟩
    else if w = 3 then ⟨0, 0, 80, 5⟩
    else if w = 4 ∨ w = 5 then ⟨0, 0, 80, 1⟩
    else if w = 22 then newArea
    else ⟨0, 0, mainWidth w, 1⟩
  data w := box 1 0 (if w = 1 ∨ w = 4 ∨ w = 5 then hbox else vbox)

def placeAll (canvas : Canvas ℕ) (packs : List (ℕ × ℕ)) : Canvas ℕ :=
  packs.foldl (fun canvas call => pack call.1 canvas call.2) canvas

/-- The loop of `post_menu`, for so many rounds. -/
def postLoop (heap : Heap ℕ) (w : ℕ) : ℕ → Iter ℕ → ℤ → (ℕ → Area) → ℕ → Area
  | 0, _, _, area => area
  | rounds + 1, it, y, area =>
      match getnext heap it with
      | (none, _) => area
      | (some i, it) =>
          let wide := if (area i).w > (area w).w then (area i).w else (area w).w
          let menu := { area w with w := wide, h := (area w).h + (area i).h }
          let item := { area i with x := menu.x, y := y }
          postLoop heap w rounds it (y + item.h)
            (Function.update (Function.update area w menu) i item)

/-- `post_menu`, in front of the last call of `pack_widget`. -/
def postMenu (area : ℕ → Area) (w : ℕ) : ℕ → Area :=
  let heap := (packAll newWidgets (packs.take 27)).getD newWidgets
  let area := Function.update area w { area w with w := 0, h := 0 }
  postLoop heap w widgets (getnext heap (istart w)).2 (area w).y area

/-- The menu gets its geometry when it is packed, and its items get theirs from it. -/
def mainCanvas : Canvas ℕ :=
  let canvas := placeAll newCanvas (packs.take 22)
  let canvas := { canvas with area := Function.update canvas.area 22 ⟨3, 1, 15, 5⟩ }
  let canvas := placeAll canvas ((packs.drop 22).take 5)
  let canvas := { canvas with area := postMenu canvas.area 22 }
  placeAll canvas (packs.drop 27)

def mainLayout : Layout ℕ where
  heap := mainHeap
  draw w := if isBox w then .box else .driver
  far w := (mainCanvas.area w).far (mainCanvas.area 22)
  clicked w :=
    if w = 6 then .menu
    else if 12 ≤ w ∧ w ≤ 17 then .check
    else if 19 ≤ w ∧ w ≤ 21 then .radio
    else if w = 27 then .exit
    else if w = 28 then .textinput
    else .null
  root := 0
  menu := 22
  fuel := 64

/-- The buttons, checks and radio buttons, and the line of text. -/
def mainList : List ℕ := [6, 7, 8, 9, 10, 11, 12, 13, 14, 15, 16, 17, 19, 20, 21, 28]

def menuList : List ℕ := [23, 24, 25, 26, 27]

/-- The flags with which the widgets are shown at first. -/
def mainStat (w : ℕ) : Stat where
  focused := false
  focusable := w ∈ mainList ++ menuList
  dirty := true
  hidden := w = 22

/-- In front of `select_first(root)`.  `main` does not store anything in `rad.cur`, which may
hold the address of a widget or not. -/
def mainDialog (radioCur : Option ℕ) : Dialog ℕ where
  stat := mainStat
  selected _ := false
  list := List.range widgets
  cur := 0
  inputwidget := none
  radioCur := radioCur
  buf i := if i = 49 then 0 else 32
  icur := 0

/-- What the keys begin with, behind `select_first(root)` and `display_widgets(root)`. -/
def startMain (radioCur : Option ℕ) : Option (Dialog ℕ) :=
  ((mainDialog radioCur).selectFrom mainLayout mainLayout.root).bind (Dialog.display mainLayout)

/-- `main` with these keys. -/
def runMain (radioCur : Option ℕ) (signed : Bool) (keys : List UInt8) :
    Except Halt (Dialog ℕ) :=
  match startMain radioCur with
  | none => .error .astray
  | some d => d.inputs mainLayout signed keys

/-! ## What the calls of `pack_widget` build -/

/-- The children after these calls. -/
def graftAll (kids : ℕ → List ℕ) (packs : List (ℕ × ℕ)) : ℕ → List ℕ :=
  packs.foldl (fun kids pack => graft kids pack.1 pack.2) kids

def mainKids : ℕ → List ℕ := graftAll (fun _ => []) packs

/-- The pointers that belong to such children. -/
def linkedHeap (kids : ℕ → List ℕ) (mom : ℕ → Option ℕ) : Heap ℕ := fun w =>
  { mom := mom w
    sib := (mom w).bind fun m => ((kids m).dropWhile (· != w)).tail.head?
    child := (kids w).head? }

/-- The mother of a widget that is packed once. -/
def momIn (packs : List (ℕ × ℕ)) (w : ℕ) : Option ℕ :=
  (packs.find? fun pack => pack.2 == w).map Prod.fst

section

variable {heap heap' : Heap ℕ} {kids : ℕ → List ℕ} {calls : List (ℕ × ℕ)} {p c m y : ℕ}

theorem mem_graftAll : y ∈ graftAll kids calls m ↔ y ∈ kids m ∨ (m, y) ∈ calls := by
  induction calls generalizing kids with
  | nil =>
      change y ∈ kids m ↔ _
      rw [or_iff_left List.not_mem_nil]
  | cons call calls ih =>
      change y ∈ graftAll (graft kids call.1 call.2) calls m ↔ _
      rw [ih, mem_graft, List.mem_cons, or_assoc, Prod.ext_iff]

/-- A widget that is packed below one with a smaller number is not above it. -/
theorem le_of_below (hup : ∀ w x, x ∈ kids w → w < x) (hbelow : Below kids p c) : p ≤ c := by
  induction hbelow with
  | refl => exact Nat.le_refl p
  | tail _ hmem ih => exact Nat.le_trans ih (Nat.le_of_lt (hup _ _ hmem))

/-- Calls that pack each widget once, and below one with a smaller number, build a tree. -/
theorem built_packAll (hbuilt : Built heap kids) (hup : ∀ w x, x ∈ kids w → w < x)
    (hfree : ∀ call ∈ calls, ∀ w, call.2 ∉ kids w) (hcalls : ∀ call ∈ calls, call.1 < call.2)
    (hnodup : (calls.map Prod.snd).Nodup)
    (hroom : ∀ w, (kids w).length + calls.length ≤ widgets) :
    ∃ heap', packAll heap calls = some heap' ∧ Built heap' (graftAll kids calls) := by
  induction calls generalizing heap kids with
  | nil => exact ⟨heap, rfl, hbuilt⟩
  | cons call calls ih =>
      obtain ⟨p, c⟩ := call
      have hlt : p < c := hcalls (p, c) List.mem_cons_self
      have hnew : ∀ w, c ∉ kids w := hfree (p, c) List.mem_cons_self
      obtain ⟨hc, hrest⟩ := List.nodup_cons.mp hnodup
      have hpack : packWidget widgets heap p c = some (packedHeap heap kids p c) := by
        rw [packWidget_eq hbuilt.linked.2 hnew (Nat.ne_of_gt hlt)]
        exact if_pos (Nat.le_trans (Nat.le_add_right _ _) (hroom p))
      have hbuilt' : Built (packedHeap heap kids p c) (graft kids p c) :=
        .pack hbuilt hnew (fun hbelow => Nat.not_le.mpr hlt (le_of_below hup hbelow)) hpack
      have hup' : ∀ w x, x ∈ graft kids p c w → w < x := by
        intro w x hx
        rcases mem_graft.mp hx with hx | ⟨rfl, rfl⟩
        · exact hup w x hx
        · exact hlt
      have hfree' : ∀ call ∈ calls, ∀ w, call.2 ∉ graft kids p c w := by
        intro call hcall w hmem
        rcases mem_graft.mp hmem with hmem | ⟨-, heq⟩
        · exact hfree call (List.mem_cons_of_mem _ hcall) w hmem
        · exact hc (List.mem_map.mpr ⟨call, hcall, heq⟩)
      have hroom' : ∀ w, (graft kids p c w).length + calls.length ≤ widgets := by
        intro w
        refine Nat.le_trans ?_ (hroom w)
        rw [List.length_cons, graft]
        by_cases hw : w = p
        · subst hw
          rw [Function.update_self, List.length_append, List.length_singleton]
          omega
        · rw [Function.update_of_ne hw]
          omega
      obtain ⟨heap', hall, hbuilt''⟩ := ih hbuilt' hup' hfree'
        (fun call hcall => hcalls call (List.mem_cons_of_mem _ hcall)) hrest hroom'
      refine ⟨heap', ?_, hbuilt''⟩
      rw [packAll, List.foldlM_cons, hpack]
      exact hall

/-- From a widget on. -/
theorem dropWhile_of_nodup {before after : List ℕ} {w : ℕ} (hnodup : (before ++ w :: after).Nodup) :
    (before ++ w :: after).dropWhile (· != w) = w :: after := by
  have hnot : w ∉ before := fun hmem =>
    (List.nodup_append.mp hnodup).2.2 w hmem w List.mem_cons_self rfl
  rw [List.dropWhile_append_of_pos]
  · rw [List.dropWhile_cons_of_neg (by simp)]
  · intro x hx
    rw [bne_iff_ne]
    rintro rfl
    exact hnot hx

/-- The pointers are given by the children. -/
theorem Linked.eq_linkedHeap {mom : ℕ → Option ℕ} (hlinked : Linked heap kids)
    (hforest : IsForest kids) (hmom : ∀ m y, y ∈ kids m ↔ mom y = some m) :
    heap = linkedHeap kids mom := by
  funext w
  cases hmother : mom w with
  | none =>
      have hfree : ∀ m, w ∉ kids m := fun m hmem => by
        cases hmother.symm.trans ((hmom m w).mp hmem)
      obtain ⟨hnomom, hnosib⟩ := hlinked.free hfree
      ext1
      · rw [hnomom, linkedHeap, hmother]
      · rw [hnosib, linkedHeap, hmother]
        rfl
      · exact hlinked.child w
  | some m =>
      obtain ⟨before, after, hkids⟩ := List.append_of_mem ((hmom m w).mpr hmother)
      obtain ⟨hmom', hsib⟩ := hlinked.packed hkids
      have hdrop : (kids m).dropWhile (· != w) = w :: after := by
        have hnodup := hforest.nodup m
        rw [hkids] at hnodup ⊢
        exact dropWhile_of_nodup hnodup
      ext1
      · rw [hmom', linkedHeap, hmother]
      · rw [hsib, linkedHeap, hmother, Option.bind_some, hdrop]
        rfl
      · exact hlinked.child w

theorem momIn_eq_some (hnodup : (calls.map Prod.snd).Nodup) :
    momIn calls y = some m ↔ (m, y) ∈ calls := by
  induction calls with
  | nil => exact iff_of_false nofun List.not_mem_nil
  | cons call calls ih =>
      obtain ⟨p, c⟩ := call
      obtain ⟨hc, hrest⟩ := List.nodup_cons.mp hnodup
      rw [List.mem_cons, Prod.mk.injEq, momIn]
      by_cases heq : y = c
      · subst heq
        have hnot : (m, y) ∉ calls := fun hmem => hc (List.mem_map.mpr ⟨_, hmem, rfl⟩)
        rw [List.find?_cons_of_pos (by simp), Option.map_some, Option.some_inj,
          or_iff_left hnot, and_iff_left rfl, eq_comm]
      · rw [List.find?_cons_of_neg (by simpa using Ne.symm heq), ← momIn, ih hrest,
          or_iff_right fun hboth => heq hboth.2]

end

/-- The widgets of `main` form a tree. -/
theorem built_main : packAll newWidgets packs = some mainHeap ∧ Built mainHeap mainKids := by
  have hcalls : ∀ call ∈ packs, call.1 < call.2 := by decide
  obtain ⟨heap, hall, hbuilt⟩ := built_packAll .new
    (fun _ _ hmem => absurd hmem List.not_mem_nil) (fun _ _ _ => List.not_mem_nil)
    hcalls (by decide) (fun _ => by decide)
  have hheap : mainHeap = heap := by rw [mainHeap, hall, Option.getD_some]
  rw [hheap]
  exact ⟨hall, hbuilt⟩

theorem mom_main (m y : ℕ) : y ∈ mainKids m ↔ momIn packs y = some m := by
  rw [mainKids, mem_graftAll, or_iff_right List.not_mem_nil, momIn_eq_some (by decide)]

theorem mainHeap_eq : mainHeap = linkedHeap mainKids (momIn packs) := by
  obtain ⟨hforest, hlinked⟩ := built_main.2.linked
  exact hlinked.eq_linkedHeap hforest mom_main

/-! ## What `select_first` lists -/

/-- The flags while the menu is open. -/
def shownStat : ℕ → Stat := change mainStat 22 Stat.unhide

/-- A list is made from the flags that say what is hidden and what takes the focus. -/
theorem selectRound_congr {ι : Type*} [DecidableEq ι] {heap : Heap ι} {stat stat' : ι → Stat}
    (hhidden : ∀ w, (stat' w).hidden = (stat w).hidden)
    (hfocusable : ∀ w, (stat' w).focusable = (stat w).focusable) :
    selectRound heap stat' = selectRound heap stat := by
  funext ⟨it, list⟩
  simp only [selectRound, hhidden, hfocusable]

theorem run_closed : Machine.run (selectRound (linkedHeap mainKids (momIn packs)) mainStat) 64
    (istart 0, []) = some (some mainList) := by
  decide +kernel

theorem run_opened : Machine.run (selectRound (linkedHeap mainKids (momIn packs)) shownStat) 64
    (istart 22, []) = some (some menuList) := by
  decide +kernel

/-! ## What is drawn -/

theorem run_rect : Machine.run (rectRound (linkedHeap mainKids (momIn packs)) mainLayout.far) 64
    (istart 0, []) = some (some [0, 1, 6, 2, 3, 12, 13, 22, 23, 24, 25, 26, 27]) := by
  decide +kernel

theorem root_main (m : ℕ) : 0 ∉ mainKids m := by
  rw [mom_main]
  exact fun hmem => by cases hmem

theorem lt_of_mem_main {m y : ℕ} (hmem : y ∈ mainKids m) : y < widgets := by
  have hall : ∀ call ∈ packs, call.2 < widgets := by decide
  rw [mainKids, mem_graftAll, or_iff_right List.not_mem_nil] at hmem
  exact hall (m, y) hmem

theorem lt_of_below_main {x : ℕ} (hbelow : Below mainKids 0 x) : x < widgets := by
  rcases Relation.ReflTransGen.cases_tail hbelow with rfl | ⟨m, -, hmem⟩
  · decide
  · exact lt_of_mem_main hmem

theorem kids_of_isBox {w : ℕ} (hbox : isBox w = true) : mainKids w ≠ [] := by
  have hlt : ∀ w < widgets, isBox w = true → mainKids w ≠ [] := by decide +kernel
  refine hlt w ?_ hbox
  simp only [isBox, Bool.or_eq_true, decide_eq_true_eq] at hbox
  rw [widgets]
  omega

/-- The boxes are the children of the root. -/
theorem eq_or_mem_of_kids {m y : ℕ} (hmem : y ∈ mainKids m) : m = 0 ∨ m ∈ mainKids 0 := by
  have hall : ∀ call ∈ packs, call.1 = 0 ∨ (0, call.1) ∈ packs := by decide
  simp only [mainKids, mem_graftAll, or_iff_right List.not_mem_nil] at hmem ⊢
  exact hall (m, y) hmem

theorem eq_of_last {before : List ℕ} {w : ℕ} (hkids : mainKids 0 = before ++ [w]) : w = 22 := by
  have hlast : (mainKids 0).getLast? = some 22 := by decide
  rw [hkids, List.getLast?_concat] at hlast
  exact Option.some.inj hlast

theorem spine_of_root {us : List ℕ} {levels : Spine ℕ}
    (hspine : IsSpine mainKids ((0, us) :: levels)) : us = [] ∧ levels = [] := by
  cases hspine with
  | root => exact ⟨rfl, rfl⟩
  | child _ hkids => exact absurd (hkids ▸ List.mem_append_right _ List.mem_cons_self) (root_main _)

section

variable {hidden boxes wanted : ℕ → Bool}

/-- Below the menu nothing comes behind the last widget, and behind the last child of another
box comes the next box. -/
theorem passable_leaf (hmenu : ∀ w, hidden w = true → w = 22) (hroot : boxes 0 = false)
    (hboxes : ∀ w, boxes w = true → isBox w = true) {w m : ℕ} {before ts us : List ℕ}
    {levels : Spine ℕ} (hspine : IsSpine mainKids ((m, us) :: levels))
    (hkids : mainKids m = before ++ w :: ts) (hleaf : mainKids w = []) :
    Passes mainKids hidden boxes 0 ((w, ts) :: (m, us) :: levels) ∨
      ¬ ReadsNull mainKids hidden boxes 0 ((w, ts) :: (m, us) :: levels) ∧
        ∀ x, Reaches mainKids hidden
          (rootsBehind mainKids hidden ((w, ts) :: (m, us) :: levels)) x →
            hidden x = false → ¬ wanted x := by
  have hshown : ¬ hidden w = true := by
    intro hhidden
    rw [hmenu w hhidden] at hleaf
    exact kids_of_isBox (w := 22) rfl hleaf
  have hbox : boxes w = false :=
    Bool.eq_false_iff.mpr fun hbox => kids_of_isBox (hboxes w hbox) hleaf
  have hmem : w ∈ mainKids m := hkids ▸ List.mem_append_right before List.mem_cons_self
  rw [Passes, if_neg hshown]
  by_cases hts : ts = []
  · subst hts
    have hm : m ≠ 0 := by
      rintro rfl
      rw [eq_of_last hkids] at hleaf
      exact kids_of_isBox (w := 22) rfl hleaf
    have hmroot : m ∈ mainKids 0 := (eq_or_mem_of_kids hmem).resolve_left hm
    cases hspine with
    | root hnot => exact absurd hmroot (hnot 0)
    | @child m' _ us' before' _ levels hspine hkids' =>
        obtain rfl : m' = 0 := by
          have hmem' : m ∈ mainKids m' := hkids' ▸ List.mem_append_right before' List.mem_cons_self
          rw [mom_main] at hmem' hmroot
          exact Option.some.inj (hmem'.symm.trans hmroot)
        obtain ⟨rfl, rfl⟩ := spine_of_root hspine
        cases us with
        | nil =>
            refine .inr ⟨fun hnull => hshown hnull.1, ?_⟩
            rintro x ⟨r, hr, -⟩
            rw [rootsBehind, shownKids, hleaf] at hr
            simp [later] at hr
        | cons u us =>
            refine .inl (.inr ⟨hbox, .inr ?_⟩)
            rintro ⟨-, rfl | ⟨b, -, hb, hfirst⟩⟩
            · exact hm rfl
            · have hmem' : m ∈ mainKids b := List.mem_of_mem_head? hfirst
              rw [mom_main] at hmem' hmroot
              obtain rfl : b = 0 := Option.some.inj (hmem'.symm.trans hmroot)
              rw [hroot] at hb
              cases hb
  · exact .inl (.inr ⟨hbox, .inl hts⟩)

/-- Both walks pass through the widgets of `main` if the root is not drawn. -/
theorem passable_main (hmenu : ∀ w, hidden w = true → w = 22) (hroot : boxes 0 = false)
    (hboxes : ∀ w, boxes w = true → isBox w = true) :
    Passable mainKids hidden boxes wanted 0 := by
  intro w ts levels hspine hbelow
  by_cases hleaf : mainKids w = []
  · cases hspine with
    | root hnot =>
        rcases Relation.ReflTransGen.cases_tail hbelow with rfl | ⟨m, -, hmem⟩
        · exact absurd hleaf (by decide)
        · exact absurd (mem_shownKids.mp hmem).2 (hnot m)
    | child hspine hkids => exact passable_leaf hmenu hroot hboxes hspine hkids hleaf
  by_cases hhidden : hidden w = true
  · obtain rfl := hmenu w hhidden
    -- the menu is the last child of the root
    cases hspine with
    | root hnot => exact absurd (by decide) (hnot 0)
    | @child m _ us before _ levels hspine hkids =>
        obtain rfl : m = 0 := by
          have hmem : 22 ∈ mainKids m := hkids ▸ List.mem_append_right before List.mem_cons_self
          rw [mom_main] at hmem
          exact (Option.some.inj hmem).symm
        obtain ⟨rfl, rfl⟩ := spine_of_root hspine
        have hts : ts = [] := by
          have hlast : (mainKids 0).dropWhile (· != 22) = [22] := by decide
          have hnodup : (mainKids 0).Nodup := by decide
          rw [hkids] at hnodup hlast
          rw [dropWhile_of_nodup hnodup] at hlast
          exact (List.cons.inj hlast).2
        subst hts
        refine .inr ⟨fun hnull => hleaf hnull.2.1, ?_⟩
        rintro x ⟨r, hr, -⟩
        rw [rootsBehind, shownKids, if_pos hhidden] at hr
        simp [later] at hr
  · rw [Passes, if_neg hhidden]
    exact .inl (.inl hleaf)

end

theorem displays_main {stat : ℕ → Stat} (hflags : Flags mainLayout mainStat stat) :
    ∃ it list, displayWidgets mainHeap mainLayout.draw stat 64 0 =
        some (some ⟨it, wiped stat list, list.filter fun w => mainLayout.draw w ≠ .null⟩) ∧
      ((stat 0).dirty = true → 0 ∈ list) ∧
      ((stat 0).dirty = false → ∀ w ∈ mainList, (stat w).dirty = true → w ∈ list) := by
  obtain ⟨hforest, hlinked⟩ := built_main.2.linked
  have hmenu : ∀ w, isHidden stat w = true → w = 22 := by
    intro w hhidden
    by_contra hw
    have hshown := hflags.hidden w hw
    rw [isHidden, hshown] at hhidden
    exact hw (of_decide_eq_true hhidden)
  have hshown : ∀ w, w ≠ 22 → isHidden stat w = false := fun w hw =>
    Bool.eq_false_iff.mpr fun hhidden => hw (hmenu w hhidden)
  have hparents : ∀ w, isHidden stat w = true → mainKids w ≠ [] := by
    intro w hhidden
    rw [hmenu w hhidden]
    decide
  have hfuel : ∀ ws : List ℕ, ws.Nodup → (∀ x ∈ ws, Below mainKids 0 x) → ws.length < 64 := by
    intro ws hnodup hbelow
    have hsub : ws ⊆ List.range widgets := fun x hx =>
      List.mem_range.mpr (lt_of_below_main (hbelow x hx))
    have hle := (List.subperm_of_subset hnodup hsub).length_le
    rw [List.length_range] at hle
    exact Nat.lt_of_le_of_lt hle (by decide)
  obtain ⟨it, list, hrun, hroot, hlists⟩ := exists_displayWidgets hforest hlinked root_main
    mainLayout.draw hparents hfuel
  refine ⟨it, list, hrun, hroot (hshown 0 (by decide)), fun hclean w hw hdirty => ?_⟩
  have hboxes : ∀ w, dirtyBox stat mainLayout.draw w = true → isBox w = true := by
    intro w hbox
    rw [dirtyBox, Bool.and_eq_true, beq_iff_eq] at hbox
    by_contra hnot
    have hdriver : mainLayout.draw w = .driver := if_neg hnot
    cases hdriver.symm.trans hbox.2
  have hpassable : Passable mainKids (isHidden stat) (dirtyBox stat mainLayout.draw)
      (isDirty stat) 0 :=
    passable_main hmenu (by rw [dirtyBox, isDirty, hclean]; rfl) hboxes
  have hkeeps := keeps_root hforest hlinked root_main hpassable
  have hpath : ∀ w ∈ mainList, w ≠ 22 ∧ ∃ m ∈ [1, 2, 3, 4, 5], m ∈ mainKids 0 ∧ w ∈ mainKids m := by
    decide
  obtain ⟨hw22, m, hm, hroot, hmem⟩ := hpath w hw
  have hm22 : m ≠ 22 := by
    rintro rfl
    exact absurd hm (by decide)
  have hbelow : Below (shownKids mainKids (isHidden stat)) 0 w :=
    (Below.child (mem_shownKids.mpr ⟨hshown 0 (by decide), hroot⟩)).trans
      (Below.child (mem_shownKids.mpr ⟨hshown m hm22, hmem⟩))
  obtain ⟨hbelow, hshownAll⟩ := (below_shown_iff hforest root_main).mp ⟨hbelow, hshown w hw22⟩
  exact ((hlists hkeeps).mem_iff w).mpr ⟨hbelow, hshownAll, hdirty⟩

theorem sound_main : Sound mainLayout mainStat mainList menuList where
  closed stat hflags hhidden := by
    have hstat : ∀ w, (stat w).hidden = (mainStat w).hidden := by
      intro w
      by_cases hw : w = 22
      · subst hw
        exact hhidden
      · exact hflags.hidden w hw
    change Machine.run (selectRound mainHeap stat) 64 (istart 0, []) = _
    rw [selectRound_congr hstat hflags.focusable, mainHeap_eq]
    exact run_closed
  opened stat hflags hshown := by
    have hstat : ∀ w, (stat w).hidden = (shownStat w).hidden := by
      intro w
      by_cases hw : w = 22
      · subst hw
        exact hshown
      · exact (hflags.hidden w hw).trans (congrArg Stat.hidden (change_of_ne hw).symm)
    have hfocusable : ∀ w, (stat w).focusable = (shownStat w).focusable := fun w =>
      (hflags.focusable w).trans (change_focusable (f := Stat.unhide) (fun _ => rfl) 22 w).symm
    change Machine.run (selectRound mainHeap stat) 64 (istart 22, []) = _
    rw [selectRound_congr hstat hfocusable, mainHeap_eq]
    exact run_opened
  rect := by
    change ∃ list, Machine.run (rectRound mainHeap mainLayout.far) 64 (istart 0, []) = _
    rw [mainHeap_eq]
    exact ⟨_, run_rect⟩
  displays _ hflags := displays_main hflags
  root_not_mem := by decide
  draw_ne_null w _ := by
    change (if isBox w then Draw.box else Draw.driver) ≠ Draw.null
    split_ifs <;> decide
  main_ne_nil := List.cons_ne_nil _ _
  four_lt := Nat.lt_succ_self 4
  disjoint := by decide
  main_clicked := by decide
  items_clicked := by decide

/-! ## Any keys -/

variable (radioCur : Option ℕ) (signed : Bool) (keys : List UInt8)

/-- What `select_first` leaves. -/
def selectedDialog : Dialog ℕ :=
  { mainDialog radioCur with list := mainList, stat := change mainStat 6 Stat.focus }

theorem selectFrom_main :
    (mainDialog radioCur).selectFrom mainLayout mainLayout.root =
      some (selectedDialog radioCur) := by
  have hrun := sound_main.closed mainStat ⟨fun _ => rfl, fun _ _ => rfl⟩ rfl
  exact @selectFrom_eq _ _ mainLayout (mainDialog radioCur) 6 _ _ hrun

theorem consistent_selected :
    Consistent mainLayout mainStat mainList menuList signed (selectedDialog radioCur) := by
  refine ⟨Flags.change ⟨fun _ => rfl, fun _ _ => rfl⟩ (fun _ => rfl) (.inl fun _ => rfl),
    .inl ⟨rfl, rfl⟩, Nat.zero_lt_succ 15, ?_, ?_, fun heq => absurd heq sound_main.ne, nofun, nofun,
    Nat.zero_le 49, ?_, rfl, fun i hi => absurd hi (Nat.not_lt_zero i)⟩
  · intro w _
    change (change mainStat 6 Stat.focus w).focused = true ↔ some 6 = some w
    rw [Option.some_inj]
    by_cases hw : w = 6
    · subst hw
      exact iff_of_true rfl rfl
    · rw [change_of_ne hw]
      exact iff_of_false Bool.false_ne_true (Ne.symm hw)
  · intro _ w hw hfocused
    have hne : w ≠ 6 := by
      rintro rfl
      exact absurd hw (by decide)
    change (change mainStat 6 Stat.focus w).focused = true at hfocused
    rw [change_of_ne hne] at hfocused
    cases hfocused
  · intro i _ hi
    exact if_neg (Nat.ne_of_lt hi)

theorem exists_startMain :
    ∃ d, startMain radioCur = some d ∧ Consistent mainLayout mainStat mainList menuList signed d ∧
      (d.stat mainLayout.root).dirty = false := by
  obtain ⟨d, hdisplay, hd⟩ := (consistent_selected radioCur signed).display sound_main
  refine ⟨d, ?_, hd⟩
  rw [startMain, selectFrom_main, Option.bind_some, hdisplay]

theorem runMain_eq {d : Dialog ℕ} (hstart : startMain radioCur = some d) :
    runMain radioCur signed keys = d.inputs mainLayout signed keys := by
  rw [runMain, hstart]

/-- After any keys the focus, the menu, the radio buttons and the text are consistent. -/
theorem runMain_consistent {d : Dialog ℕ} (hrun : runMain radioCur signed keys = .ok d) :
    Consistent mainLayout mainStat mainList menuList signed d := by
  obtain ⟨start, hstart, hconsistent, hclean⟩ := exists_startMain radioCur signed
  rw [runMain_eq _ _ _ hstart] at hrun
  exact hconsistent.inputs_ok sound_main keys hclean hrun

/-- The menu is opened and closed again, and two characters are typed into the line of text
below everything else. -/
theorem runMain_consistent_typed :
    ∃ d : Dialog ℕ, (d.cur, d.icur, d.buf 0, d.buf 1) = (15, 2, 0x48, 0x69) ∧
      Consistent mainLayout mainStat mainList menuList true d := by
  have htyped : (runMain none true
      ([0x20, 0x20] ++ List.replicate 15 0x6a ++ [0x20, 0x48, 0x69])).toOption.map
        (fun d => (d.cur, d.icur, d.buf 0, d.buf 1)) = some (15, 2, 0x48, 0x69) := by
    decide +kernel
  rcases hrun : runMain none true
    ([0x20, 0x20] ++ List.replicate 15 0x6a ++ [0x20, 0x48, 0x69]) with halt | d
  · rw [hrun] at htyped
    cases htyped
  · rw [hrun] at htyped
    exact ⟨d, Option.some.inj htyped, runMain_consistent none true _ hrun⟩

end Fip.Snazzy
