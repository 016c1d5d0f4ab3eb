import Fip.Snazzy.Hiding

/-!
# Keys and focus

`input` gives each key to the widget that takes text, or else moves the focus along `list`
or clicks what it is on.  A click may open the menu, and one of its items closes it again:
then `list` is made anew.  Behind each key `display_widgets` draws what is dirty.  The
characters that reach the terminal are left out.
-/

namespace Fip.Snazzy

/-- What `clicked` points to. -/
inductive Clicked where
  | null
  | check
  | radio
  | textinput
  | menu
  | exit
deriving DecidableEq

/-- Why the loop of `input` is left: for a key, or where a pointer or an index is out of
bounds. -/
inductive Halt where
  | quit
  | astray
deriving DecidableEq

/-- The widgets of a dialog, and the rounds that are enough to walk over them. -/
structure Layout (ι : Type*) where
  heap : Heap ι
  clicked : ι → Clicked
  draw : ι → Draw
  /-- The widget does not touch the menu. -/
  far : ι → Bool
  root : ι
  menu : ι
  fuel : ℕ

/-- What the keys change.  There is one `struct radiodata` and one `struct inputdata`;
`radioCur` is `none` as long as nobody has stored a widget in the former. -/
structure Dialog (ι : Type*) where
  stat : ι → Stat
  selected : ι → Bool
  list : List ι
  cur : ℕ
  inputwidget : Option ι
  radioCur : Option ι
  buf : ℕ → UInt8
  icur : ℕ

/-- The array that `buf` points to. -/
def bufSize : ℕ := 50

/-- There is a NUL in the array, where `%s` stops. -/
def terminated (buf : ℕ → UInt8) : Bool := (List.range bufSize).any fun i => buf i == 0

/-- What `c < 32` is for a `char`. -/
def isControl (signed : Bool) (c : UInt8) : Bool := c < 32 || (signed && 128 ≤ c)

namespace Stat

def soil (stat : Stat) : Stat := { stat with dirty := true }

/-- `&= ~FOCUSED` and `|= DIRTY` -/
def blur (stat : Stat) : Stat := { stat with focused := false, dirty := true }

/-- `|= DIRTY | FOCUSED` -/
def focus (stat : Stat) : Stat := { stat with focused := true, dirty := true }

def hide (stat : Stat) : Stat := { stat with hidden := true }

/-- `&= ~HIDDEN` and `|= DIRTY` -/
def unhide (stat : Stat) : Stat := { stat with hidden := false, dirty := true }

end Stat

variable {ι : Type*} [DecidableEq ι]

/-- A round of the loop of `dirty_rect`, on the iterator and the widgets that are made
dirty. -/
def rectRound (heap : Heap ι) (far : ι → Bool) :
    Iter ι × List ι → (Iter ι × List ι) ⊕ Option (List ι)
  | (it, list) =>
      match getnext heap it with
      | (none, _) => .inr (some list)
      | (some i, it) =>
          if far i then
            match nextsib heap it with
            | none => .inr none
            | some it => .inl (it, list)
          else .inl (it, list ++ [i])

/-- The flags of one widget are changed. -/
def change (stat : ι → Stat) (w : ι) (f : Stat → Stat) : ι → Stat :=
  Function.update stat w (f (stat w))

namespace Dialog

def setStat (d : Dialog ι) (w : ι) (f : Stat → Stat) : Dialog ι :=
  { d with stat := change d.stat w f }

def selectOff (d : Dialog ι) : Option (Dialog ι) :=
  d.list[d.cur]?.map fun w => d.setStat w Stat.blur

def selectWarp (d : Dialog ι) (i : ℕ) : Option (Dialog ι) :=
  d.selectOff.bind fun d =>
    d.list[i]?.map fun w => ({ d with cur := i } : Dialog ι).setStat w Stat.focus

def selectNext (d : Dialog ι) : Option (Dialog ι) :=
  if d.cur + 1 < d.list.length then d.selectWarp (d.cur + 1) else some d

def selectPrev (d : Dialog ι) : Option (Dialog ι) :=
  if d.cur ≠ 0 then d.selectWarp (d.cur - 1) else some d

/-- `select_first` -/
def selectFrom (layout : Layout ι) (d : Dialog ι) (s : ι) : Option (Dialog ι) :=
  (selectFirst layout.heap d.stat (d.list.headD s) layout.fuel s).join.map fun found =>
    { d with list := found.1, cur := 0, stat := found.2 }

def clickedCheck (d : Dialog ι) (w : ι) : Dialog ι :=
  ({ d with selected := Function.update d.selected w (!d.selected w) } : Dialog ι).setStat w
    Stat.soil

/-- There is no result where `r->cur` is no widget. -/
def clickedRadio (d : Dialog ι) (w : ι) : Option (Dialog ι) :=
  d.radioCur.map fun old =>
    (({ d with
      selected := Function.update (Function.update d.selected old false) w true
      radioCur := some w } : Dialog ι).setStat old Stat.soil).setStat w Stat.soil

/-- `dirty_rect(menu)` -/
def dirtyRect (layout : Layout ι) (d : Dialog ι) : Option (Dialog ι) :=
  (Machine.run (rectRound layout.heap layout.far) layout.fuel (istart layout.root, [])).join.map
    fun list => { d with stat := fun w => if w ∈ list then (d.stat w).soil else d.stat w }

def clickedExit (layout : Layout ι) (d : Dialog ι) : Option (Dialog ι) :=
  (selectFrom layout (d.setStat layout.menu Stat.hide) layout.root).bind (dirtyRect layout)

def clickedMenu (layout : Layout ι) (d : Dialog ι) : Option (Dialog ι) :=
  (d.setStat layout.menu Stat.unhide).selectOff.bind fun d =>
    (selectFrom layout d layout.menu).bind fun d => d.selectWarp 4

def selectClick (layout : Layout ι) (d : Dialog ι) : Option (Dialog ι) :=
  d.list[d.cur]?.bind fun w =>
    match layout.clicked w with
    | .null => some d
    | .check => some (d.clickedCheck w)
    | .radio => d.clickedRadio w
    | .textinput => some { d with inputwidget := some w }
    | .menu => clickedMenu layout d
    | .exit => clickedExit layout d

def inputText (signed : Bool) (d : Dialog ι) (w : ι) (c : UInt8) : Option (Dialog ι) :=
  if c = 0x1b ∨ c = 0x0a then some { d.setStat w Stat.soil with inputwidget := none }
  else if c = 0x08 ∧ d.icur ≠ 0 then
    some (({ d with
      icur := d.icur - 1, buf := Function.update d.buf (d.icur - 1) 32 } : Dialog ι).setStat w
        Stat.soil)
  else if isControl signed c then some d
  else if d.icur < bufSize then
    some (({ d with
      icur := d.icur + 1, buf := Function.update d.buf d.icur c } : Dialog ι).setStat w Stat.soil)
  else none

/-- What a key does. -/
def press (layout : Layout ι) (signed : Bool) (d : Dialog ι) (c : UInt8) : Option (Dialog ι) :=
  match d.inputwidget with
  | some w => d.inputText signed w c
  | none =>
      if c = 0x6a then d.selectNext
      else if c = 0x6b then d.selectPrev
      else if c = 0x20 ∨ c = 0x0a then selectClick layout d
      else some d

/-- `display_widgets(root)`.  `draw_input`, which draws what `clicked_textinput` is for, prints
the text with `%s`; there is no result where that reads past the array. -/
def display (layout : Layout ι) (d : Dialog ι) : Option (Dialog ι) :=
  (displayWidgets layout.heap layout.draw d.stat layout.fuel layout.root).join.bind fun screen =>
    if (screen.drawn.any fun w => layout.clicked w == .textinput) && !terminated d.buf then none
    else some { d with stat := screen.stat }

/-- A round of the loop of `input`. -/
def input (layout : Layout ι) (signed : Bool) (d : Dialog ι) (c : UInt8) :
    Except Halt (Dialog ι) :=
  if d.inputwidget = none ∧ (c = 0x71 ∨ c = 0x1b) then .error .quit
  else
    match (press layout signed d c).bind (display layout) with
    | none => .error .astray
    | some d => .ok d

def inputs (layout : Layout ι) (signed : Bool) (d : Dialog ι) (keys : List UInt8) :
    Except Halt (Dialog ι) :=
  keys.foldlM (input layout signed) d

end Dialog

/-! ## Flags -/

/-- The bits that are not drawn are the same. -/
structure Alike (stat stat' : ι → Stat) : Prop where
  focused : ∀ w, (stat' w).focused = (stat w).focused
  focusable : ∀ w, (stat' w).focusable = (stat w).focusable
  hidden : ∀ w, (stat' w).hidden = (stat w).hidden

/-- The flags that no key changes. -/
structure Flags (layout : Layout ι) (initial stat : ι → Stat) : Prop where
  focusable : ∀ w, (stat w).focusable = (initial w).focusable
  hidden : ∀ w ≠ layout.menu, (stat w).hidden = (initial w).hidden

/-- `select_first` lists some widgets with the menu closed, and others with the menu open:
its items, of which the fifth closes it. -/
structure Sound (layout : Layout ι) (initial : ι → Stat) (main items : List ι) : Prop where
  closed : ∀ stat, Flags layout initial stat → (stat layout.menu).hidden = true →
    Machine.run (selectRound layout.heap stat) layout.fuel (istart layout.root, []) =
      some (some main)
  opened : ∀ stat, Flags layout initial stat → (stat layout.menu).hidden = false →
    Machine.run (selectRound layout.heap stat) layout.fuel (istart layout.menu, []) =
      some (some items)
  main_ne_nil : main ≠ []
  four_lt : 4 < items.length
  disjoint : ∀ w ∈ main, w ∉ items
  main_clicked : ∀ w ∈ main, layout.clicked w ≠ .exit
  items_clicked : ∀ w ∈ items, layout.clicked w = .null ∨
    layout.clicked w = .exit ∧ items[4]? = some w
  rect : ∃ list, Machine.run (rectRound layout.heap layout.far) layout.fuel
    (istart layout.root, []) = some (some list)
  /-- The root is drawn if it is dirty, and otherwise everything in the main list that is. -/
  displays : ∀ stat, Flags layout initial stat → ∃ it list,
    displayWidgets layout.heap layout.draw stat layout.fuel layout.root =
        some (some ⟨it, wiped stat list, list.filter fun w => layout.draw w ≠ .null⟩) ∧
      ((stat layout.root).dirty = true → layout.root ∈ list) ∧
      ((stat layout.root).dirty = false → ∀ w ∈ main, (stat w).dirty = true → w ∈ list)
  root_not_mem : layout.root ∉ main
  draw_ne_null : ∀ w, layout.clicked w = .textinput → layout.draw w ≠ .null

/-- What is true between two keys. -/
structure Consistent (layout : Layout ι) (initial : ι → Stat) (main items : List ι)
    (signed : Bool) (d : Dialog ι) : Prop where
  flags : Flags layout initial d.stat
  mode : d.list = main ∧ (d.stat layout.menu).hidden = true ∨
    d.list = items ∧ (d.stat layout.menu).hidden = false
  cur : d.cur < d.list.length
  focused : ∀ w ∈ d.list, (d.stat w).focused = true ↔ d.list[d.cur]? = some w
  /-- A menu that is closed keeps the focus on the item that closed it. -/
  closed : d.list = main → ∀ w ∈ items, (d.stat w).focused = true → items[4]? = some w
  opened : d.list = items → ∀ w ∈ main, (d.stat w).focused = false
  input : ∀ w, d.inputwidget = some w →
    d.list = main ∧ d.list[d.cur]? = some w ∧ layout.clicked w = .textinput
  radio : ∀ w, layout.clicked w = .radio → d.selected w = true → d.radioCur = some w
  room : d.icur ≤ 49
  blank : ∀ i, d.icur ≤ i → i < 49 → d.buf i = 32
  nul : d.buf 49 = 0
  text : ∀ i < d.icur, isControl signed (d.buf i) = false

/-- A radio button is clicked and there is none to release, or the character takes the place
of the NUL behind the text. -/
def Astray (layout : Layout ι) (signed : Bool) (d : Dialog ι) (c : UInt8) : Prop :=
  d.inputwidget = none ∧ (c = 0x20 ∨ c = 0x0a) ∧ d.radioCur = none ∧
      (∃ w, d.list[d.cur]? = some w ∧ layout.clicked w = .radio) ∨
    d.inputwidget ≠ none ∧ isControl signed c = false ∧ d.icur = 49

section

variable {layout : Layout ι} {initial stat stat' : ι → Stat} {main items list : List ι}
  {signed : Bool} {d d' : Dialog ι} {v w x : ι} {i : ℕ} {c : UInt8} {f : Stat → Stat}

theorem change_self : change stat w f w = f (stat w) := Function.update_self ..

theorem change_of_ne (hx : x ≠ w) : change stat w f x = stat x := Function.update_of_ne hx ..

theorem change_hidden (hf : ∀ s : Stat, (f s).hidden = s.hidden) (w x : ι) :
    (change stat w f x).hidden = (stat x).hidden := by
  by_cases hx : x = w
  · subst hx
    rw [change_self, hf]
  · rw [change_of_ne hx]

theorem change_focused (hf : ∀ s : Stat, (f s).focused = s.focused) (w x : ι) :
    (change stat w f x).focused = (stat x).focused := by
  by_cases hx : x = w
  · subst hx
    rw [change_self, hf]
  · rw [change_of_ne hx]

theorem change_focusable (hf : ∀ s : Stat, (f s).focusable = s.focusable) (w x : ι) :
    (change stat w f x).focusable = (stat x).focusable := by
  by_cases hx : x = w
  · subst hx
    rw [change_self, hf]
  · rw [change_of_ne hx]

/-- Only the menu is ever hidden or shown. -/
theorem Flags.change (hflags : Flags layout initial stat)
    (hfocusable : ∀ s : Stat, (f s).focusable = s.focusable)
    (hhidden : (∀ s : Stat, (f s).hidden = s.hidden) ∨ w = layout.menu) :
    Flags layout initial (change stat w f) where
  focusable x := (change_focusable hfocusable w x).trans (hflags.focusable x)
  hidden x hx := by
    rcases hhidden with hhidden | rfl
    · exact (change_hidden hhidden w x).trans (hflags.hidden x hx)
    · rw [change_of_ne hx]
      exact hflags.hidden x hx

omit [DecidableEq ι] in
/-- A dialog with other bits that are only drawn. -/
theorem Consistent.alike (hd : Consistent layout initial main items signed d)
    (halike : Alike d.stat stat) :
    Consistent layout initial main items signed { d with stat := stat } where
  flags := ⟨fun w => (halike.focusable w).trans (hd.flags.focusable w),
    fun w hw => (halike.hidden w).trans (hd.flags.hidden w hw)⟩
  mode := by
    simp only [halike.hidden]
    exact hd.mode
  cur := hd.cur
  focused w hw := by
    rw [halike.focused]
    exact hd.focused w hw
  closed hlist w hw hfocused := hd.closed hlist w hw ((halike.focused w).symm.trans hfocused)
  opened hlist w hw := (halike.focused w).trans (hd.opened hlist w hw)
  input := hd.input
  radio := hd.radio
  room := hd.room
  blank := hd.blank
  nul := hd.nul
  text := hd.text

theorem Consistent.soil (hd : Consistent layout initial main items signed d) (w : ι) :
    Consistent layout initial main items signed (d.setStat w Stat.soil) :=
  hd.alike ⟨change_focused (f := Stat.soil) (fun _ => rfl) w,
    change_focusable (f := Stat.soil) (fun _ => rfl) w,
    change_hidden (f := Stat.soil) (fun _ => rfl) w⟩

theorem alike_wiped (stat : ι → Stat) (list : List ι) : Alike stat (wiped stat list) := by
  constructor <;> intro w <;> rw [wiped] <;> split_ifs <;> rfl

theorem terminated_of_nul {buf : ℕ → UInt8} (hnul : buf 49 = 0) : terminated buf = true := by
  rw [terminated, List.any_eq_true]
  exact ⟨49, by decide, beq_iff_eq.mpr hnul⟩

/-- Drawing changes DIRTY bits only, and leaves the root clean. -/
theorem Consistent.display (hsound : Sound layout initial main items)
    (hd : Consistent layout initial main items signed d) :
    ∃ d', d.display layout = some d' ∧ Consistent layout initial main items signed d' ∧
      (d'.stat layout.root).dirty = false := by
  obtain ⟨it, list, hrun, hroot, -⟩ := hsound.displays d.stat hd.flags
  refine ⟨{ d with stat := wiped d.stat list }, ?_, hd.alike (alike_wiped d.stat list), ?_⟩
  · rw [Dialog.display, hrun, Option.join_some, Option.bind_some, terminated_of_nul hd.nul,
      Bool.not_true, Bool.and_false, if_neg Bool.false_ne_true]
  · dsimp only
    rw [wiped]
    split_ifs with hmem
    · rfl
    · exact Bool.eq_false_iff.mpr (mt hroot hmem)

theorem dirtyRect_eq (hsound : Sound layout initial main items) (d : Dialog ι) :
    ∃ stat, d.dirtyRect layout = some { d with stat := stat } ∧ Alike d.stat stat := by
  obtain ⟨list, hrun⟩ := hsound.rect
  refine ⟨fun w => if w ∈ list then (d.stat w).soil else d.stat w, ?_, ?_⟩
  · rw [Dialog.dirtyRect, hrun, Option.join_some, Option.map_some]
  · constructor <;> intro w <;> split_ifs <;> rfl

/-! ## Moving the focus -/

/-- The flags behind `select_warp`. -/
def moved (stat : ι → Stat) (v w : ι) : ι → Stat := change (change stat v Stat.blur) w Stat.focus

theorem moved_focused (stat : ι → Stat) (v w x : ι) :
    (moved stat v w x).focused = if x = w then true else if x = v then false
      else (stat x).focused := by
  rw [moved]
  by_cases hw : x = w
  · subst hw
    rw [if_pos rfl, change_self]
    rfl
  · rw [if_neg hw, change_of_ne hw]
    by_cases hv : x = v
    · subst hv
      rw [if_pos rfl, change_self]
      rfl
    · rw [if_neg hv, change_of_ne hv]

theorem moved_hidden (stat : ι → Stat) (v w x : ι) :
    (moved stat v w x).hidden = (stat x).hidden :=
  (change_hidden (f := Stat.focus) (fun _ => rfl) w x).trans
    (change_hidden (f := Stat.blur) (fun _ => rfl) v x)

theorem Flags.moved (hflags : Flags layout initial stat) (v w : ι) :
    Flags layout initial (moved stat v w) :=
  (hflags.change (f := Stat.blur) (fun _ => rfl) (.inl fun _ => rfl)).change (f := Stat.focus)
    (fun _ => rfl) (.inl fun _ => rfl)

theorem selectOff_eq (hv : d.list[d.cur]? = some v) :
    d.selectOff = some (d.setStat v Stat.blur) := by
  rw [Dialog.selectOff, hv]
  rfl

theorem selectWarp_eq (hv : d.list[d.cur]? = some v) (hw : d.list[i]? = some w) :
    d.selectWarp i = some { d with cur := i, stat := moved d.stat v w } := by
  rw [Dialog.selectWarp, selectOff_eq hv, Option.bind_some]
  change Option.map _ d.list[i]? = _
  rw [hw]
  rfl

theorem selectFrom_eq {first : ι} {rest : List ι} {s : ι}
    (hrun : Machine.run (selectRound layout.heap d.stat) layout.fuel (istart s, []) =
      some (some (first :: rest))) :
    d.selectFrom layout s = some { d with
      list := first :: rest, cur := 0, stat := change d.stat first Stat.focus } := by
  rw [Dialog.selectFrom, selectFirst, hrun]
  rfl

/-- The two lists differ. -/
theorem Sound.ne (hsound : Sound layout initial main items) : main ≠ items := by
  intro heq
  obtain ⟨w, hw⟩ := List.exists_mem_of_ne_nil main hsound.main_ne_nil
  exact hsound.disjoint w hw (heq ▸ hw)

theorem Consistent.warp (hsound : Sound layout initial main items)
    (hd : Consistent layout initial main items signed d) (hinput : d.inputwidget = none)
    (hi : i < d.list.length) :
    ∃ d', d.selectWarp i = some d' ∧ Consistent layout initial main items signed d' := by
  obtain ⟨v, hv⟩ : ∃ v, d.list[d.cur]? = some v := ⟨_, List.getElem?_eq_getElem hd.cur⟩
  obtain ⟨w, hw⟩ : ∃ w, d.list[i]? = some w := ⟨_, List.getElem?_eq_getElem hi⟩
  have hmem := List.mem_of_getElem? hw
  refine ⟨_, selectWarp_eq hv hw, hd.flags.moved v w, ?_, hi, ?_, ?_, ?_, ?_, hd.radio, hd.room,
    hd.blank, hd.nul, hd.text⟩
  · simp only [moved_hidden]
    exact hd.mode
  · intro x hx
    dsimp only
    rw [moved_focused, hw, Option.some_inj]
    split_ifs with hxw hxv
    · exact iff_of_true rfl hxw.symm
    · exact iff_of_false id (Ne.symm hxw)
    · rw [hd.focused x hx, hv, Option.some_inj]
      exact iff_of_false (Ne.symm hxv) (Ne.symm hxw)
  · intro hlist x hx hfocused
    dsimp only at hlist hfocused
    have hxw : x ≠ w := by
      rintro rfl
      exact hsound.disjoint x (hlist ▸ hmem) hx
    rw [moved_focused, if_neg hxw] at hfocused
    split_ifs at hfocused
    exact hd.closed hlist x hx hfocused
  · intro hlist x hx
    dsimp only at hlist ⊢
    have hxw : x ≠ w := by
      rintro rfl
      exact hsound.disjoint x hx (hlist ▸ hmem)
    rw [moved_focused, if_neg hxw]
    split_ifs
    · rfl
    · exact hd.opened hlist x hx
  · intro x hx
    cases hinput.symm.trans hx

/-! ## Clicks -/

/-- The menu is opened with the focus on its fifth item. -/
theorem Consistent.clickMenu (hsound : Sound layout initial main items)
    (hd : Consistent layout initial main items signed d) (hinput : d.inputwidget = none)
    (hlist : d.list = main) (hw : d.list[d.cur]? = some w) :
    ∃ d', d.clickedMenu layout = some d' ∧ Consistent layout initial main items signed d' := by
  obtain ⟨fifth, hfifth⟩ : ∃ fifth, items[4]? = some fifth :=
    ⟨_, List.getElem?_eq_getElem hsound.four_lt⟩
  obtain ⟨first, rest, hitems⟩ : ∃ first rest, items = first :: rest :=
    List.exists_cons_of_length_pos (Nat.zero_lt_of_lt hsound.four_lt)
  have hfirst : first ∈ items := hitems ▸ List.mem_cons_self
  have hwmain : w ∈ main := hlist ▸ List.mem_of_getElem? hw
  let off := change (change d.stat layout.menu Stat.unhide) w Stat.blur
  have hoff : (d.setStat layout.menu Stat.unhide).selectOff = some { d with stat := off } :=
    selectOff_eq hw
  have hflags : Flags layout initial off :=
    (hd.flags.change (f := Stat.unhide) (fun _ => rfl) (.inr rfl)).change (f := Stat.blur)
      (fun _ => rfl) (.inl fun _ => rfl)
  have hhidden : (off layout.menu).hidden = false := by
    refine (change_hidden (f := Stat.blur) (fun _ => rfl) w layout.menu).trans ?_
    exact congrArg Stat.hidden change_self
  have hfocused : ∀ x, x ≠ w → (off x).focused = (d.stat x).focused := by
    intro x hx
    refine (congrArg Stat.focused (change_of_ne hx)).trans ?_
    exact change_focused (f := Stat.unhide) (fun _ => rfl) layout.menu x
  have hrun := hsound.opened off hflags hhidden
  rw [hitems] at hrun
  have hfrom := @selectFrom_eq _ _ layout { d with stat := off } first rest layout.menu hrun
  have hwarp := @selectWarp_eq _ _
    { d with list := first :: rest, cur := 0, stat := change off first Stat.focus } first fifth 4
    rfl (by rw [← hitems]; exact hfifth)
  refine ⟨{ d with
      list := first :: rest, cur := 4, stat := moved (change off first Stat.focus) first fifth },
    ?_, (hflags.change (f := Stat.focus) (fun _ => rfl) (.inl fun _ => rfl)).moved first fifth,
    .inr ⟨hitems.symm, ?_⟩, ?_, ?_, fun heq => absurd (hitems.trans heq).symm hsound.ne, ?_,
    ?_, hd.radio, hd.room, hd.blank, hd.nul, hd.text⟩
  · rw [Dialog.clickedMenu, hoff, Option.bind_some, hfrom, Option.bind_some, hwarp]
  · dsimp only
    rw [moved_hidden]
    exact (change_hidden (f := Stat.focus) (fun _ => rfl) first layout.menu).trans hhidden
  · dsimp only
    rw [← hitems]
    exact hsound.four_lt
  · intro x hx
    dsimp only at hx ⊢
    rw [← hitems] at hx ⊢
    rw [moved_focused, hfifth, Option.some_inj]
    split_ifs with hxfifth hxfirst
    · exact iff_of_true rfl hxfifth.symm
    · exact iff_of_false id (Ne.symm hxfifth)
    · have hxw : x ≠ w := by
        rintro rfl
        exact hsound.disjoint x hwmain hx
      rw [change_of_ne hxfirst, hfocused x hxw]
      refine iff_of_false (fun hold => ?_) (Ne.symm hxfifth)
      have hsame := hd.closed hlist x hx hold
      rw [hfifth] at hsame
      exact hxfifth (Option.some.inj hsame).symm
  · intro _ x hx
    dsimp only
    have hxitems : x ∉ items := hsound.disjoint x hx
    have hxfifth : x ≠ fifth := by
      rintro rfl
      exact hxitems (List.mem_of_getElem? hfifth)
    have hxfirst : x ≠ first := by
      rintro rfl
      exact hxitems hfirst
    rw [moved_focused, if_neg hxfifth, if_neg hxfirst, change_of_ne hxfirst]
    by_cases hxw : x = w
    · subst hxw
      exact congrArg Stat.focused change_self
    · rw [hfocused x hxw, ← Bool.not_eq_true, hd.focused x (hlist ▸ hx), hw, Option.some_inj]
      exact Ne.symm hxw
  · intro x hx
    cases hinput.symm.trans hx

/-- The menu is closed, and the focus goes to the first widget. -/
theorem Consistent.clickExit (hsound : Sound layout initial main items)
    (hd : Consistent layout initial main items signed d) (hinput : d.inputwidget = none)
    (hlist : d.list = items) (hw : d.list[d.cur]? = some w) (hexit : items[4]? = some w) :
    ∃ d', d.clickedExit layout = some d' ∧ Consistent layout initial main items signed d' := by
  obtain ⟨first, rest, hmain⟩ := List.exists_cons_of_ne_nil hsound.main_ne_nil
  let closed := change d.stat layout.menu Stat.hide
  have hflags : Flags layout initial closed :=
    hd.flags.change (f := Stat.hide) (fun _ => rfl) (.inr rfl)
  have hhidden : (closed layout.menu).hidden = true := congrArg Stat.hidden change_self
  have hfocused : ∀ x, (closed x).focused = (d.stat x).focused :=
    change_focused (f := Stat.hide) (fun _ => rfl) layout.menu
  have hrun := hsound.closed closed hflags hhidden
  rw [hmain] at hrun
  have hfrom := @selectFrom_eq _ _ layout { d with stat := closed } first rest layout.root hrun
  suffices hback : Consistent layout initial main items signed { d with
      list := first :: rest, cur := 0, stat := change closed first Stat.focus } by
    obtain ⟨stat, hrect, halike⟩ := dirtyRect_eq hsound { d with
      list := first :: rest, cur := 0, stat := change closed first Stat.focus }
    refine ⟨_, ?_, hback.alike halike⟩
    rw [Dialog.clickedExit]
    exact (congrArg (Option.bind · (Dialog.dirtyRect layout)) hfrom).trans hrect
  refine ⟨hflags.change (f := Stat.focus) (fun _ => rfl) (.inl fun _ => rfl),
    .inl ⟨hmain.symm,
      (change_hidden (f := Stat.focus) (fun _ => rfl) first layout.menu).trans hhidden⟩,
    Nat.zero_lt_succ _, ?_, ?_, fun heq => absurd (hmain.trans heq) hsound.ne, ?_, hd.radio,
    hd.room, hd.blank, hd.nul, hd.text⟩
  · intro x hx
    dsimp only
    rw [List.getElem?_cons_zero, Option.some_inj]
    by_cases hxfirst : x = first
    · subst hxfirst
      rw [change_self]
      exact iff_of_true rfl rfl
    · rw [change_of_ne hxfirst, hfocused, hd.opened hlist x (hmain ▸ hx)]
      exact iff_of_false Bool.false_ne_true (Ne.symm hxfirst)
  · intro _ x hx hold
    dsimp only at hold
    have hxfirst : x ≠ first := by
      rintro rfl
      exact hsound.disjoint x (hmain ▸ List.mem_cons_self) hx
    rw [change_of_ne hxfirst, hfocused, hd.focused x (hlist ▸ hx), hw] at hold
    rw [hexit, hold]
  · intro x hx
    cases hinput.symm.trans hx

/-- A radio button is clicked where `rad.cur` is no widget. -/
def ClicksStray (layout : Layout ι) (d : Dialog ι) : Prop :=
  d.radioCur = none ∧ ∃ w, d.list[d.cur]? = some w ∧ layout.clicked w = .radio

theorem Consistent.clickRadio (hd : Consistent layout initial main items signed d)
    (hsome : d.radioCur ≠ none) (w : ι) :
    ∃ d', d.clickedRadio w = some d' ∧ Consistent layout initial main items signed d' := by
  obtain ⟨old, hold⟩ := Option.ne_none_iff_exists'.mp hsome
  have hreleased : Consistent layout initial main items signed { d with
      selected := Function.update (Function.update d.selected old false) w true
      radioCur := some w } := by
    refine ⟨hd.flags, hd.mode, hd.cur, hd.focused, hd.closed, hd.opened, hd.input, ?_, hd.room,
      hd.blank, hd.nul, hd.text⟩
    intro x hx hselected
    dsimp only at hselected ⊢
    by_cases hxw : x = w
    · rw [hxw]
    · rw [Function.update_of_ne hxw] at hselected
      by_cases hxold : x = old
      · subst hxold
        rw [Function.update_self] at hselected
        cases hselected
      · rw [Function.update_of_ne hxold] at hselected
        have hcur := hd.radio x hx hselected
        rw [hold] at hcur
        exact absurd (Option.some.inj hcur).symm hxold
  refine ⟨_, ?_, (hreleased.soil old).soil w⟩
  rw [Dialog.clickedRadio, hold]
  rfl

theorem Consistent.clickCheck (hd : Consistent layout initial main items signed d)
    (hw : layout.clicked w = .check) :
    Consistent layout initial main items signed (d.clickedCheck w) := by
  have htoggled : Consistent layout initial main items signed
      { d with selected := Function.update d.selected w (!d.selected w) } := by
    refine ⟨hd.flags, hd.mode, hd.cur, hd.focused, hd.closed, hd.opened, hd.input, ?_, hd.room,
      hd.blank, hd.nul, hd.text⟩
    intro x hx hselected
    have hxw : x ≠ w := by
      rintro rfl
      cases hw.symm.trans hx
    dsimp only at hselected
    rw [Function.update_of_ne hxw] at hselected
    exact hd.radio x hx hselected
  exact htoggled.soil w

/-- What can be clicked is in the main list, but for the item that closes the menu. -/
theorem Consistent.list_eq_main (hsound : Sound layout initial main items)
    (hd : Consistent layout initial main items signed d) (hw : d.list[d.cur]? = some w)
    (hnull : layout.clicked w ≠ .null) (hexit : layout.clicked w ≠ .exit) : d.list = main := by
  rcases hd.mode with ⟨hlist, -⟩ | ⟨hlist, -⟩
  · exact hlist
  · rcases hsound.items_clicked w (hlist ▸ List.mem_of_getElem? hw) with hclicked | ⟨hclicked, -⟩
    · exact absurd hclicked hnull
    · exact absurd hclicked hexit

theorem Consistent.list_eq_items (hsound : Sound layout initial main items)
    (hd : Consistent layout initial main items signed d) (hw : d.list[d.cur]? = some w)
    (hexit : layout.clicked w = .exit) : d.list = items ∧ items[4]? = some w := by
  rcases hd.mode with ⟨hlist, -⟩ | ⟨hlist, -⟩
  · exact absurd hexit (hsound.main_clicked w (hlist ▸ List.mem_of_getElem? hw))
  · rcases hsound.items_clicked w (hlist ▸ List.mem_of_getElem? hw) with hnull | ⟨-, hfifth⟩
    · cases hexit.symm.trans hnull
    · exact ⟨hlist, hfifth⟩

theorem Consistent.click (hsound : Sound layout initial main items)
    (hd : Consistent layout initial main items signed d) (hinput : d.inputwidget = none) :
    ClicksStray layout d ∧ d.selectClick layout = none ∨
      ¬ClicksStray layout d ∧ ∃ d', d.selectClick layout = some d' ∧
        Consistent layout initial main items signed d' := by
  obtain ⟨w, hw⟩ : ∃ w, d.list[d.cur]? = some w := ⟨_, List.getElem?_eq_getElem hd.cur⟩
  have hstray : layout.clicked w ≠ .radio → ¬ClicksStray layout d := by
    rintro hne ⟨-, v, hv, hradio⟩
    rw [hw] at hv
    cases hv
    exact hne hradio
  have hmain := hd.list_eq_main hsound hw
  rw [Dialog.selectClick, hw, Option.bind_some]
  cases hclicked : layout.clicked w with
  | null =>
      rw [hclicked] at hstray
      exact .inr ⟨hstray nofun, d, rfl, hd⟩
  | check =>
      rw [hclicked] at hstray
      exact .inr ⟨hstray nofun, _, rfl, hd.clickCheck hclicked⟩
  | radio =>
      by_cases hnone : d.radioCur = none
      · refine .inl ⟨⟨hnone, w, hw, hclicked⟩, ?_⟩
        dsimp only
        rw [Dialog.clickedRadio, hnone, Option.map_none]
      · exact .inr ⟨fun hstray => hnone hstray.1, hd.clickRadio hnone w⟩
  | textinput =>
      rw [hclicked] at hstray hmain
      refine .inr ⟨hstray nofun, _, rfl, hd.flags, hd.mode, hd.cur, hd.focused, hd.closed,
        hd.opened, ?_, hd.radio, hd.room, hd.blank, hd.nul, hd.text⟩
      intro x hx
      cases hx
      exact ⟨hmain nofun nofun, hw, hclicked⟩
  | menu =>
      rw [hclicked] at hstray hmain
      exact .inr ⟨hstray nofun, hd.clickMenu hsound hinput (hmain nofun nofun) hw⟩
  | exit =>
      rw [hclicked] at hstray
      obtain ⟨hlist, hfifth⟩ := hd.list_eq_items hsound hw hclicked
      exact .inr ⟨hstray nofun, hd.clickExit hsound hinput hlist hw hfifth⟩

/-! ## Keys -/

theorem isControl_of_lt (hc : c < 32) : isControl signed c = true := by
  rw [isControl, Bool.or_eq_true]
  exact .inl (decide_eq_true hc)

omit [DecidableEq ι] in
/-- Only the text is changed. -/
theorem Consistent.withText (hd : Consistent layout initial main items signed d) {icur : ℕ}
    {buf : ℕ → UInt8} (hroom : icur ≤ 49) (hblank : ∀ i, icur ≤ i → i < 49 → buf i = 32)
    (hnul : buf 49 = 0) (htext : ∀ i < icur, isControl signed (buf i) = false) :
    Consistent layout initial main items signed { d with icur := icur, buf := buf } :=
  ⟨hd.flags, hd.mode, hd.cur, hd.focused, hd.closed, hd.opened, hd.input, hd.radio, hroom, hblank,
    hnul, htext⟩

/-- The fiftieth character. -/
def Dialog.filled (d : Dialog ι) (w : ι) (c : UInt8) : Dialog ι :=
  ({ d with icur := 50, buf := Function.update d.buf 49 c } : Dialog ι).setStat w Stat.soil

omit [DecidableEq ι] in
/-- There is no NUL left. -/
theorem Consistent.terminated_filled (hd : Consistent layout initial main items signed d)
    (hfull : d.icur = 49) (hc : isControl signed c = false) :
    terminated (Function.update d.buf 49 c) = false := by
  have hne : ∀ e : UInt8, isControl signed e = false → e ≠ 0 := by
    rintro e he rfl
    cases he
  rw [terminated, List.any_eq_false]
  intro i hi
  rw [beq_iff_eq]
  have hlt : i < 50 := List.mem_range.mp hi
  by_cases hlast : i = 49
  · rw [hlast, Function.update_self]
    exact hne c hc
  · rw [Function.update_of_ne hlast]
    exact hne _ (hd.text i (by omega))

/-- The text is drawn, and `%s` reads past the array. -/
theorem Consistent.display_filled (hsound : Sound layout initial main items)
    (hd : Consistent layout initial main items signed d)
    (hclean : (d.stat layout.root).dirty = false) (hw : w ∈ main)
    (hclicked : layout.clicked w = .textinput) (hfull : d.icur = 49)
    (hc : isControl signed c = false) : (d.filled w c).display layout = none := by
  have hne : layout.root ≠ w := by
    rintro rfl
    exact hsound.root_not_mem hw
  have hroot : (change d.stat w Stat.soil layout.root).dirty = false := by
    rw [change_of_ne hne]
    exact hclean
  obtain ⟨it, list, hrun, -, hall⟩ :=
    hsound.displays (change d.stat w Stat.soil) (hd.soil w).flags
  have hdirty : (change d.stat w Stat.soil w).dirty = true := congrArg Stat.dirty change_self
  have hmem : w ∈ list.filter fun w => layout.draw w ≠ .null := by
    rw [List.mem_filter]
    exact ⟨hall hroot w hw hdirty, decide_eq_true (hsound.draw_ne_null w hclicked)⟩
  have hany : ((list.filter fun w => layout.draw w ≠ .null).any fun w =>
      layout.clicked w == .textinput) = true :=
    List.any_eq_true.mpr ⟨w, hmem, beq_iff_eq.mpr hclicked⟩
  rw [Dialog.display]
  change ((displayWidgets layout.heap layout.draw (change d.stat w Stat.soil) layout.fuel
    layout.root).join.bind _) = none
  rw [hrun, Option.join_some, Option.bind_some]
  refine if_pos ?_
  rw [Bool.and_eq_true]
  exact ⟨hany, congrArg (!·) (hd.terminated_filled hfull hc)⟩

/-- A key for the text. -/
theorem Consistent.type (hd : Consistent layout initial main items signed d) (w : ι) (c : UInt8) :
    (isControl signed c = false ∧ d.icur = 49) ∧
        d.inputText signed w c = some (d.filled w c) ∨
      ¬(isControl signed c = false ∧ d.icur = 49) ∧ ∃ d', d.inputText signed w c = some d' ∧
        Consistent layout initial main items signed d' := by
  have hcontrol : isControl signed c = true → ¬(isControl signed c = false ∧ d.icur = 49) :=
    fun htrue hboth => Bool.false_ne_true (hboth.1.symm.trans htrue)
  rw [Dialog.inputText]
  by_cases hleave : c = 0x1b ∨ c = 0x0a
  · have hlt : c < 32 := by rcases hleave with rfl | rfl <;> decide
    rw [if_pos hleave]
    refine .inr ⟨hcontrol (isControl_of_lt hlt), _, rfl, ?_⟩
    have hsoiled := hd.soil w
    refine ⟨hsoiled.flags, hsoiled.mode, hd.cur, hsoiled.focused, hsoiled.closed, hsoiled.opened,
      ?_, hd.radio, hd.room, hd.blank, hd.nul, hd.text⟩
    intro x hx
    cases hx
  rw [if_neg hleave]
  by_cases hback : c = 0x08 ∧ d.icur ≠ 0
  · have hlt : c < 32 := by rw [hback.1]; decide
    rw [if_pos hback]
    refine .inr ⟨hcontrol (isControl_of_lt hlt), _, rfl, Consistent.soil ?_ w⟩
    have hpos := Nat.pos_of_ne_zero hback.2
    have hroom := hd.room
    refine hd.withText (Nat.le_trans (Nat.sub_le _ _) hroom) ?_ ?_ ?_
    · intro i hi hi49
      by_cases hlast : i = d.icur - 1
      · rw [hlast, Function.update_self]
      · rw [Function.update_of_ne hlast]
        exact hd.blank i (by omega) hi49
    · rw [Function.update_of_ne (by omega)]
      exact hd.nul
    · intro i hi
      rw [Function.update_of_ne (Nat.ne_of_lt hi)]
      exact hd.text i (Nat.lt_of_lt_of_le hi (Nat.sub_le _ _))
  rw [if_neg hback]
  by_cases hignore : isControl signed c = true
  · rw [if_pos hignore]
    exact .inr ⟨hcontrol hignore, d, rfl, hd⟩
  have hroom := hd.room
  have hstore : d.icur < bufSize := Nat.lt_succ_of_le hroom
  rw [if_neg hignore, if_pos hstore]
  by_cases hless : d.icur < 49
  · refine .inr ⟨fun hboth => Nat.ne_of_lt hless hboth.2, _, rfl, Consistent.soil ?_ w⟩
    refine hd.withText hless ?_ ?_ ?_
    · intro i hi hi49
      rw [Function.update_of_ne (Nat.ne_of_gt hi)]
      exact hd.blank i (Nat.le_of_succ_le hi) hi49
    · rw [Function.update_of_ne (Nat.ne_of_gt hless)]
      exact hd.nul
    · intro i hi
      by_cases hlast : i = d.icur
      · rw [hlast, Function.update_self]
        exact Bool.eq_false_iff.mpr hignore
      · rw [Function.update_of_ne hlast]
        exact hd.text i (Nat.lt_of_le_of_ne (Nat.le_of_lt_succ hi) hlast)
  · have hfull : d.icur = 49 := Nat.le_antisymm hroom (Nat.not_lt.mp hless)
    refine .inl ⟨⟨Bool.not_eq_true _ ▸ hignore, hfull⟩, ?_⟩
    rw [Dialog.filled, hfull]

/-- Between two keys everything is consistent again, unless one of the two things happens that
lead astray. -/
theorem Consistent.press (hsound : Sound layout initial main items)
    (hd : Consistent layout initial main items signed d)
    (hclean : (d.stat layout.root).dirty = false) (c : UInt8) :
    Astray layout signed d c ∧ (d.press layout signed c).bind (Dialog.display layout) = none ∨
      ¬Astray layout signed d c ∧ ∃ d', d.press layout signed c = some d' ∧
        Consistent layout initial main items signed d' := by
  rw [Dialog.press]
  cases hinput : d.inputwidget with
  | some w =>
      have hiff : Astray layout signed d c ↔ isControl signed c = false ∧ d.icur = 49 := by
        simp [Astray, hinput]
      rw [hiff]
      refine (hd.type w c).imp_left ?_
      rintro ⟨⟨hc, hfull⟩, htype⟩
      obtain ⟨hlist, hw, hclicked⟩ := hd.input w hinput
      refine ⟨⟨hc, hfull⟩, ?_⟩
      dsimp only
      rw [htype, Option.bind_some]
      exact hd.display_filled hsound hclean (hlist ▸ List.mem_of_getElem? hw) hclicked hfull hc
  | none =>
      have hiff : Astray layout signed d c ↔
          (c = 0x20 ∨ c = 0x0a) ∧ ClicksStray layout d := by
        simp [Astray, ClicksStray, hinput]
      rw [hiff]
      dsimp only
      split_ifs with hnext hprev hclick
      · refine .inr ⟨?_, ?_⟩
        · subst hnext
          rintro ⟨hclick, -⟩
          revert hclick
          decide
        · rw [Dialog.selectNext]
          split_ifs with hlt
          · exact hd.warp hsound hinput hlt
          · exact ⟨d, rfl, hd⟩
      · refine .inr ⟨?_, ?_⟩
        · subst hprev
          rintro ⟨hclick, -⟩
          revert hclick
          decide
        · rw [Dialog.selectPrev]
          split_ifs with hne
          · exact hd.warp hsound hinput (Nat.lt_of_le_of_lt (Nat.sub_le _ _) hd.cur)
          · exact ⟨d, rfl, hd⟩
      · rcases hd.click hsound hinput with ⟨hstray, hnone⟩ | ⟨hnot, hsome⟩
        · refine .inl ⟨⟨hclick, hstray⟩, ?_⟩
          rw [hnone, Option.bind_none]
        · exact .inr ⟨fun hboth => hnot hboth.2, hsome⟩
      · exact .inr ⟨fun hboth => hclick hboth.1, d, rfl, hd⟩

/-- The key ends the loop of `input`. -/
def Quits (d : Dialog ι) (c : UInt8) : Prop := d.inputwidget = none ∧ (c = 0x71 ∨ c = 0x1b)

/-- Why the loop is left at a key. -/
def Ends (layout : Layout ι) (signed : Bool) (halt : Halt) (d : Dialog ι) (c : UInt8) : Prop :=
  match halt with
  | .quit => Quits d c
  | .astray => Astray layout signed d c

omit [DecidableEq ι] in
theorem Quits.not_astray (hquits : Quits d c) : ¬Astray layout signed d c := by
  obtain ⟨hinput, hkey⟩ := hquits
  rintro (⟨-, hclick, -⟩ | ⟨hsome, -⟩)
  · rcases hkey with rfl | rfl <;> exact absurd hclick (by decide)
  · exact hsome hinput

/-- A round of the loop leaves it where it has to, and otherwise comes round consistent. -/
theorem Consistent.input_cases (hsound : Sound layout initial main items)
    (hd : Consistent layout initial main items signed d)
    (hclean : (d.stat layout.root).dirty = false) (c : UInt8) :
    (∃ halt, d.input layout signed c = .error halt ∧
        ∀ halt', Ends layout signed halt' d c ↔ halt' = halt) ∨
      ∃ d', d.input layout signed c = .ok d' ∧ (∀ halt, ¬Ends layout signed halt d c) ∧
        Consistent layout initial main items signed d' ∧
          (d'.stat layout.root).dirty = false := by
  rw [Dialog.input]
  by_cases hkey : d.inputwidget = none ∧ (c = 0x71 ∨ c = 0x1b)
  · have hquits : Quits d c := hkey
    refine .inl ⟨.quit, by rw [if_pos hkey], ?_⟩
    rintro (_ | _)
    · exact iff_of_true hquits rfl
    · exact iff_of_false hquits.not_astray nofun
  have hquits : ¬Quits d c := hkey
  rw [if_neg hkey]
  rcases hd.press hsound hclean c with ⟨hastray, hnone⟩ | ⟨hnot, d', hsome, hd'⟩
  · refine .inl ⟨.astray, by rw [hnone], ?_⟩
    rintro (_ | _)
    · exact iff_of_false hquits nofun
    · exact iff_of_true hastray rfl
  · obtain ⟨d'', hdisplay, hd''⟩ := hd'.display hsound
    refine .inr ⟨d'', by rw [hsome, Option.bind_some, hdisplay], ?_, hd''⟩
    rintro (_ | _)
    · exact hquits
    · exact hnot

theorem inputs_cons {keys : List UInt8} :
    d.inputs layout signed (c :: keys) =
      d.input layout signed c >>= fun d => d.inputs layout signed keys := rfl

/-- The loop goes on as long as no key ends it. -/
theorem Consistent.inputs_ok (hsound : Sound layout initial main items)
    (keys : List UInt8) (hd : Consistent layout initial main items signed d)
    (hclean : (d.stat layout.root).dirty = false)
    (hinputs : d.inputs layout signed keys = .ok d') :
    Consistent layout initial main items signed d' := by
  induction keys generalizing d with
  | nil =>
      cases hinputs
      exact hd
  | cons c keys ih =>
      rw [inputs_cons] at hinputs
      rcases hd.input_cases hsound hclean c with ⟨halt, herror, -⟩ | ⟨d₁, hok, -, hd₁, hclean₁⟩
      · rw [herror] at hinputs
        cases hinputs
      · rw [hok] at hinputs
        exact ih hd₁ hclean₁ hinputs

/-- It is left at the first key that ends it. -/
theorem Consistent.inputs_error_iff (hsound : Sound layout initial main items)
    (keys : List UInt8) (hd : Consistent layout initial main items signed d)
    (hclean : (d.stat layout.root).dirty = false) (halt : Halt) :
    d.inputs layout signed keys = .error halt ↔
      ∃ front c back d', keys = front ++ c :: back ∧
        d.inputs layout signed front = .ok d' ∧ Ends layout signed halt d' c := by
  induction keys generalizing d with
  | nil =>
      refine iff_of_false nofun ?_
      rintro ⟨front, c, back, d', heq, -⟩
      exact List.append_ne_nil_of_right_ne_nil front (List.cons_ne_nil c back) heq.symm
  | cons c keys ih =>
      have hsplit : (∃ front c' back d', c :: keys = front ++ c' :: back ∧
          d.inputs layout signed front = .ok d' ∧ Ends layout signed halt d' c') ↔
          Ends layout signed halt d c ∨ ∃ front c' back d', keys = front ++ c' :: back ∧
            d.inputs layout signed (c :: front) = .ok d' ∧
              Ends layout signed halt d' c' := by
        constructor
        · rintro ⟨_ | ⟨c₁, front⟩, c', back, d', heq, hfront, hends⟩
          · cases heq
            cases hfront
            exact .inl hends
          · cases heq
            exact .inr ⟨front, c', back, d', rfl, hfront, hends⟩
        · rintro (hends | ⟨front, c', back, d', rfl, hfront, hends⟩)
          · exact ⟨[], c, keys, d, rfl, rfl, hends⟩
          · exact ⟨c :: front, c', back, d', rfl, hfront, hends⟩
      rw [hsplit]
      simp only [inputs_cons]
      rcases hd.input_cases hsound hclean c with ⟨halt', herror, honly⟩ |
        ⟨d₁, hok, hnot, hd₁, hclean₁⟩
      · rw [herror, honly]
        change Except.error halt' = Except.error halt ↔ _
        constructor
        · rintro ⟨⟩
          exact .inl rfl
        · rintro (rfl | ⟨_, _, _, _, _, hfront, _⟩)
          · rfl
          · cases hfront
      · rw [hok]
        exact (ih hd₁ hclean₁).trans (or_iff_right (hnot halt)).symm

end

end Fip.Snazzy
