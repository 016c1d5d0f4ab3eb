import Fip.Snazzy.Pruning
import Mathlib.Data.List.Perm.Basic

/-!
# What hiding a widget prunes

`select_first` and `display_widgets` are walks with the flags of the widgets.  They list
and draw what they should exactly if no walk leaves out any of it, and if there is
room for it in `list`.
-/

namespace Fip.Snazzy

open Forest

variable {ι : Type*} [DecidableEq ι]

def isHidden (stat : ι → Stat) (x : ι) : Bool := (stat x).hidden

def isFocusable (stat : ι → Stat) (x : ι) : Bool := (stat x).focusable

def isDirty (stat : ι → Stat) (x : ι) : Bool := (stat x).dirty

/-- After these widgets are drawn. -/
def wiped (stat : ι → Stat) (list : List ι) : ι → Stat :=
  fun x => if x ∈ list then { stat x with dirty := false } else stat x

/-- The boxes that `display_widgets` draws. -/
def dirtyBox (stat : ι → Stat) (draw : ι → Draw) (x : ι) : Bool :=
  isDirty stat x && draw x == .box

/-- `select_first` lists the focusable widgets that are shown. -/
def Selects (heap : Heap ι) (kids : ι → List ι) (stat : ι → Stat) (first s : ι) : Prop :=
  ∃ fuel list stat', selectFirst heap stat first fuel s = some (some (list, stat')) ∧
    Lists kids (isHidden stat) (isFocusable stat) s list

/-- `display_widgets` draws the dirty widgets that are shown, as far as there is
something to call, and clears their flag. -/
def Displays (heap : Heap ι) (kids : ι → List ι) (stat : ι → Stat) (draw : ι → Draw) (s : ι) :
    Prop :=
  ∃ fuel screen list, displayWidgets heap draw stat fuel s = some (some screen) ∧
    Lists kids (isHidden stat) (isDirty stat) s list ∧
    screen.drawn = list.filter (fun x => draw x ≠ .null) ∧ screen.stat = wiped stat list

/-- The widgets of these that a walk does something with. -/
def worked (hidden wanted : ι → Bool) (ws : List ι) : List ι :=
  ws.filter fun x => !hidden x && wanted x

section

variable {heap : Heap ι} {stat : ι → Stat} {hidden wanted : ι → Bool} {w : ι} {ws : List ι}

omit [DecidableEq ι]

theorem worked_hidden (hhidden : hidden w = true) :
    worked hidden wanted (w :: ws) = worked hidden wanted ws := by
  rw [worked, List.filter_cons_of_neg]
  · rfl
  · rw [hhidden]
    exact Bool.false_ne_true

theorem worked_wanted (hshown : hidden w = false) (hwanted : wanted w = true) :
    worked hidden wanted (w :: ws) = w :: worked hidden wanted ws := by
  rw [worked, List.filter_cons_of_pos]
  · rfl
  · rw [hshown, hwanted]
    rfl

theorem worked_unwanted (hwanted : wanted w = false) :
    worked hidden wanted (w :: ws) = worked hidden wanted ws := by
  rw [worked, List.filter_cons_of_neg]
  · rfl
  · rw [hwanted, Bool.and_false]
    exact Bool.false_ne_true

theorem mem_worked {x : ι} :
    x ∈ worked hidden wanted ws ↔ x ∈ ws ∧ hidden x = false ∧ wanted x = true := by
  rw [worked, List.mem_filter, Bool.and_eq_true, Bool.not_eq_true']

end

section

variable {heap : Heap ι} {stat : ι → Stat} {hidden boxes : ι → Bool} {draw : ι → Draw} {w : ι}
  {ws list : List ι} {iobj : Option ι} {it : Iter ι} {ends : Bool}

theorem successor_hidden (hhidden : hidden w = true) :
    successor heap hidden boxes iobj w = nextsib heap ⟨advance heap iobj w, iobj⟩ :=
  if_pos hhidden

theorem successor_shown (hshown : hidden w = false) :
    successor heap hidden boxes iobj w =
      if boxes w then some ⟨(heap w).child, (heap w).child⟩
      else some ⟨advance heap iobj w, iobj⟩ := by
  rw [successor, if_neg]
  rw [hshown]
  exact Bool.false_ne_true

/-- Only behind a hidden widget a walk gets lost. -/
theorem hidden_of_lost (hlost : successor heap hidden boxes iobj w = none) :
    hidden w = true := by
  by_contra hnot
  rw [successor_shown (Bool.eq_false_iff.mpr hnot)] at hlost
  split at hlost
  · cases hlost
  · cases hlost

/-! ## The loop of `select_first` -/

theorem selectRound_hidden (hhidden : isHidden stat w = true) :
    selectRound heap stat (⟨some w, iobj⟩, list) =
      match nextsib heap ⟨advance heap iobj w, iobj⟩ with
      | none => .inr none
      | some it => .inl (it, list) := by
  rw [isHidden] at hhidden
  rw [selectRound, getnext]
  dsimp only
  exact if_pos hhidden

theorem selectRound_shown (hshown : isHidden stat w = false) :
    selectRound heap stat (⟨some w, iobj⟩, list) =
      if isFocusable stat w then
        if list.length < listz then .inl (⟨advance heap iobj w, iobj⟩, list ++ [w])
        else .inr none
      else .inl (⟨advance heap iobj w, iobj⟩, list) := by
  rw [isHidden] at hshown
  rw [selectRound, getnext]
  dsimp only
  rw [if_neg (Bool.eq_false_iff.mp hshown), isFocusable]

/-- What there is to select on a trail, if it comes to an end and there is room. -/
def selected (stat : ι → Stat) (ends : Bool) (list ws : List ι) : Option (List ι) :=
  let all := list ++ worked (isHidden stat) (isFocusable stat) ws
  if ends = true ∧ all.length ≤ listz then some all else none

section

omit [DecidableEq ι]

theorem selected_nil (hlist : list.length ≤ listz) : selected stat true list [] = some list := by
  rw [selected, worked, List.filter_nil, List.append_nil]
  exact if_pos ⟨rfl, hlist⟩

theorem selected_lost : selected stat false list ws = none := by
  rw [selected]
  exact if_neg fun hboth => Bool.false_ne_true hboth.1

theorem selected_wanted (hshown : isHidden stat w = false)
    (hwanted : isFocusable stat w = true) :
    selected stat ends list (w :: ws) = selected stat ends (list ++ [w]) ws := by
  rw [selected, selected, worked_wanted hshown hwanted, List.append_cons]

theorem selected_of_full (hfull : ¬ list.length < listz) (hshown : isHidden stat w = false)
    (hwanted : isFocusable stat w = true) : selected stat ends list (w :: ws) = none := by
  apply if_neg
  rintro ⟨_, hroom⟩
  rw [worked_wanted hshown hwanted, List.length_append, List.length_cons] at hroom
  omega

end

theorem run_selectRound
    (htrail : Trail heap (isHidden stat) (fun _ => false) it ws ends)
    (hlist : list.length ≤ listz) :
    ∃ fuel, Machine.run (selectRound heap stat) fuel (it, list) =
      some (selected stat ends list ws) := by
  induction htrail generalizing list with
  | done =>
      refine ⟨1, ?_⟩
      rw [selected_nil hlist]
      rfl
  | @lost iobj w hlost =>
      have hhidden : isHidden stat w = true := hidden_of_lost hlost
      rw [successor_hidden hhidden] at hlost
      refine ⟨1, ?_⟩
      rw [Machine.run, selectRound_hidden hhidden, hlost, selected_lost]
  | @step iobj w it ws ends hnext htrail ih =>
      cases hhidden : isHidden stat w with
      | true =>
          rw [successor_hidden hhidden] at hnext
          obtain ⟨fuel, hrun⟩ := ih hlist
          refine ⟨fuel + 1, ?_⟩
          rw [Machine.run, selectRound_hidden hhidden, hnext, selected, worked_hidden hhidden]
          exact hrun
      | false =>
          rw [successor_shown hhidden] at hnext
          cases hnext
          cases hwanted : isFocusable stat w with
          | false =>
              obtain ⟨fuel, hrun⟩ := ih hlist
              refine ⟨fuel + 1, ?_⟩
              rw [Machine.run, selectRound_shown hhidden, hwanted,
                if_neg Bool.false_ne_true, selected, worked_unwanted hwanted]
              exact hrun
          | true =>
              by_cases hroom : list.length < listz
              · have hmore : (list ++ [w]).length ≤ listz := by
                  rw [List.length_append, List.length_singleton]
                  exact hroom
                obtain ⟨fuel, hrun⟩ := ih hmore
                refine ⟨fuel + 1, ?_⟩
                rw [Machine.run, selectRound_shown hhidden, hwanted, if_pos rfl, if_pos hroom,
                  selected_wanted hhidden hwanted]
                exact hrun
              · refine ⟨1, ?_⟩
                rw [Machine.run, selectRound_shown hhidden, hwanted, if_pos rfl,
                  if_neg hroom, selected_of_full hroom hhidden hwanted]

/-! ## The loop of `display_widgets` -/

theorem wiped_cons {i : ι} :
    wiped (Function.update stat i { stat i with dirty := false }) list =
      wiped stat (i :: list) := by
  funext x
  rw [wiped, wiped]
  by_cases hx : x = i
  · subst hx
    rw [Function.update_self, if_pos List.mem_cons_self, ite_self]
  · rw [Function.update_of_ne hx]
    simp only [List.mem_cons, hx, false_or]

theorem wiped_nil : wiped stat [] = stat := by
  funext x
  rw [wiped, if_neg List.not_mem_nil]

variable {cur : ι → Stat} {drawn : List ι} {fuel : ℕ}

theorem displayLoop_done {screen : Screen ι} (hnone : screen.it.obj = none) :
    displayLoop heap draw (fuel + 1) screen = some (some screen) := by
  obtain ⟨⟨obj, iobj⟩, stat, drawn⟩ := screen
  cases hnone
  rfl

theorem displayLoop_hidden (hhidden : isHidden cur w = true) :
    displayLoop heap draw (fuel + 1) ⟨⟨some w, iobj⟩, cur, drawn⟩ =
      match nextsib heap ⟨advance heap iobj w, iobj⟩ with
      | none => some none
      | some it => displayLoop heap draw fuel ⟨it, cur, drawn⟩ := by
  rw [isHidden] at hhidden
  rw [displayLoop, getnext]
  dsimp only
  exact if_pos hhidden

theorem displayLoop_clean (hshown : isHidden cur w = false) (hclean : isDirty cur w = false) :
    displayLoop heap draw (fuel + 1) ⟨⟨some w, iobj⟩, cur, drawn⟩ =
      displayLoop heap draw fuel ⟨⟨advance heap iobj w, iobj⟩, cur, drawn⟩ := by
  rw [isHidden] at hshown
  rw [isDirty] at hclean
  rw [displayLoop, getnext]
  dsimp only
  rw [if_neg (Bool.eq_false_iff.mp hshown), if_neg (Bool.eq_false_iff.mp hclean)]

theorem displayLoop_dirty (hshown : isHidden cur w = false) (hdirty : isDirty cur w = true) :
    displayLoop heap draw (fuel + 1) ⟨⟨some w, iobj⟩, cur, drawn⟩ =
      let stat := Function.update cur w { cur w with dirty := false }
      match draw w with
      | .null => displayLoop heap draw fuel ⟨⟨advance heap iobj w, iobj⟩, stat, drawn⟩
      | .driver =>
          displayLoop heap draw fuel ⟨⟨advance heap iobj w, iobj⟩, stat, drawn ++ [w]⟩
      | .box =>
          match displayLoop heap draw fuel
            ⟨⟨(heap w).child, (heap w).child⟩, stat, drawn ++ [w]⟩ with
          | some (some screen) => displayLoop heap draw fuel screen
          | stopped => stopped := by
  rw [isHidden] at hshown
  rw [isDirty] at hdirty
  rw [displayLoop, getnext]
  dsimp only
  rw [if_neg (Bool.eq_false_iff.mp hshown)]
  exact if_pos hdirty

/-- What there is to draw on a trail, if it comes to an end. -/
def displayed (stat : ι → Stat) (draw : ι → Draw) (ends : Bool) (screen : Screen ι)
    (ws : List ι) : Option (Screen ι) :=
  let list := worked (isHidden stat) (isDirty stat) ws
  if ends then
    some ⟨screen.it, wiped screen.stat list,
      screen.drawn ++ list.filter (fun x => draw x ≠ .null)⟩
  else none

theorem displayed_nil {screen : Screen ι} : displayed stat draw true screen [] = some screen := by
  rw [displayed, worked, List.filter_nil, wiped_nil, List.filter_nil, List.append_nil]
  rfl

theorem displayed_lost {screen : Screen ι} : displayed stat draw false screen ws = none := rfl

theorem displayed_hidden {screen : Screen ι} (hhidden : isHidden stat w = true) :
    displayed stat draw ends screen (w :: ws) = displayed stat draw ends screen ws := by
  rw [displayed, displayed, worked_hidden hhidden]

theorem displayed_clean {screen : Screen ι} (hclean : isDirty stat w = false) :
    displayed stat draw ends screen (w :: ws) = displayed stat draw ends screen ws := by
  rw [displayed, displayed, worked_unwanted hclean]

/-- A dirty widget is drawn first, if there is something to call. -/
theorem displayed_dirty (hshown : isHidden stat w = false) (hdirty : isDirty stat w = true) :
    displayed stat draw ends ⟨it, cur, drawn⟩ (w :: ws) =
      displayed stat draw ends
        ⟨it, Function.update cur w { cur w with dirty := false },
          if draw w = .null then drawn else drawn ++ [w]⟩ ws := by
  rw [displayed, displayed, worked_wanted hshown hdirty, wiped_cons]
  by_cases hnull : draw w = .null
  · rw [if_pos hnull, List.filter_cons_of_neg]
    simp [hnull]
  · rw [if_neg hnull, List.filter_cons_of_pos, List.append_cons]
    simp [hnull]

/-- The loop draws what there is to draw on a trail, and stops at its end. -/
theorem displayLoop_trail
    (htrail : Trail heap (isHidden stat) (dirtyBox stat draw) it ws ends) (hnodup : ws.Nodup)
    (hcur : ∀ x ∈ ws, cur x = stat x) :
    ∃ it', it'.obj = none ∧ displayLoop heap draw (ws.length + 1) ⟨it, cur, drawn⟩ =
      some (displayed stat draw ends ⟨it', cur, drawn⟩ ws) := by
  induction htrail generalizing cur drawn with
  | @done iobj =>
      refine ⟨⟨none, iobj⟩, rfl, ?_⟩
      rw [displayLoop_done rfl, displayed_nil]
  | @lost iobj w hlost =>
      have hhidden : isHidden stat w = true := hidden_of_lost hlost
      have hcurHidden : isHidden cur w = true := by
        rw [isHidden, hcur w List.mem_cons_self]
        exact hhidden
      rw [successor_hidden hhidden] at hlost
      refine ⟨⟨none, iobj⟩, rfl, ?_⟩
      rw [displayLoop_hidden hcurHidden, hlost, displayed_lost]
  | @step iobj w it ws ends hnext htrail ih =>
      obtain ⟨hw, hnodup⟩ := List.nodup_cons.mp hnodup
      obtain ⟨hcurw, hcur⟩ := List.forall_mem_cons.mp hcur
      have hcurHidden : isHidden cur w = isHidden stat w := by
        rw [isHidden, isHidden, hcurw]
      have hcurDirty : isDirty cur w = isDirty stat w := by
        rw [isDirty, isDirty, hcurw]
      cases hhidden : isHidden stat w with
      | true =>
          rw [successor_hidden hhidden] at hnext
          obtain ⟨it', hnone, hloop⟩ := ih hnodup hcur
          refine ⟨it', hnone, ?_⟩
          rw [List.length_cons, displayLoop_hidden (hcurHidden.trans hhidden), hnext,
            displayed_hidden hhidden]
          exact hloop
      | false =>
          rw [successor_shown hhidden] at hnext
          cases hdirty : isDirty stat w with
          | false =>
              have hbox : dirtyBox stat draw w = false := by
                rw [dirtyBox, hdirty, Bool.false_and]
              rw [hbox, if_neg Bool.false_ne_true] at hnext
              cases hnext
              obtain ⟨it', hnone, hloop⟩ := ih hnodup hcur
              refine ⟨it', hnone, ?_⟩
              rw [List.length_cons,
                displayLoop_clean (hcurHidden.trans hhidden) (hcurDirty.trans hdirty),
                displayed_clean hdirty]
              exact hloop
          | true =>
              have hcur' : ∀ x ∈ ws,
                  Function.update cur w { cur w with dirty := false } x = stat x := by
                intro x hx
                have hne : x ≠ w := fun heq => hw (heq ▸ hx)
                rw [Function.update_of_ne hne]
                exact hcur x hx
              obtain ⟨it', hnone, hloop⟩ :=
                @ih _ (if draw w = .null then drawn else drawn ++ [w]) hnodup hcur'
              refine ⟨it', hnone, ?_⟩
              rw [List.length_cons,
                displayLoop_dirty (hcurHidden.trans hhidden) (hcurDirty.trans hdirty),
                displayed_dirty hhidden hdirty]
              rw [dirtyBox, hdirty, Bool.true_and] at hnext
              cases hdraw : draw w with
              | null =>
                  rw [hdraw] at hnext hloop
                  cases hnext
                  exact hloop
              | driver =>
                  rw [hdraw] at hnext hloop
                  cases hnext
                  exact hloop
              | box =>
                  -- the walk over the children has come to the end of the outer one
                  rw [hdraw] at hnext hloop
                  cases hnext
                  have hinner : displayLoop heap draw (ws.length + 1)
                      ⟨⟨(heap w).child, (heap w).child⟩,
                        Function.update cur w { cur w with dirty := false },
                        drawn ++ [w]⟩ = _ := hloop
                  dsimp only
                  rw [hinner]
                  cases ends with
                  | false => rfl
                  | true => exact displayLoop_done hnone

end

section

variable {heap : Heap ι} {kids : ι → List ι} {stat : ι → Stat} {hidden boxes wanted : ι → Bool}
  {draw : ι → Draw} {s first : ι} {ws order list list' : List ι}

omit [DecidableEq ι] in
theorem Lists.nodup (hforest : IsForest kids) (hlists : Lists kids hidden wanted s list) :
    list.Nodup := by
  obtain ⟨nodes, hpre, hsub⟩ := hlists.preorder
  exact hsub.nodup (hforest.nodup_preorder hpre (List.pairwise_singleton _ s))

omit [DecidableEq ι] in
theorem Lists.length_eq (hforest : IsForest kids) (hlists : Lists kids hidden wanted s list)
    (hlists' : Lists kids hidden wanted s list') : list.length = list'.length := by
  apply List.Perm.length_eq
  rw [List.perm_ext_iff_of_nodup (hlists.nodup hforest) (hlists'.nodup hforest)]
  intro x
  rw [hlists.mem_iff, hlists'.mem_iff]

omit [DecidableEq ι] in
/-- A walk that keeps to depth-first order has to come to all that is wanted. -/
theorem lists_worked_iff (hforest : IsForest kids) (hroot : ∀ m, s ∉ kids m)
    (hpre : Preorder (shownKids kids hidden) [s] order) (hsub : ws.Sublist order) :
    Lists kids hidden wanted s (worked hidden wanted ws) ↔
      ∀ x, Below kids s x → Shown kids hidden x → wanted x → x ∈ ws := by
  have hmem : ∀ x, x ∈ order ∧ hidden x = false ↔ Below kids s x ∧ Shown kids hidden x := by
    intro x
    rw [← below_shown_iff hforest hroot, hpre.mem_iff]
    simp
  constructor
  · intro hlists x hbelow hshown hwanted
    exact (mem_worked.mp ((hlists.mem_iff x).mpr ⟨hbelow, hshown, hwanted⟩)).1
  · intro hall
    refine ⟨?_, ?_⟩
    · obtain ⟨nodes, hnodes⟩ := hforest.exists_preorder [s]
      exact ⟨nodes, hnodes, (List.filter_sublist.trans hsub).trans
        (hnodes.sublist shownKids_sublist (List.Sublist.refl _) hpre)⟩
    · intro x
      rw [mem_worked, ← and_assoc, ← and_assoc, ← hmem]
      constructor
      · rintro ⟨⟨hx, hshown⟩, hwanted⟩
        exact ⟨⟨hsub.mem hx, hshown⟩, hwanted⟩
      · rintro ⟨⟨hx, hshown⟩, hwanted⟩
        obtain ⟨hbelow, hshownAll⟩ := (hmem x).mp ⟨hx, hshown⟩
        exact ⟨⟨hall x hbelow hshownAll hwanted, hshown⟩, hwanted⟩

/-- A walk from the root. -/
theorem exists_rootTrail (hforest : IsForest kids) (hlinked : Linked heap kids)
    (hroot : ∀ m, s ∉ kids m) (hidden boxes wanted : ι → Bool) :
    ∃ ws ends, Trail heap hidden boxes (istart s) ws ends ∧ ws.Nodup ∧
      (∀ x ∈ ws, Below kids s x) ∧
      (Lists kids hidden wanted s (worked hidden wanted ws) ↔
        ∀ x, Below kids s x → Shown kids hidden x → wanted x → x ∈ ws) ∧
      ((ends = true ∧ Lists kids hidden wanted s (worked hidden wanted ws)) ↔
        Keeps kids hidden boxes wanted s [(s, [])]) := by
  have hstands := stands_root hforest hroot
  have hless : ∀ w, (shownKids kids hidden w).Sublist (kids w) := shownKids_sublist
  obtain ⟨order, hpre⟩ := (hforest.mono hless).exists_preorder [s]
  obtain ⟨ws, ends, htrail, hsub, hiff⟩ :=
    exists_trail hforest hlinked hidden boxes wanted hstands hpre
  have hlists : Lists kids hidden wanted s (worked hidden wanted ws) ↔
      ∀ x, Below kids s x → Shown kids hidden x → wanted x → x ∈ ws :=
    lists_worked_iff hforest hroot hpre hsub
  have hbelow : ∀ x ∈ ws, Below kids s x := by
    intro x hx
    obtain ⟨r, hr, hx⟩ := hpre.mem_iff.mp (hsub.mem hx)
    rw [List.mem_singleton.mp hr] at hx
    exact hx.mono shownKids_sublist
  refine ⟨ws, ends, htrail, hsub.nodup (hstands.nodup hforest hpre), hbelow, hlists, ?_⟩
  rw [← hiff, hlists]
  apply and_congr_right
  intro _
  apply forall_congr'
  intro x
  rw [← and_imp, ← below_shown_iff hforest hroot, and_imp, hpre.mem_iff]
  simp

theorem selects_iff (hforest : IsForest kids) (hlinked : Linked heap kids)
    (hroot : ∀ m, s ∉ kids m) :
    Selects heap kids stat first s ↔
      Keeps kids (isHidden stat) (fun _ => false) (isFocusable stat) s [(s, [])] ∧
        ∃ list, Lists kids (isHidden stat) (isFocusable stat) s list ∧ list.length ≤ listz := by
  obtain ⟨ws, ends, htrail, _, _, _, hiff⟩ := exists_rootTrail hforest hlinked hroot (isHidden stat)
    (fun _ => false) (isFocusable stat)
  rw [← hiff]
  have hempty : ([] : List ι).length ≤ listz := Nat.zero_le _
  obtain ⟨fuel, hrun⟩ := run_selectRound htrail hempty
  constructor
  · rintro ⟨fuel', list, stat', hselect, hlists⟩
    rw [selectFirst, Option.map_eq_some_iff] at hselect
    obtain ⟨final, hrun', hfinal⟩ := hselect
    rw [Option.map_eq_some_iff] at hfinal
    obtain ⟨list', rfl, hpair⟩ := hfinal
    cases hpair
    have hsame : some list = selected stat ends [] ws := Machine.run_unique hrun' hrun
    rw [selected] at hsame
    split at hsame
    · next hboth =>
        cases hsame
        exact ⟨⟨hboth.1, hlists⟩, _, hlists, hboth.2⟩
    · cases hsame
  · rintro ⟨⟨hends, hlists⟩, list, hlists', hroom⟩
    have hlength : ([] ++ worked (isHidden stat) (isFocusable stat) ws).length ≤ listz := by
      rw [List.nil_append, hlists.length_eq hforest hlists']
      exact hroom
    have hselected : selected stat ends [] ws =
        some (worked (isHidden stat) (isFocusable stat) ws) := if_pos ⟨hends, hlength⟩
    rw [hselected] at hrun
    have hselect := congrArg (Option.map (Option.map fun list =>
      let cur := list.headD first
      (list, Function.update stat cur { stat cur with focused := true, dirty := true }))) hrun
    exact ⟨fuel, _, _, hselect, hlists⟩

/-- What is wiped was drawn. -/
theorem mem_of_wiped {x : ι} (hstat : wiped stat list = wiped stat list') (hx : x ∈ list)
    (hdirty : isDirty stat x = true) : x ∈ list' := by
  by_contra hnot
  have hsame := congrArg Stat.dirty (congrFun hstat x)
  rw [wiped, wiped, if_pos hx, if_neg hnot] at hsame
  rw [isDirty, ← hsame] at hdirty
  cases hdirty

theorem displays_iff (hforest : IsForest kids) (hlinked : Linked heap kids)
    (hroot : ∀ m, s ∉ kids m) :
    Displays heap kids stat draw s ↔
      Keeps kids (isHidden stat) (dirtyBox stat draw) (isDirty stat) s [(s, [])] := by
  obtain ⟨ws, ends, htrail, hnodup, -, hall, hiff⟩ := exists_rootTrail hforest hlinked hroot
    (isHidden stat) (dirtyBox stat draw) (isDirty stat)
  rw [← hiff]
  have hcur : ∀ x ∈ ws, stat x = stat x := fun _ _ => rfl
  obtain ⟨it', _, hloop⟩ := @displayLoop_trail _ _ _ _ _ _ _ _ stat [] htrail hnodup hcur
  constructor
  · rintro ⟨fuel', screen, list, hdisplay, hlists, _, hstat⟩
    have hsame : some screen = displayed stat draw ends ⟨it', stat, []⟩ ws :=
      displayLoop_unique hdisplay hloop
    rw [displayed] at hsame
    split at hsame
    · next hends =>
        cases hsame
        refine ⟨hends, hall.mpr ?_⟩
        intro x hbelow hshown hdirty
        have hx := (hlists.mem_iff x).mpr ⟨hbelow, hshown, hdirty⟩
        exact (mem_worked.mp (mem_of_wiped hstat.symm hx hdirty)).1
    · cases hsame
  · rintro ⟨hends, hlists⟩
    rw [hends] at hloop
    exact ⟨_, _, _, hloop, hlists, List.nil_append _, rfl⟩

/-- No walk gets lost where everything hidden has children. -/
theorem Trail.ends_eq_true {it : Iter ι} {ends : Bool}
    (htrail : Trail heap hidden boxes it ws ends)
    (hparents : ∀ w, hidden w = true → (heap w).child ≠ none) : ends = true := by
  induction htrail with
  | done => rfl
  | @lost iobj w hlost =>
      have hhidden := hidden_of_lost hlost
      obtain ⟨c, hc⟩ := Option.ne_none_iff_exists'.mp (hparents w hhidden)
      have hnext : advance heap iobj w = some c := by rw [advance, hc]
      rw [successor_hidden hhidden, hnext, nextsib, Option.map_some] at hlost
      split_ifs at hlost
  | step _ _ ih => exact ih

/-- With rounds enough `display_widgets` comes to an end where everything hidden has
children.  It draws the root if that is dirty, and all that it should where it keeps it. -/
theorem exists_displayWidgets (hforest : IsForest kids) (hlinked : Linked heap kids)
    (hroot : ∀ m, s ∉ kids m) (draw : ι → Draw)
    (hparents : ∀ w, isHidden stat w = true → kids w ≠ []) {fuel : ℕ}
    (hfuel : ∀ ws : List ι, ws.Nodup → (∀ x ∈ ws, Below kids s x) → ws.length < fuel) :
    ∃ it list, displayWidgets heap draw stat fuel s =
        some (some ⟨it, wiped stat list, list.filter fun x => draw x ≠ .null⟩) ∧
      (isHidden stat s = false → isDirty stat s = true → s ∈ list) ∧
      (Keeps kids (isHidden stat) (dirtyBox stat draw) (isDirty stat) s [(s, [])] →
        Lists kids (isHidden stat) (isDirty stat) s list) := by
  obtain ⟨ws, ends, htrail, hnodup, hbelow, -, hiff⟩ := exists_rootTrail hforest hlinked hroot
    (isHidden stat) (dirtyBox stat draw) (isDirty stat)
  have hchild : ∀ w, isHidden stat w = true → (heap w).child ≠ none := by
    intro w hhidden
    rw [hlinked.child, Ne, List.head?_eq_none_iff]
    exact hparents w hhidden
  obtain rfl := htrail.ends_eq_true hchild
  have hmem : s ∈ ws := by
    cases htrail with
    | step => exact List.mem_cons_self
  have hcur : ∀ x ∈ ws, stat x = stat x := fun _ _ => rfl
  obtain ⟨it, -, hloop⟩ := @displayLoop_trail _ _ _ _ _ _ _ _ stat [] htrail hnodup hcur
  refine ⟨it, worked (isHidden stat) (isDirty stat) ws, ?_, ?_, fun hkeeps => (hiff.mpr hkeeps).2⟩
  · exact displayLoop_mono hloop (hfuel ws hnodup hbelow)
  · intro hshown hdirty
    exact mem_worked.mpr ⟨hmem, hshown, hdirty⟩

end

/-- Hiding a widget prunes its subtree and no more exactly if the walks leave out
nothing that they should list or draw, and if `list` has room. -/
theorem prunes_iff_keeps {heap : Heap ι} {kids : ι → List ι} (hbuilt : Built heap kids) {s : ι}
    (hroot : ∀ m, s ∉ kids m) (stat : ι → Stat) (draw : ι → Draw) (first : ι) :
    Selects heap kids stat first s ∧ Displays heap kids stat draw s ↔
      (Keeps kids (isHidden stat) (fun _ => false) (isFocusable stat) s [(s, [])] ∧
        ∃ list, Lists kids (isHidden stat) (isFocusable stat) s list ∧ list.length ≤ listz) ∧
      Keeps kids (isHidden stat) (dirtyBox stat draw) (isDirty stat) s [(s, [])] := by
  obtain ⟨hforest, hlinked⟩ := hbuilt.linked
  rw [selects_iff hforest hlinked hroot, displays_iff hforest hlinked hroot]

theorem keeps_root {heap : Heap ι} {kids : ι → List ι} (hforest : IsForest kids)
    (hlinked : Linked heap kids) {s : ι} (hroot : ∀ m, s ∉ kids m)
    {hidden boxes wanted : ι → Bool} (hpassable : Passable kids hidden boxes wanted s) :
    Keeps kids hidden boxes wanted s [(s, [])] := by
  obtain ⟨order, hpre⟩ := (hforest.mono shownKids_sublist).exists_preorder [s]
  exact keeps_of_passable hforest hlinked hpassable (stands_root hforest hroot)
    ⟨.inl rfl, fun level hlevel => absurd hlevel List.not_mem_nil⟩
    (List.forall_mem_singleton.mpr Below.refl) hpre

/-- Hiding a widget prunes its subtree and no more in a tree that both walks pass through,
if `list` has room. -/
theorem prunes_of_passable {heap : Heap ι} {kids : ι → List ι} (hbuilt : Built heap kids)
    {s : ι} (hroot : ∀ m, s ∉ kids m) (stat : ι → Stat) (draw : ι → Draw) (first : ι)
    (hselect : Passable kids (isHidden stat) (fun _ => false) (isFocusable stat) s)
    (hroom : ∃ list, Lists kids (isHidden stat) (isFocusable stat) s list ∧
      list.length ≤ listz)
    (hdisplay : Passable kids (isHidden stat) (dirtyBox stat draw) (isDirty stat) s) :
    Selects heap kids stat first s ∧ Displays heap kids stat draw s := by
  obtain ⟨hforest, hlinked⟩ := hbuilt.linked
  exact (prunes_iff_keeps hbuilt hroot stat draw first).mpr
    ⟨⟨keeps_root hforest hlinked hroot hselect, hroom⟩,
      keeps_root hforest hlinked hroot hdisplay⟩

/-! ## A hidden mother -/

/-- Three daughters, the first with a daughter of her own. -/
def family : ℕ → List ℕ := graft (daughters 3) 1 4

def familyHeap : Heap ℕ := packedHeap (daughtersHeap 3) (daughters 3) 1 4

theorem mem_family {m c : ℕ} (hmem : c ∈ family m) :
    m = 0 ∧ (c = 1 ∨ c = 2 ∨ c = 3) ∨ m = 1 ∧ c = 4 := by
  rcases mem_graft.mp hmem with hmem | ⟨rfl, rfl⟩
  · obtain ⟨rfl, hpos, hle⟩ := mem_daughters hmem
    omega
  · exact .inr ⟨rfl, rfl⟩

theorem built_family : Built familyHeap family := by
  have hbuilt := built_daughters 3
  have hfree : ∀ w, 4 ∉ daughters 3 w := fun w hmem => absurd (mem_daughters hmem).2.2 (by decide)
  have hnot : ¬ Below (daughters 3) 4 1 := by
    intro hbelow
    rcases Relation.ReflTransGen.cases_head hbelow with hone | ⟨c, hc, _⟩
    · cases hone
    · cases (mem_daughters hc).1
  have hpack := packWidget_eq hbuilt.linked.2 hfree (show 4 ≠ 1 by decide) 0
  rw [if_pos (by decide)] at hpack
  exact .pack hbuilt hfree hnot hpack

/-- The mother is hidden, and her sister can be selected and has to be drawn by the box
above. -/
def motherHidden (w : ℕ) : Stat := ⟨false, w == 2, w == 0 || w == 2, w == 1⟩

def drawFamily (w : ℕ) : Draw := if w = 0 then .box else .driver

theorem root_family (m : ℕ) : 0 ∉ family m := fun hmem => by
  have hcases := mem_family hmem
  omega

theorem le_of_below_family {w : ℕ}
    (hbelow : Below (shownKids family (isHidden motherHidden)) 0 w) : w ≤ 3 := by
  cases Relation.ReflTransGen.cases_tail hbelow with
  | inl hroot => omega
  | inr hmother =>
      obtain ⟨m, -, hmem⟩ := hmother
      obtain ⟨hshown, hmem⟩ := mem_shownKids.mp hmem
      rcases mem_family hmem with ⟨rfl, hw⟩ | ⟨rfl, rfl⟩
      · omega
      · cases hshown

theorem eq_of_daughters {before ts : List ℕ} {w : ℕ} (hkids : [1, 2, 3] = before ++ w :: ts) :
    w = 1 ∧ ts = [2, 3] ∨ w = 2 ∧ ts = [3] ∨ w = 3 ∧ ts = [] := by
  rcases before with _ | ⟨_, _ | ⟨_, _ | ⟨_, before⟩⟩⟩
  · simp_all
  · simp_all
  · simp_all
  · simp at hkids

/-- In the family something comes next, or nothing at all does. -/
theorem passable_family {boxes wanted : ℕ → Bool} (hboxes : ∀ w, boxes w = true → w = 0) :
    Passable family (isHidden motherHidden) boxes wanted 0 := by
  intro w ts levels hspine hbelow
  have hle := le_of_below_family hbelow
  cases hspine with
  | root hroot =>
      obtain rfl : w = 0 := by
        by_contra hw
        have hmem : w = 1 ∨ w = 2 ∨ w = 3 := by omega
        rcases hmem with rfl | rfl | rfl
        · exact hroot 0 (by decide)
        · exact hroot 0 (by decide)
        · exact hroot 0 (by decide)
      exact .inl (.inl (by decide))
  | @child m _ us before _ levels hspine hkids =>
      have hmem : w ∈ family m := hkids ▸ List.mem_append_right before List.mem_cons_self
      obtain rfl : m = 0 := by
        have hcases := mem_family hmem
        omega
      cases hspine with
      | child _ hkids' =>
          exact absurd (hkids' ▸ List.mem_append_right _ List.mem_cons_self) (root_family _)
      | root =>
          rcases eq_of_daughters hkids with ⟨rfl, rfl⟩ | ⟨rfl, rfl⟩ | ⟨rfl, rfl⟩
          · exact .inl ⟨by decide, by decide⟩
          · have hbox : boxes 2 = false :=
              Bool.eq_false_iff.mpr fun hbox => absurd (hboxes 2 hbox) (by decide)
            exact .inl (.inr ⟨hbox, .inl (by decide)⟩)
          · refine .inr ⟨fun hnull => absurd hnull.1 (by decide), ?_⟩
            rintro x ⟨r, hr, -⟩
            exact absurd hr List.not_mem_nil

/-- Only the sister is listed. -/
theorem lists_family :
    Lists family (isHidden motherHidden) (isFocusable motherHidden) 0 [2] := by
  have hforest := built_family.linked.1
  have htwo : Below (shownKids family (isHidden motherHidden)) 0 2 := Below.child (by decide)
  obtain ⟨nodes, hnodes⟩ := hforest.exists_preorder [0]
  refine ⟨⟨nodes, hnodes, ?_⟩, fun x => ?_⟩
  · exact List.singleton_sublist.mpr
      (hnodes.mem_iff.mpr ⟨0, List.mem_cons_self, Below.child (by decide)⟩)
  · rw [List.mem_singleton, ← and_assoc, ← below_shown_iff hforest root_family]
    constructor
    · rintro rfl
      exact ⟨⟨htwo, rfl⟩, rfl⟩
    · rintro ⟨-, hfocusable⟩
      exact eq_of_beq hfocusable

theorem prunes_of_passable_family :
    Selects familyHeap family motherHidden 0 0 ∧
      Displays familyHeap family motherHidden drawFamily 0 := by
  refine prunes_of_passable built_family root_family motherHidden drawFamily 0
    (passable_family nofun) ⟨[2], lists_family, by decide⟩ (passable_family ?_)
  intro w hbox
  by_contra hw
  rw [dirtyBox, drawFamily, if_neg hw, Bool.and_eq_true] at hbox
  exact absurd hbox.2 (by decide)

/-! ## A hidden daughter -/

/-- The first daughter is hidden, the second one can be selected and has to be drawn. -/
def firstHidden (w : ℕ) : Stat := ⟨false, w == 2, w == 2, w == 1⟩

theorem root_daughters (m : ℕ) : 0 ∉ daughters 2 m :=
  fun hmem => absurd (mem_daughters hmem).2.1 (Nat.lt_irrefl 0)

theorem run_firstHidden :
    Machine.run (selectRound (daughtersHeap 2) firstHidden) 3 (istart 0, []) =
      some (some []) := by
  rfl

/-- With the first daughter its sister is left out. -/
theorem not_prunes_firstHidden :
    Built (daughtersHeap 2) (daughters 2) ∧ (∀ m, 0 ∉ daughters 2 m) ∧
      ¬ (Selects (daughtersHeap 2) (daughters 2) firstHidden 0 0 ∧
        Displays (daughtersHeap 2) (daughters 2) firstHidden (fun _ => .driver) 0) := by
  refine ⟨built_daughters 2, root_daughters, ?_⟩
  rintro ⟨⟨fuel, list, stat', hselect, hlists⟩, _⟩
  rw [selectFirst, Option.map_eq_some_iff] at hselect
  obtain ⟨final, hrun, hfinal⟩ := hselect
  rw [Machine.run_unique hrun run_firstHidden] at hfinal
  cases hfinal
  have hbelow : Below (daughters 2) 0 2 := Below.child (by decide)
  have hshown : Shown (daughters 2) (isHidden firstHidden) 2 := by
    intro a ha
    rcases Relation.ReflTransGen.cases_tail ha with rfl | ⟨m, ham, hm⟩
    · rfl
    · rw [(mem_daughters hm).1] at ham
      rcases Relation.ReflTransGen.cases_tail ham with rfl | ⟨m', _, hm'⟩
      · rfl
      · exact absurd hm' (root_daughters m')
  exact List.not_mem_nil ((hlists.mem_iff 2).mpr ⟨hbelow, hshown, rfl⟩)

end Fip.Snazzy
