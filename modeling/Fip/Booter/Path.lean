import Fip.Booter.Directory
import Fip.Core.Words
import Mathlib.Data.List.Find
import Mathlib.Data.List.TakeWhile

/-!
# Paths

`dopath` looks the components of a path up one by one.  That is the way through the
directory tree as long as the tree has them: a slash behind the last component is one
more component with an empty name, and what stands in a regular file, or behind the
last entry of a directory, can be found too.
-/

namespace Fip.Booter

/-- `'/'` -/
def slash : UInt8 := 0x2f

/-- A string, without the byte that ends it. -/
def CString : Type := { bytes : List UInt8 // 0 ∉ bytes }

/-- Once round the loop of `dopath`; it stops without a result if the component does
not fit into `c`. -/
def dopathStep (env : Env) (behind : UInt8) :
    List UInt8 × ℕ × State → (List UInt8 × ℕ × State) ⊕ Option (ℕ × State)
  | (path, ino, s) =>
      if path = [] ∨ ino = 65535 then .inr (some (ino, s))
      else
        let path := path.dropWhile (· == slash)
        let c := path.takeWhile (· != slash)
        if 31 ≤ c.length then .inr none
        else
          match lookup env behind s ino c with
          | none => .inr none
          | some (ino, s) => .inl (path.dropWhile (· != slash), ino, s)

/-- Where a path starts, and what of it is to be looked up there. -/
def start (cd : ℕ) (path : CString) : ℕ × List UInt8 :=
  if path.val.head? = some slash then (root, path.val.tail) else (cd, path.val)

/-- break path apart and lookup each inode -/
def dopath (env : Env) (behind : UInt8) (cd : ℕ) (s : State) (path : CString) :
    Option (ℕ × State) :=
  let (ino, rest) := start cd path
  (Machine.run (dopathStep env behind) (rest.length + 1) (rest, ino, s)).join

/-- The components of a path. -/
def components (path : List UInt8) : List (List UInt8) :=
  (path.splitOn slash).filter (· ≠ [])

section

variable (env : Env) (content : ℕ → Block)

def IsDirectory (no : ℕ) : Prop :=
  word (inodeBytes env content no) 0 &&& fDir ≠ 0

instance (no : ℕ) : Decidable (IsDirectory env content no) :=
  inferInstanceAs (Decidable (word (inodeBytes env content no) 0 &&& fDir ≠ 0))

/-- The entries of a directory. -/
def entries (no : ℕ) : List Dirent :=
  (slots env content no).take ((diskInode env content no).size / 32)

/-- The inode with a name in a directory; 65535 is none. -/
def child (no : ℕ) (name : List UInt8) : Option ℕ :=
  if no ≠ 65535 ∧ IsDirectory env content no then
    ((entries env content no).find? fun d => d.name.takeWhile (· != 0) = name).map
      Dirent.inode
  else none

/-- The inode that is reached by following names. -/
def resolve (no : ℕ) (names : List (List UInt8)) : Option ℕ :=
  names.foldlM (child env content) no

/-- The names in the directory tree are terminated. -/
def Terminated (top : ℕ) : Prop :=
  ∀ names no, resolve env content top names = some no → IsDirectory env content no →
    ∀ d ∈ entries env content no, 0 ∈ d.name

/-- The path leads to the inode it names, or to -1. -/
def Resolves (behind : UInt8) (cd : ℕ) (s : State) (path : CString) : Prop :=
  ∃ t, dopath env behind cd s path = some
    ((resolve env content (start cd path).1 (components path.val)).getD 65535, t)

/-- Each of the names has a match in the blocks of the inode that the one before
has. -/
def Leads (behind : UInt8) : ℕ → List (List UInt8) → Prop
  | _, [] => True
  | no, name :: names => ∃ next, firstMatch env content behind no name = some next ∧
      next ≠ 65535 ∧ Leads behind next names

/-- What a slash behind the last component adds to the names to look up. -/
def trailing (path : List UInt8) : List (List UInt8) :=
  if path.getLast? = some slash then [[]] else []

/-- Nothing besides the tree is found on the way from an inode by these names, and
by an empty name behind them if `more` has one. -/
structure Unmistakable (behind : UInt8) (no : ℕ) (names more : List (List UInt8)) :
    Prop where
  /-- Where the tree has no such component, the blocks do not lead on by what is left
  of the path. -/
  stray : ∀ front name back last, names = front ++ name :: back →
    resolve env content no front = some last → last ≠ 65535 →
    child env content last name = none →
    ¬ Leads env content behind last (name :: back ++ more)
  /-- The empty name behind the last component leads nowhere else. -/
  slash : ∀ last, resolve env content no names = some last → last ≠ 65535 → more ≠ [] →
    firstMatch env content behind last [] = some last

end

section

theorem components_slash (path : List UInt8) :
    components (slash :: path) = components path :=
  words_sep slash path

theorem components_dropWhile (path : List UInt8) :
    components (path.dropWhile (· == slash)) = components path :=
  words_dropWhile slash path

/-- A component up to the end of the path or up to a slash. -/
theorem components_append {name rest : List UInt8} (hne : name ≠ []) (hname : slash ∉ name)
    (hrest : ∀ byte ∈ rest.head?, byte = slash) :
    components (name ++ rest) = name :: components rest :=
  words_append hne hname hrest

/-- The names that are looked up. -/
def sought (path : List UInt8) : List (List UInt8) :=
  components path ++ trailing path

/-- A slash ends a path if it ends what is behind a component. -/
theorem trailing_append (front : List UInt8) {name : List UInt8} (hne : name ≠ [])
    (hname : slash ∉ name) (rest : List UInt8) :
    trailing (front ++ (name ++ rest)) = trailing rest := by
  have hslash : name.getLast hne ≠ slash := by
    intro hlast
    exact hname (hlast ▸ List.getLast_mem hne)
  rw [trailing, trailing, List.getLast?_append, List.getLast?_append,
    List.getLast?_eq_some_getLast hne]
  rcases rest.getLast? with _ | final
  · rw [Option.none_or, Option.some_or, if_neg fun hlast => hslash (Option.some.inj hlast)]
    rfl
  · rw [Option.some_or, Option.some_or]

/-- A path of slashes names one component more, which is empty. -/
theorem sought_slashes {path : List UInt8} (hne : path ≠ [])
    (hslashes : path.dropWhile (· == slash) = []) : sought path = [[]] := by
  have hlast : path.getLast hne = slash :=
    beq_iff_eq.mp (List.dropWhile_eq_nil_iff.mp hslashes _ (List.getLast_mem hne))
  rw [sought, ← components_dropWhile, hslashes, trailing,
    List.getLast?_eq_some_getLast hne, hlast, if_pos rfl]
  rfl

/-- What a round of `dopath` looks up, and what it leaves. -/
theorem sought_next {path : List UInt8} (hne : path ≠ []) :
    sought path = (path.dropWhile (· == slash)).takeWhile (· != slash) ::
      sought ((path.dropWhile (· == slash)).dropWhile (· != slash)) := by
  by_cases hslashes : path.dropWhile (· == slash) = []
  · rw [sought_slashes hne hslashes, hslashes]
    rfl
  · let name := (path.dropWhile (· == slash)).takeWhile (· != slash)
    let rest := (path.dropWhile (· == slash)).dropWhile (· != slash)
    have hsplit : name ++ rest = path.dropWhile (· == slash) :=
      List.takeWhile_append_dropWhile
    have hpath : path.takeWhile (· == slash) ++ (name ++ rest) = path := by
      rw [hsplit]
      exact List.takeWhile_append_dropWhile
    have hname : slash ∉ name := by
      intro hmem
      exact absurd (List.mem_takeWhile_imp hmem) (by decide)
    have hrest : ∀ byte ∈ rest.head?, byte = slash := by
      intro byte hbyte
      have hnot := List.head?_dropWhile_not (· != slash) (path.dropWhile (· == slash))
      rw [Option.mem_def.mp hbyte] at hnot
      simpa using hnot
    have hnonempty : name ≠ [] := by
      intro hnil
      rw [hnil, List.nil_append] at hsplit
      have hhead := List.head_dropWhile_not (· == slash) hslashes
      have hslash : (path.dropWhile (· == slash)).head hslashes = slash := by
        apply hrest
        rw [hsplit]
        exact List.head?_eq_some_head hslashes
      rw [hslash] at hhead
      exact absurd hhead (by decide)
    calc sought path
        = components (name ++ rest) ++ trailing path := by
          rw [hsplit, components_dropWhile, sought]
      _ = (name :: components rest) ++ trailing rest := by
          rw [components_append hnonempty hname hrest]
          conv_lhs => rw [← hpath]
          rw [trailing_append _ hnonempty hname]
      _ = name :: sought rest := rfl

theorem length_of_sought {path name : List UInt8}
    (hshort : ∀ name ∈ components path, name.length ≤ 30) (hname : name ∈ sought path) :
    name.length ≤ 30 := by
  rcases List.mem_append.mp hname with hname | hname
  · exact hshort name hname
  · rw [trailing] at hname
    split at hname
    · rw [List.mem_singleton.mp hname]
      exact Nat.zero_le _
    · cases hname

/-- A round of `dopath` leaves less of the path. -/
theorem length_next_lt {path : List UInt8} (hne : path ≠ []) :
    ((path.dropWhile (· == slash)).dropWhile (· != slash)).length < path.length := by
  obtain ⟨byte, path, rfl⟩ := List.exists_cons_of_ne_nil hne
  have hfront := List.length_dropWhile_le (· != slash) ((byte :: path).dropWhile (· == slash))
  by_cases hbyte : byte = slash
  · have hbehind := List.length_dropWhile_le (· == slash) path
    rw [List.dropWhile_cons, if_pos (by simpa using hbyte)] at hfront ⊢
    exact Nat.lt_succ_of_le (Nat.le_trans hfront hbehind)
  · have hbehind := List.length_dropWhile_le (· != slash) path
    rw [List.dropWhile_cons, if_neg (by simpa using hbyte), List.dropWhile_cons,
      if_pos (by simpa using hbyte)]
    exact Nat.lt_succ_of_le hbehind

end

section

variable {env : Env} {content : ℕ → Block} {behind : UInt8}

variable (env content behind) in
/-- What the loop of `dopath` makes of names. -/
def walk (no : ℕ) : List (List UInt8) → ℕ
  | [] => no
  | name :: names =>
      if no = 65535 then 65535
      else walk ((firstMatch env content behind no name).getD 65535) names

theorem walk_none (names : List (List UInt8)) :
    walk env content behind 65535 names = 65535 := by
  cases names with
  | nil => rfl
  | cons name names => rw [walk, if_pos rfl]

variable (env content behind) in
/-- The invariant of `dopath`: the rest of the path leads to the same inode. -/
def Walking (target : ℕ) (state : List UInt8 × ℕ × State) : Prop :=
  walk env content behind state.2.1 (sought state.1) = target ∧
    ∀ name ∈ sought state.1, name.length ≤ 30

theorem dopathStep_advances (hreliable : Reliable env content) {target : ℕ}
    {state : List UInt8 × ℕ × State} (hwalking : Walking env content behind target state) :
    Machine.Advances (Walking env content behind target)
      (fun result => ∃ t, result = some (target, t)) (fun state => state.1.length)
      state.1.length (dopathStep env behind state) := by
  obtain ⟨path, no, s⟩ := state
  obtain ⟨hwalk, hshort⟩ := hwalking
  dsimp only at hwalk hshort
  rw [dopathStep]
  by_cases hdone : path = [] ∨ no = 65535
  · rw [if_pos hdone]
    refine ⟨s, ?_⟩
    rw [← hwalk]
    rcases hdone with rfl | rfl
    · rfl
    · rw [walk_none]
  · obtain ⟨hne, hno⟩ := not_or.mp hdone
    rw [sought_next hne] at hwalk hshort
    rw [List.forall_mem_cons] at hshort
    obtain ⟨t, hlookup⟩ : ∃ t, lookup env behind s no
        ((path.dropWhile (· == slash)).takeWhile (· != slash)) =
          some ((firstMatch env content behind no _).getD 65535, t) :=
      lookup_reliable hreliable s no
    rw [if_neg hdone]
    dsimp only
    rw [if_neg (Nat.not_le.mpr (Nat.lt_succ_of_le hshort.1)), hlookup]
    rw [walk, if_neg hno] at hwalk
    exact ⟨⟨hwalk, hshort.2⟩, length_next_lt hne⟩

/-- `dopath` is the walk by the names that it looks up. -/
theorem dopath_walks (hreliable : Reliable env content) (behind : UInt8) (cd : ℕ)
    (s : State) (path : CString)
    (hshort : ∀ name ∈ sought (start cd path).2, name.length ≤ 30) :
    ∃ t, dopath env behind cd s path = some
      (walk env content behind (start cd path).1 (sought (start cd path).2), t) := by
  have hstart : Walking env content behind
      (walk env content behind (start cd path).1 (sought (start cd path).2))
      ((start cd path).2, (start cd path).1, s) := ⟨rfl, hshort⟩
  obtain ⟨result, hrun, t, hresult⟩ := Machine.run_total
    (fun _ hwalking => dopathStep_advances hreliable hwalking) hstart (Nat.lt_succ_self _)
  refine ⟨t, ?_⟩
  rw [dopath]
  dsimp only
  rw [hrun, hresult]
  rfl

/-- Up to the byte that ends a string its name is compared. -/
theorem strcmp_eq_zero_iff {entry : List UInt8} (hentry : 0 ∈ entry)
    {name : List UInt8} (hname : 0 ∉ name) (more : List UInt8) :
    strcmp (entry ++ more) (name ++ [0]) = 0 ↔ entry.takeWhile (· != 0) = name := by
  induction entry generalizing name with
  | nil => cases hentry
  | cons byte entry ih =>
      cases name with
      | nil =>
          by_cases hbyte : byte = 0
          · subst hbyte
            exact iff_of_true rfl rfl
          · refine iff_of_false ?_ ?_
            · rw [List.cons_append, List.nil_append, strcmp, if_pos hbyte]
              decide
            · rw [List.takeWhile_cons, if_pos (by simpa using hbyte)]
              exact List.cons_ne_nil _ _
      | cons first name =>
          rw [List.mem_cons, not_or] at hname
          obtain ⟨hfirst, hname⟩ := hname
          rw [List.cons_append, List.cons_append, strcmp]
          by_cases hbyte : byte = first
          · subst hbyte
            have hbehind : 0 ∈ entry := (List.mem_cons.mp hentry).resolve_left hfirst
            rw [if_neg (not_not_intro rfl), if_neg (Ne.symm hfirst), ih hbehind hname,
              List.takeWhile_cons, if_pos (by simpa using Ne.symm hfirst), List.cons_inj_right]
          · rw [if_pos hbyte, List.takeWhile_cons]
            refine iff_of_false (by decide) ?_
            split
            · exact fun heq => hbyte (List.cons.inj heq).1
            · exact List.cons_ne_nil _ _ ∘ Eq.symm

/-- What the tree has under a name is the first match. -/
theorem firstMatch_of_child {no next : ℕ} {name : List UInt8}
    (hentries : ∀ d ∈ entries env content no, 0 ∈ d.name) (hname : 0 ∉ name)
    (hchild : child env content no name = some next) :
    firstMatch env content behind no name = some next := by
  have hagree : ∀ d ∈ entries env content no,
      decide (d.Matches behind name) = decide (d.name.takeWhile (· != 0) = name) := by
    intro d hd
    rw [decide_eq_decide]
    exact strcmp_eq_zero_iff (hentries d hd) hname [behind]
  rw [child] at hchild
  split at hchild
  · obtain ⟨d, hd, rfl⟩ := Option.map_eq_some_iff.mp hchild
    rw [← List.find?_congr hagree] at hd
    rw [firstMatch, (List.take_prefix _ _).find?_eq_some hd]
    rfl
  · cases hchild

/-- The walk does not end in -1 exactly if it is led on by every name. -/
theorem walk_ne_iff {no : ℕ} (hno : no ≠ 65535) (names : List (List UInt8)) :
    walk env content behind no names ≠ 65535 ↔ Leads env content behind no names := by
  induction names generalizing no with
  | nil => exact iff_of_true hno trivial
  | cons name names ih =>
      rw [walk, if_neg hno, Leads]
      rcases hmatch : firstMatch env content behind no name with _ | next
      · rw [Option.getD_none, walk_none]
        exact iff_of_false (not_not_intro rfl) (by rintro ⟨_, h, _⟩; cases h)
      · rw [Option.getD_some]
        by_cases hnext : next = 65535
        · rw [hnext, walk_none]
          refine iff_of_false (not_not_intro rfl) ?_
          rintro ⟨other, hother, hne, _⟩
          exact hne (Option.some.inj hother).symm
        · rw [ih hnext]
          constructor
          · exact fun hleads => ⟨next, rfl, hnext, hleads⟩
          · rintro ⟨other, hother, _, hleads⟩
            rwa [Option.some.inj hother]

theorem resolve_cons (no : ℕ) (name : List UInt8) (names : List (List UInt8)) :
    resolve env content no (name :: names) =
      (child env content no name).bind fun next => resolve env content next names := rfl

theorem child_none (name : List UInt8) : child env content 65535 name = none := by
  rw [child, if_neg fun h => h.1 rfl]

/-- From no inode nothing is reached. -/
theorem unmistakable_none (names more : List (List UInt8)) :
    Unmistakable env content behind 65535 names more := by
  have hnone : ∀ names last, resolve env content 65535 names = some last → last = 65535 := by
    intro names last hresolve
    cases names with
    | nil => exact (Option.some.inj hresolve).symm
    | cons name names =>
        rw [resolve_cons, child_none] at hresolve
        cases hresolve
  exact ⟨fun front _ _ last _ hresolve hlast _ => absurd (hnone front last hresolve) hlast,
    fun last hresolve hlast _ => absurd (hnone names last hresolve) hlast⟩

theorem unmistakable_nil {no : ℕ} (hno : no ≠ 65535) (more : List (List UInt8)) :
    Unmistakable env content behind no [] more ↔
      (more ≠ [] → firstMatch env content behind no [] = some no) := by
  constructor
  · exact fun h => h.slash no rfl hno
  · intro h
    refine ⟨?_, ?_⟩
    · intro front name back last hsplit
      cases front <;> cases hsplit
    · intro last hlast _
      obtain rfl := Option.some.inj hlast
      exact h

theorem unmistakable_child {no next : ℕ} {name : List UInt8}
    (hchild : child env content no name = some next) (names more : List (List UInt8)) :
    Unmistakable env content behind no (name :: names) more ↔
      Unmistakable env content behind next names more := by
  have hresolve : ∀ names, resolve env content no (name :: names) =
      resolve env content next names := by
    intro names
    rw [resolve_cons, hchild]
    rfl
  constructor
  · intro h
    refine ⟨?_, ?_⟩
    · intro front other back last hsplit hlast
      apply h.stray (name :: front) other back last (congrArg (List.cons name) hsplit)
      rwa [hresolve]
    · intro last hlast
      apply h.slash last
      rwa [hresolve]
  · intro h
    refine ⟨?_, ?_⟩
    · intro front other back last hsplit hlast hne hmissing
      cases front with
      | nil =>
          obtain ⟨rfl, rfl⟩ := List.cons.inj hsplit
          obtain rfl := Option.some.inj hlast
          rw [hchild] at hmissing
          cases hmissing
      | cons first front =>
          obtain ⟨rfl, hrest⟩ := List.cons.inj hsplit
          rw [hresolve] at hlast
          exact h.stray front other back last hrest hlast hne hmissing
    · intro last hlast
      rw [hresolve] at hlast
      exact h.slash last hlast

theorem unmistakable_missing {no : ℕ} (hno : no ≠ 65535) {name : List UInt8}
    (hchild : child env content no name = none) (names more : List (List UInt8)) :
    Unmistakable env content behind no (name :: names) more ↔
      ¬ Leads env content behind no (name :: names ++ more) := by
  have hresolve : ∀ names, resolve env content no (name :: names) = none := by
    intro names
    rw [resolve_cons, hchild]
    rfl
  constructor
  · exact fun h => h.stray [] name names no rfl rfl hno hchild
  · intro h
    refine ⟨?_, ?_⟩
    · intro front other back last hsplit hlast
      cases front with
      | nil =>
          obtain ⟨rfl, rfl⟩ := List.cons.inj hsplit
          obtain rfl := Option.some.inj hlast
          exact fun _ _ => h
      | cons first front =>
          obtain ⟨rfl, -⟩ := List.cons.inj hsplit
          rw [hresolve] at hlast
          cases hlast
    · intro last hlast
      rw [hresolve] at hlast
      cases hlast

theorem Terminated.child {no next : ℕ} (htree : Terminated env content no)
    {name : List UInt8} (hchild : child env content no name = some next) :
    Terminated env content next := by
  intro names last hlast
  apply htree (name :: names)
  rwa [resolve_cons, hchild]

/-- The walk ends where the tree leads, exactly if nothing else is found on the way. -/
theorem walk_eq_iff {no : ℕ} {names more : List (List UInt8)}
    (htree : Terminated env content no) (hnames : ∀ name ∈ names, 0 ∉ name)
    (hmore : more = [] ∨ more = [[]]) :
    walk env content behind no (names ++ more) = (resolve env content no names).getD 65535 ↔
      Unmistakable env content behind no names more := by
  induction names generalizing no with
  | nil =>
      change _ = no ↔ _
      by_cases hno : no = 65535
      · rw [hno, walk_none]
        exact iff_of_true rfl (unmistakable_none [] more)
      · rw [unmistakable_nil hno]
        rcases hmore with rfl | rfl
        · exact iff_of_true rfl fun h => absurd rfl h
        · rw [List.nil_append, walk, if_neg hno, walk]
          rcases firstMatch env content behind no [] with _ | next
          · refine iff_of_false (Ne.symm hno) fun h => ?_
            cases h (List.cons_ne_nil _ _)
          · rw [Option.getD_some, Option.some_inj]
            exact ⟨fun h _ => h, fun h => h (List.cons_ne_nil _ _)⟩
  | cons name names ih =>
      rw [List.forall_mem_cons] at hnames
      by_cases hno : no = 65535
      · rw [hno, walk_none, resolve_cons, child_none]
        exact iff_of_true rfl (unmistakable_none _ more)
      · rcases hchild : child env content no name with _ | next
        · rw [unmistakable_missing hno hchild, ← walk_ne_iff hno, not_not, resolve_cons, hchild]
          rfl
        · have hdirectory : IsDirectory env content no := by
            rw [child] at hchild
            by_contra hnot
            rw [if_neg fun h => hnot h.2] at hchild
            cases hchild
          have hmatch : firstMatch env content behind no name = some next :=
            firstMatch_of_child (htree [] no rfl hdirectory) hnames.1 hchild
          rw [unmistakable_child hchild, ← ih (htree.child hchild) hnames.2, resolve_cons,
            hchild, List.cons_append, walk, if_neg hno, hmatch]
          rfl

theorem zero_not_mem_component (path : CString) :
    ∀ name ∈ components path.val, 0 ∉ name := by
  intro name hname hzero
  exact path.property (Records.mem_of_mem_splitOn (List.mem_filter.mp hname).1 hzero)

theorem components_start (cd : ℕ) (path : CString) :
    components (start cd path).2 = components path.val := by
  rw [start]
  split
  · next hslash =>
      obtain ⟨rest, hpath⟩ := List.head?_eq_some_iff.mp hslash
      rw [hpath, components_slash]
      rfl
  · rfl

/-- The path leads to the inode it names exactly if nothing else is found on the way. -/
theorem resolves_iff (hreliable : Reliable env content) {cd : ℕ} {path : CString}
    (htree : Terminated env content (start cd path).1)
    (hshort : ∀ name ∈ components path.val, name.length ≤ 30) (s : State) :
    Resolves env content behind cd s path ↔
      Unmistakable env content behind (start cd path).1 (components path.val)
        (trailing (start cd path).2) := by
  have hsought : sought (start cd path).2 =
      components path.val ++ trailing (start cd path).2 := by
    rw [sought, components_start]
  have hfits : ∀ name ∈ sought (start cd path).2, name.length ≤ 30 := by
    intro name hname
    apply length_of_sought _ hname
    rw [components_start]
    exact hshort
  have hmore : trailing (start cd path).2 = [] ∨ trailing (start cd path).2 = [[]] := by
    rw [trailing]
    split
    · exact .inr rfl
    · exact .inl rfl
  obtain ⟨t, hdopath⟩ := dopath_walks hreliable behind cd s path hfits
  rw [← walk_eq_iff htree (zero_not_mem_component path) hmore, ← hsought, Resolves, hdopath]
  constructor
  · rintro ⟨_, hresult⟩
    exact congrArg Prod.fst (Option.some.inj hresult)
  · intro hresult
    exact ⟨t, by rw [hresult]⟩

end

/-- An inode of one block. -/
def blockInode (mode size block : UInt8) : List UInt8 :=
  [mode, 0, 0, 0, 0, 0, 0, 0, 0, 0, 0, size] ++ List.replicate 12 0 ++ [0, block] ++
    List.replicate 38 0

def direntBytes (inode : UInt8) (name : List UInt8) : List UInt8 :=
  [0, inode] ++ name ++ List.replicate (30 - name.length) 0

/-- A disk with a directory `a` in the root directory. -/
def tree (blk : ℕ) : Block :=
  if blk = 2 then
    padded (List.replicate 64 0 ++ blockInode 0x40 96 20 ++ blockInode 0x40 64 21)
      (by decide +kernel)
  else if blk = 20 then
    padded (direntBytes 1 [0x2e] ++ direntBytes 1 [0x2e, 0x2e] ++ direntBytes 2 [0x61])
      (by decide +kernel)
  else if blk = 21 then
    padded (direntBytes 2 [0x2e] ++ direntBytes 1 [0x2e, 0x2e]) (by decide +kernel)
  else atStart.dbuf

theorem terminated_tree : Terminated (quiet tree) tree root := by
  have hentries : ∀ no, no = 1 ∨ no = 2 → ∀ d ∈ entries (quiet tree) tree no,
      0 ∈ d.name ∧ (d.inode = 1 ∨ d.inode = 2) := by
    rintro no (rfl | rfl) <;> decide +kernel
  have hchild : ∀ no name next, no = 1 ∨ no = 2 →
      child (quiet tree) tree no name = some next → next = 1 ∨ next = 2 := by
    intro no name next hno hnext
    rw [child] at hnext
    split at hnext
    · obtain ⟨d, hd, rfl⟩ := Option.map_eq_some_iff.mp hnext
      exact (hentries no hno d (List.mem_of_find?_eq_some hd)).2
    · cases hnext
  have hreached : ∀ names no last, no = 1 ∨ no = 2 →
      resolve (quiet tree) tree no names = some last → last = 1 ∨ last = 2 := by
    intro names
    induction names with
    | nil =>
        intro no last hno hlast
        obtain rfl := Option.some.inj hlast
        exact hno
    | cons name names ih =>
        intro no last hno hlast
        obtain ⟨next, hnext, hlast⟩ := Option.bind_eq_some_iff.mp hlast
        exact ih next last (hchild no name next hno hnext) hlast
  intro names no hresolve _ d hd
  exact (hentries no (hreached names root no (.inl rfl) hresolve) d hd).1

/-- `/a` -/
def plain : CString := ⟨[0x2f, 0x61], by decide⟩

/-- `/a/` -/
def slashed : CString := ⟨[0x2f, 0x61, 0x2f], by decide⟩

theorem resolves_iff_plain :
    Resolves (quiet tree) tree 0 root atStart plain ↔
      Unmistakable (quiet tree) tree 0 (start root plain).1 (components plain.val)
        (trailing (start root plain).2) := by
  have htree : Terminated (quiet tree) tree (start root plain).1 := terminated_tree
  exact resolves_iff (quiet_reliable tree) htree (by decide) atStart

/-- `/a/` leads to inode 0, which the first unused entry in `a` has. -/
theorem not_resolves_slashed :
    Reliable (quiet tree) tree ∧ Terminated (quiet tree) tree root ∧
      (∀ name ∈ components slashed.val, name.length ≤ 30) ∧
      resolve (quiet tree) tree root (components slashed.val) = some 2 ∧
      (∃ t, dopath (quiet tree) 0 root atStart slashed = some (0, t)) ∧
      ¬ Resolves (quiet tree) tree 0 root atStart slashed := by
  have hstart : start root slashed = (root, [0x61, 0x2f]) := rfl
  have hsought : sought [0x61, 0x2f] = [[0x61], []] := by decide
  have hwalk : walk (quiet tree) tree 0 root [[0x61], []] = 0 := by decide +kernel
  have hresolve : resolve (quiet tree) tree root (components slashed.val) = some 2 := by
    decide +kernel
  obtain ⟨t, hdopath⟩ := dopath_walks (quiet_reliable tree) 0 root atStart slashed
    (by decide)
  rw [hstart, hsought, hwalk] at hdopath
  refine ⟨quiet_reliable tree, terminated_tree, by decide, hresolve, ⟨t, hdopath⟩, ?_⟩
  rintro ⟨_, hresult⟩
  rw [hdopath, hstart, hresolve] at hresult
  cases hresult

end Fip.Booter
