import Fip.Core.Machine
import Fip.Useradd.Files
import Mathlib.Data.List.Forall2

/-!
# Adding the user to groups

`grp_update` goes through the group database and writes it anew for each group
that is named.  `gr_update` reads the same database and closes it, so that the
next `getgrent` of the outer loop finds it closed: the C library may start again
with the first entry or return `NULL`.  The counter in `gr_dup` starts with what
is on the stack.
-/

namespace Fip.Useradd

/-- A copy of a group by as many members as the counter says, which starts with
`no`.  Beyond the list there is `NULL`, which cannot be copied, and in front of the
new list there is no place for its end. -/
def grDup (no : Int) (s : Group) : Option Group :=
  let no := no + s.mem.length
  if 0 ≤ no ∧ no ≤ s.mem.length then some { s with mem := s.mem.take no.toNat } else none

def isOnList (s : List String) (n : String) : Bool :=
  s.contains n

def addList (list : List String) (member : String) : List String :=
  if member ∈ list then list else list ++ [member]

/-- The database while it is gone through: the text of `/etc/group`, what `getgrent`
has still to return of it, if it is open, and how often `gr_dup` has been called. -/
structure Scan where
  file : List Char
  stream : Option (List Group)
  calls : ℕ

/-- The next group; `restarts` says that the database is opened when it is
closed. -/
def getgrent (restarts : Bool) (s : Scan) : Option (Group × Scan) :=
  match s.stream.or (if restarts then some (getgrents s.file) else none) with
  | some (g :: stream) => some (g, { s with stream := some stream })
  | _ => none

section

variable (restarts : Bool) (no : ℕ → Int) (user : String) (userGroups : List String)

/-- Once round the loop of `grp_update`, which ends with the group file, or with none
where `gr_dup` is undefined. -/
def grpStep (s : Scan) : Scan ⊕ Option (List Char) :=
  match getgrent restarts s with
  | none => .inr (some s.file)
  | some (grp, s) =>
      if isOnList userGroups grp.name then
        match grDup (no s.calls) grp with
        | none => .inr none
        | some ngrp =>
            .inl
              { file := grUpdate s.file { ngrp with mem := addList ngrp.mem user }
                stream := none
                calls := s.calls + 1 }
      else .inl s

def grpUpdate (fuel : ℕ) (file : List Char) : Option (Option (List Char)) :=
  Machine.run (grpStep restarts no user userGroups) fuel ⟨file, some (getgrents file), 0⟩

end

/-- The members but for the user. -/
def others (user : String) (mem : List String) : List String :=
  mem.filter fun member => member ≠ user

/-- What is to become of a group: if it is named, the user is listed once among
the others, otherwise it stays as it is. -/
def Added (user : String) (userGroups : List String) (g g' : Group) : Prop :=
  if g.name ∈ userGroups then
    g'.name = g.name ∧ g'.passwd = g.passwd ∧ g'.gid = g.gid ∧
      others user g'.mem = others user g.mem ∧ g'.mem.count user = 1
  else g' = g

section

variable {restarts : Bool} {no : ℕ → Int} {user : String} {userGroups : List String}
  {file : List Char} {db front back rest : List Group} {g copy : Group} {fuel calls : ℕ}

theorem others_addList (list : List String) :
    others user (addList list user) = others user list := by
  rw [addList]
  split
  · rfl
  · simp [others, List.filter_append]

theorem count_addList (list : List String) :
    (addList list user).count user = 1 ↔ list.count user ≤ 1 := by
  rw [addList]
  split
  · next hmem => exact ⟨fun heq => Nat.le_of_eq heq, fun hle =>
      Nat.le_antisymm hle (List.count_pos_iff.mpr hmem)⟩
  · next hmem => simp [List.count_eq_zero_of_not_mem hmem]

/-- Groups that are not named are passed. -/
theorem run_pass (hfront : ∀ x ∈ front, x.name ∉ userGroups) (fuel : ℕ) :
    Machine.run (grpStep restarts no user userGroups) (front.length + fuel)
        ⟨file, some (front ++ rest), calls⟩ =
      Machine.run (grpStep restarts no user userGroups) fuel ⟨file, some rest, calls⟩ := by
  induction front with
  | nil => rw [List.length_nil, Nat.zero_add, List.nil_append]
  | cons x front ih =>
      have hx : isOnList userGroups x.name = false := by
        simpa [isOnList] using hfront x List.mem_cons_self
      have hstep : grpStep restarts no user userGroups
          ⟨file, some (x :: (front ++ rest)), calls⟩ =
            .inl ⟨file, some (front ++ rest), calls⟩ := by
        simp [grpStep, getgrent, hx]
      rw [List.length_cons, Nat.add_right_comm, Machine.run, List.cons_append, hstep]
      exact ih fun y hy => hfront y (List.mem_cons_of_mem x hy)

/-- Without a group that is named the file stays as it is. -/
theorem grpUpdate_unnamed (hnone : ∀ x ∈ getgrents file, x.name ∉ userGroups) :
    grpUpdate restarts no user userGroups ((getgrents file).length + 1) file =
      some (some file) := by
  have hpass : Machine.run (grpStep restarts no user userGroups) ((getgrents file).length + 1)
      ⟨file, some (getgrents file ++ []), 0⟩ = _ := run_pass hnone 1
  rw [List.append_nil] at hpass
  rw [grpUpdate, hpass]
  rfl

theorem grDup_eq_some {no : Int} :
    grDup no g = some copy ↔
      (0 ≤ no + g.mem.length ∧ no ≤ 0) ∧
        copy = { g with mem := g.mem.take (no + g.mem.length).toNat } := by
  have hbounds : (0 ≤ no + g.mem.length ∧ no + g.mem.length ≤ g.mem.length) ↔
      0 ≤ no + g.mem.length ∧ no ≤ 0 := by omega
  rw [grDup, ← hbounds, Option.ite_none_right_eq_some, Option.some.injEq, eq_comm (a := copy)]

/-- The copy of a group that was read, with the user in it. -/
theorem clean_copy {no : Int} (huser : IsMember user) (hg : g.Clean)
    (hcopy : grDup no g = some copy) :
    Group.Clean { copy with mem := addList copy.mem user } := by
  obtain ⟨_, rfl⟩ := grDup_eq_some.mp hcopy
  refine ⟨hg.name, hg.passwd, fun member hmember => ?_⟩
  have hmember' : member ∈ addList (g.mem.take (no + g.mem.length).toNat) user := hmember
  rw [addList] at hmember'
  split at hmember'
  · exact hg.mem member (List.mem_of_mem_take hmember')
  · rcases List.mem_append.mp hmember' with hold | hnew
    · exact hg.mem member (List.mem_of_mem_take hold)
    · rwa [List.mem_singleton.mp hnew]

/-- A clean group that is printed among those of the file is read back among them. -/
theorem getgrents_grUpdate (hcopy : copy.Clean) :
    getgrents (grUpdate file copy) = newGroups (getgrents file) copy := by
  apply getgrents_groupTexts
  intro g hg
  rcases Keyed.mem_of_mem_update hg with rfl | hold
  · exact hcopy
  · exact clean_of_mem_getgrents hold

/-- A group that is named is still to come, and would be again. -/
structure Named (userGroups : List String) (s : Scan) : Prop where
  again : ∃ g ∈ getgrents s.file, g.name ∈ userGroups
  still : ∃ g ∈ s.stream.getD (getgrents s.file), g.name ∈ userGroups
  clean : ∀ g ∈ s.stream.getD (getgrents s.file), g.Clean

/-- If the C library starts again, the group that has just been changed is found
again. -/
theorem grpStep_named (huser : IsMember user) {s : Scan} (hnamed : Named userGroups s) :
    (∃ s', grpStep true no user userGroups s = .inl s' ∧ Named userGroups s') ∨
      grpStep true no user userGroups s = .inr none := by
  obtain ⟨hdb, ⟨g, hg, hname⟩, hclean⟩ := hnamed
  obtain ⟨file, stream, calls⟩ := s
  have hopen : stream.or (some (getgrents file)) = some (stream.getD (getgrents file)) := by
    cases stream <;> rfl
  dsimp only at hg hdb hclean
  rw [grpStep, getgrent]
  dsimp only
  rw [if_pos rfl, hopen]
  generalize stream.getD (getgrents file) = list at hg hclean
  cases list with
  | nil => cases hg
  | cons x rest =>
      dsimp only
      by_cases hx : x.name ∈ userGroups
      · rw [if_pos (by simpa [isOnList] using hx)]
        rcases hcopy : grDup (no calls) x with _ | copy
        · exact .inr rfl
        · have hsame : copy.name = x.name := by
            obtain ⟨_, rfl⟩ := grDup_eq_some.mp hcopy
            rfl
          have hagain : ∃ g ∈ getgrents
              (grUpdate file { copy with mem := addList copy.mem user }),
                g.name ∈ userGroups := by
            rw [getgrents_grUpdate (clean_copy huser (hclean x List.mem_cons_self) hcopy)]
            exact ⟨_, Keyed.mem_update, hsame ▸ hx⟩
          exact .inl ⟨_, rfl, hagain, hagain, fun g hg => clean_of_mem_getgrents hg⟩
      · rw [if_neg (by simpa [isOnList] using hx)]
        refine .inl ⟨_, rfl, hdb, ⟨g, ?_, hname⟩,
          fun g hg => hclean g (List.mem_cons_of_mem x hg)⟩
        cases hg with
        | head => exact absurd hname hx
        | tail _ hg => exact hg

theorem run_named (huser : IsMember user) (fuel : ℕ) {s : Scan} (hnamed : Named userGroups s)
    (after : List Char) :
    Machine.run (grpStep true no user userGroups) fuel s ≠ some (some after) := by
  induction fuel generalizing s with
  | zero =>
      intro hrun
      cases hrun
  | succ fuel ih =>
      rw [Machine.run]
      obtain ⟨s', hstep, hnamed'⟩ | hstep := grpStep_named huser hnamed
      · rw [hstep]
        exact ih hnamed'
      · rw [hstep]
        intro hrun
        cases hrun

/-- If the C library does not start again, only the first group that is named is
changed. -/
theorem grpUpdate_first (hdb : getgrents file = front ++ g :: back)
    (hfront : ∀ x ∈ front, x.name ∉ userGroups) (hg : g.name ∈ userGroups) :
    grpUpdate false no user userGroups (front.length + 2) file =
      some ((grDup (no 0) g).map fun ngrp =>
        grUpdate file { ngrp with mem := addList ngrp.mem user }) := by
  have hlisted : isOnList userGroups g.name = true := by
    simpa [isOnList] using hg
  rw [grpUpdate, hdb, run_pass hfront, Machine.run]
  rcases hcopy : grDup (no 0) g with _ | copy
  · simp [grpStep, getgrent, hlisted, hcopy]
  · simp [grpStep, getgrent, hlisted, hcopy, Machine.run]

theorem exists_first (userGroups : List String) (db : List Group) :
    (∀ x ∈ db, x.name ∉ userGroups) ∨ ∃ front g back, db = front ++ g :: back ∧
      (∀ x ∈ front, x.name ∉ userGroups) ∧ g.name ∈ userGroups := by
  rcases hfind : db.find? (fun x => x.name ∈ userGroups) with _ | g
  · exact .inl fun x hx => by simpa using List.find?_eq_none.mp hfind x hx
  · obtain ⟨hg, front, back, hdb, hfront⟩ := List.find?_eq_some_iff_append.mp hfind
    exact .inr ⟨front, g, back, hdb, fun x hx => by simpa using hfront x hx, by simpa using hg⟩

/-- What is needed of the group `g` that is changed: its copy is complete but for
the user, and every other entry is as it is to be, those with its gid as its
copies. -/
structure Suffices (no : Int) (user : String) (userGroups : List String) (db : List Group)
    (g : Group) : Prop where
  counter : 0 ≤ no + g.mem.length ∧ no ≤ 0
  others_eq : others user (g.mem.take (no + g.mem.length).toNat) = others user g.mem
  count_le : (g.mem.take (no + g.mem.length).toNat).count user ≤ 1
  same : ∀ x ∈ db, x.gid = g.gid →
    x.name = g.name ∧ x.passwd = g.passwd ∧ others user x.mem = others user g.mem
  listed : ∀ x ∈ db, x.gid ≠ g.gid → x.name ∈ userGroups → x.mem.count user = 1

theorem forall₂_newGroups {r : Group → Group → Prop} (copy : Group) (hg : g ∈ db)
    (hgid : copy.gid = g.gid) :
    List.Forall₂ r db (newGroups db copy) ↔
      ∀ x ∈ db, r x (if x.gid = g.gid then copy else x) := by
  rw [newGroups, Keyed.update_of_old ⟨g, hg, hgid.symm⟩, List.forall₂_map_right_iff,
    List.forall₂_same, hgid]

/-- For the copy of the first group that is named. -/
theorem added_iff_suffices {no : Int} (hg : g ∈ db) (hname : g.name ∈ userGroups)
    (hcopy : grDup no g = some copy) :
    List.Forall₂ (Added user userGroups) db
        (newGroups db { copy with mem := addList copy.mem user }) ↔
      Suffices no user userGroups db g := by
  obtain ⟨hcounter, rfl⟩ := grDup_eq_some.mp hcopy
  refine (forall₂_newGroups { g with mem := addList _ user } hg rfl).trans ?_
  constructor
  · intro hadded
    have hchanged : ∀ x ∈ db, x.gid = g.gid → x.name ∈ userGroups ∧ x.name = g.name ∧
        x.passwd = g.passwd ∧
          others user (g.mem.take (no + g.mem.length).toNat) = others user x.mem ∧
            (g.mem.take (no + g.mem.length).toNat).count user ≤ 1 := by
      intro x hx hgid
      have hx' := hadded x hx
      rw [if_pos hgid, Added] at hx'
      split at hx'
      · next hnamed =>
          obtain ⟨hname', hpasswd, _, hothers, hcount⟩ := hx'
          rw [others_addList] at hothers
          rw [count_addList] at hcount
          exact ⟨hnamed, hname'.symm, hpasswd.symm, hothers, hcount⟩
      · next hnamed =>
          have hsame : g.name = x.name := by rw [← hx']
          exact absurd (hsame ▸ hname) hnamed
    obtain ⟨_, _, _, hothers, hcount⟩ := hchanged g hg rfl
    refine ⟨hcounter, hothers, hcount, ?_, ?_⟩
    · intro x hx hgid
      obtain ⟨_, hname', hpasswd, hothers', _⟩ := hchanged x hx hgid
      exact ⟨hname', hpasswd, hothers'.symm.trans hothers⟩
    · intro x hx hgid hnamed
      have hx' := hadded x hx
      rw [if_neg hgid, Added, if_pos hnamed] at hx'
      exact hx'.2.2.2.2
  · intro hsuffices x hx
    by_cases hgid : x.gid = g.gid
    · obtain ⟨hname', hpasswd, hothers⟩ := hsuffices.same x hx hgid
      rw [if_pos hgid, Added, if_pos (hname' ▸ hname)]
      refine ⟨hname'.symm, hpasswd.symm, hgid.symm, ?_,
        (count_addList _).mpr hsuffices.count_le⟩
      rw [others_addList, hothers]
      exact hsuffices.others_eq
    · rw [if_neg hgid, Added]
      split
      · next hnamed => exact ⟨rfl, rfl, rfl, rfl, hsuffices.listed x hx hgid hnamed⟩
      · rfl

theorem grpUpdate_result_unique {fuel' : ℕ} {result result' : Option (List Char)}
    (hrun : grpUpdate restarts no user userGroups fuel file = some result)
    (hrun' : grpUpdate restarts no user userGroups fuel' file = some result') :
    result = result' := Machine.run_unique hrun hrun'

theorem exists_of_forall₂ {r : Group → Group → Prop} {after : List Group}
    (hall : List.Forall₂ r db after) (hg : g ∈ db) : ∃ g' ∈ after, r g g' := by
  induction hall with
  | nil => cases hg
  | cons hfirst _ ih =>
      cases hg with
      | head => exact ⟨_, List.mem_cons_self, hfirst⟩
      | tail _ hg =>
          obtain ⟨g', hg', hrel⟩ := ih hg
          exact ⟨g', List.mem_cons_of_mem _ hg', hrel⟩

/-- A user that is read as a member of a group can be one. -/
theorem isMember_of_added {after : List Char} (hg : g ∈ db) (hname : g.name ∈ userGroups)
    (hadded : List.Forall₂ (Added user userGroups) db (getgrents after)) : IsMember user := by
  obtain ⟨g', hg', hadd⟩ := exists_of_forall₂ hadded hg
  rw [Added, if_pos hname] at hadd
  obtain ⟨_, _, _, _, hcount⟩ := hadd
  have hmem : user ∈ g'.mem := List.count_pos_iff.mp (by rw [hcount]; exact Nat.one_pos)
  exact (clean_of_mem_getgrents hg').mem user hmem

/-- `grp_update` ends with the user in the groups that are named, and nothing else
changed, exactly if none is named, or the C library does not start again, the name of the
user can stand in a list of members, and it is enough to change the first group. -/
theorem grpUpdate_adds_iff (restarts : Bool) (no : ℕ → Int) (user : String)
    (userGroups : List String) (file : List Char) :
    (∃ fuel after, grpUpdate restarts no user userGroups fuel file = some (some after) ∧
        List.Forall₂ (Added user userGroups) (getgrents file) (getgrents after)) ↔
      (∀ x ∈ getgrents file, x.name ∉ userGroups) ∨
        restarts = false ∧ IsMember user ∧ ∃ front g back,
          getgrents file = front ++ g :: back ∧ (∀ x ∈ front, x.name ∉ userGroups) ∧
            g.name ∈ userGroups ∧ Suffices (no 0) user userGroups (getgrents file) g := by
  constructor
  · rintro ⟨fuel, after, hrun, hadded⟩
    refine (exists_first userGroups (getgrents file)).imp_right ?_
    rintro ⟨front, g, back, hdb, hfront, hname⟩
    have hmem : g ∈ getgrents file := by simp [hdb]
    have huser := isMember_of_added hmem hname hadded
    cases restarts with
    | true =>
        have hnamed : Named userGroups ⟨file, some (getgrents file), 0⟩ :=
          ⟨⟨g, hmem, hname⟩, ⟨g, hmem, hname⟩, fun _ hg => clean_of_mem_getgrents hg⟩
        exact absurd hrun (run_named huser fuel hnamed after)
    | false =>
        refine ⟨rfl, huser, front, g, back, hdb, hfront, hname, ?_⟩
        have hresult := grpUpdate_result_unique hrun (grpUpdate_first hdb hfront hname)
        obtain ⟨copy, hcopy, rfl⟩ := Option.map_eq_some_iff.mp hresult.symm
        rw [getgrents_grUpdate (clean_copy huser (clean_of_mem_getgrents hmem) hcopy)] at hadded
        exact (added_iff_suffices hmem hname hcopy).mp hadded
  · rintro (hnone | ⟨rfl, huser, front, g, back, hdb, hfront, hname, hsuffices⟩)
    · refine ⟨_, _, grpUpdate_unnamed hnone, List.forall₂_same.mpr fun x hx => ?_⟩
      rw [Added, if_neg (hnone x hx)]
    · have hmem : g ∈ getgrents file := by simp [hdb]
      have hcopy := grDup_eq_some.mpr ⟨hsuffices.counter, rfl⟩
      have hrun : grpUpdate false no user userGroups (front.length + 2) file = _ :=
        grpUpdate_first hdb hfront hname
      rw [hcopy] at hrun
      refine ⟨_, _, hrun, ?_⟩
      rw [getgrents_grUpdate (clean_copy huser (clean_of_mem_getgrents hmem) hcopy)]
      exact (added_iff_suffices hmem hname hcopy).mpr hsuffices

end

/-- Two groups that the user is to be added to. -/
def wheelAndMail : List Char := "wheel:!:10:\nmail:!:12:root\n".toList

/-- However the C library takes it, and if the counter happens to be zero: the user
is not added to both groups. -/
theorem grpUpdate_wheelAndMail :
    ¬ ∃ restarts fuel after,
      grpUpdate restarts (fun _ => 0) "joe" ["wheel", "mail"] fuel wheelAndMail =
          some (some after) ∧
        List.Forall₂ (Added "joe" ["wheel", "mail"]) (getgrents wheelAndMail)
          (getgrents after) := by
  have hread : getgrents wheelAndMail =
      [⟨"wheel", "!", 10, []⟩, ⟨"mail", "!", 12, ["root"]⟩] := by decide
  have huser : IsMember "joe" := ⟨by decide, by decide, by decide⟩
  rintro ⟨restarts, fuel, after, hrun, hadded⟩
  cases restarts with
  | false =>
      have hfirst : grpUpdate false (fun _ => 0) "joe" ["wheel", "mail"] 2 wheelAndMail =
          some (some "wheel:!:10:joe\nmail:!:12:root\n".toList) := by decide
      cases grpUpdate_result_unique hrun hfirst
      have hread' : getgrents "wheel:!:10:joe\nmail:!:12:root\n".toList =
          [⟨"wheel", "!", 10, ["joe"]⟩, ⟨"mail", "!", 12, ["root"]⟩] := by decide
      rw [hread, hread'] at hadded
      cases hadded with
      | cons _ hmail =>
          cases hmail with
          | cons hmail _ => exact absurd hmail.2.2.2.2 (by decide)
  | true =>
      have hnamed : Named ["wheel", "mail"] ⟨wheelAndMail, some (getgrents wheelAndMail), 0⟩ := by
        have hmem : ∃ g ∈ getgrents wheelAndMail, g.name ∈ ["wheel", "mail"] := by
          rw [hread]
          exact ⟨_, List.mem_cons_self, List.mem_cons_self⟩
        exact ⟨hmem, hmem, fun _ hg => clean_of_mem_getgrents hg⟩
      exact run_named huser fuel hnamed after hrun

end Fip.Useradd
