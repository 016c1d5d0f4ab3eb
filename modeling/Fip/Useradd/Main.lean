import Fip.Useradd.Flags
import Fip.Useradd.Groups

/-!
# Adding a user

The main program of `useradd`, and the uid that it chooses for the new user.
-/

namespace Fip.Useradd

/-- The texts of `/etc/passwd` and `/etc/group`. -/
structure Files where
  passwd : List Char
  group : List Char

/-- What the program finds: the account files, the lines of the defaults file, how many
groups a user may have, how the C library takes a closed group database, what the
counter of `gr_dup` holds, whether a home directory is there, and whether one can be
made. -/
structure System where
  files : Files
  defaults : List String
  sysNgroups : ℕ
  restarts : Bool
  no : ℕ → Int
  access : String → Bool
  mkdir : String → Bool

/-- How a run ends: by `exit`, with `-D` after the defaults were shown or set, or
at the end of `main`. -/
inductive Outcome where
  | exit (code : ℕ)
  | defaults
  | success (files : Files)

def newPwent (s : Settings) : Passwd where
  name := s.userName
  passwd := s.userPass
  uid := s.userId
  gid := s.userGid
  gecos := s.userComment
  dir := s.userHome
  shell := s.userShell

def newGrent (s : Settings) : Group where
  name := s.userName
  passwd := "!"
  gid := s.userGid
  mem := []

/-- The uid of the new user: it is found if it is not given, and has to be new
without `-o`. -/
def chooseUid (db : List Passwd) (s : Settings) : Except ℕ Settings :=
  if s.oflg then .ok s
  else if s.uflg then
    if (getpwuid db s.userId).isSome then .error eUidInUse else .ok s
  else .ok { s with userId := findNewUid db }

/-- The group of the new user. -/
def grpAdd (file : List Char) (s : Settings) : List Char × Settings :=
  if s.Uflg then
    let s := { s with userGid := findNewGid (getgrents file), doGrpUpdate := true }
    (grUpdate file (newGrent s), s)
  else (file, s)

/-- The entries of the user; there may be no end of it. -/
def usrUpdate (sys : System) (fuel : ℕ) (files : Files) (s : Settings) : Option Files :=
  let passwd := pwUpdate files.passwd (newPwent s)
  if s.doGrpUpdate then
    (grpUpdate sys.restarts sys.no s.userName s.userGroups fuel files.group).bind fun result =>
      result.map fun group => ⟨passwd, group⟩
  else some ⟨passwd, files.group⟩

def createHome (sys : System) (files : Files) (s : Settings) : Outcome :=
  if s.mflg ∧ sys.access s.userHome = false ∧ sys.mkdir s.userHome = false then
    .exit eHomedir
  else .success files

/-- The program behind `process_flags`. -/
def addUser (sys : System) (fuel : ℕ) (s : Settings) : Option Outcome :=
  if s.Dflg then some .defaults
  else if (getpwnam (getpwents sys.files.passwd) s.userName).isSome then
    some (.exit eNameInUse)
  else if s.Uflg ∧ (xgetgrnam (getgrents sys.files.group) s.userName).isSome then
    some (.exit eNameInUse)
  else
    match chooseUid (getpwents sys.files.passwd) s with
    | .error code => some (.exit code)
    | .ok s =>
        let (group, s) := grpAdd sys.files.group s
        (usrUpdate sys fuel ⟨sys.files.passwd, group⟩ s).map fun files => createHome sys files s

def main (sys : System) (fuel : ℕ) (opts : List (Char × String)) (operands : List String) :
    Option Outcome :=
  let groups := getgrents sys.files.group
  match processFlags groups sys.sysNgroups (getDefaults groups sys.defaults) opts operands with
  | .error code => some (.exit code)
  | .ok s => addUser sys fuel s

/-- The uid that the options give, the last one if there are several. -/
def givenUid (opts : List (Char × String)) : Option UInt16 :=
  opts.foldl (fun given opt => if opt.1 = 'u' then getUid opt.2 else given) none

/-- The uid of the new user is not in use: neither is one that is given with `-o`,
nor are both the last uid and zero if none is given. -/
def UidFree (opts : List (Char × String)) (db : List Passwd) : Prop :=
  match givenUid opts with
  | some uid => 'o' ∈ opts.map Prod.fst → ∀ e ∈ db, e.uid ≠ uid
  | none => ¬ ((∃ e ∈ db, e.uid = 65535) ∧ ∃ e ∈ db, e.uid = 0)

section

variable {db : List Group} {sysNgroups : ℕ} {s t : Settings} {opt : Char × String}
  {opts : List (Char × String)} {operands : List String} {sys : System} {fuel : ℕ}
  {after : Files} {users : List Passwd}

/-- What the options say about the uid. -/
def UidFlags (opts : List (Char × String)) (s : Settings) : Prop :=
  s.oflg = decide ('o' ∈ opts.map Prod.fst) ∧ s.uflg = (givenUid opts).isSome ∧
    ∀ uid, givenUid opts = some uid → s.userId = uid

theorem processOption_uid (hok : processOption db sysNgroups s opt = .ok t) :
    t.oflg = (s.oflg || decide (opt.1 = 'o')) ∧
      (opt.1 = 'u' → getUid opt.2 = some t.userId ∧ t.uflg = true) ∧
      (opt.1 ≠ 'u' → t.userId = s.userId ∧ t.uflg = s.uflg) := by
  unfold processOption at hok
  split at hok
  all_goals
    repeat' split at hok
    all_goals
      cases hok
      try simp_all

theorem uidFlags_concat (hflags : UidFlags opts s)
    (hok : processOption db sysNgroups s opt = .ok t) : UidFlags (opts ++ [opt]) t := by
  obtain ⟨hoflg, hu, hother⟩ := processOption_uid hok
  obtain ⟨hsoflg, hsuflg, hsuid⟩ := hflags
  have hgiven : givenUid (opts ++ [opt]) =
      if opt.1 = 'u' then getUid opt.2 else givenUid opts := by
    rw [givenUid, List.foldl_concat]
    rfl
  refine ⟨?_, ?_, ?_⟩
  · rw [hoflg, hsoflg, List.map_append, ← Bool.decide_or]
    exact decide_eq_decide.mpr (by simp [eq_comm])
  · rw [hgiven]
    split
    · next heq =>
        rw [(hu heq).1, (hu heq).2]
        rfl
    · next hne => rw [(hother hne).2, hsuflg]
  · intro uid huid
    rw [hgiven] at huid
    split at huid
    · next heq =>
        rw [(hu heq).1] at huid
        exact Option.some.inj huid
    · next hne => rw [(hother hne).1, hsuid uid huid]

theorem uidFlags_of_options (hs : UidFlags [] s)
    (hok : opts.foldlM (processOption db sysNgroups) s = .ok t) : UidFlags opts t :=
  options_induct hs (fun _ _ _ _ => uidFlags_concat) hok

theorem getDefault_uid (s : Settings) (line : String) :
    (getDefault db s line).oflg = s.oflg ∧ (getDefault db s line).uflg = s.uflg := by
  unfold getDefault
  repeat' split
  all_goals exact ⟨rfl, rfl⟩

theorem getDefaults_uid (lines : List String) : UidFlags [] (getDefaults db lines) := by
  have hkeeps : ∀ (lines : List String) (s : Settings),
      (lines.foldl (getDefault db) s).oflg = s.oflg ∧
        (lines.foldl (getDefault db) s).uflg = s.uflg := by
    intro lines
    induction lines with
    | nil => exact fun s => ⟨rfl, rfl⟩
    | cons line lines ih =>
        intro s
        obtain ⟨hoflg, huflg⟩ := ih (getDefault db s line)
        exact ⟨hoflg.trans (getDefault_uid s line).1, huflg.trans (getDefault_uid s line).2⟩
  obtain ⟨hoflg, huflg⟩ := hkeeps lines {}
  exact ⟨hoflg, huflg, nofun⟩

theorem takeName_uid (hok : takeName s operands = .ok t) :
    t.oflg = s.oflg ∧ t.uflg = s.uflg ∧ t.userId = s.userId ∧
      (t.Dflg = false → operands = [t.userName]) := by
  unfold takeName at hok
  split at hok
  · next hdefaults =>
      split at hok
      · cases hok
      · split at hok
        · cases hok
        · cases hok
          exact ⟨rfl, rfl, rfl, fun hnot => absurd (hdefaults.symm.trans hnot) (by decide)⟩
  · split at hok
    · cases hok
      exact ⟨rfl, rfl, rfl, fun _ => rfl⟩
    · cases hok

/-- The checks leave the uid as it is, and allow `-o` only where one is given. -/
theorem checkFlags_uid (hok : checkFlags s operands = .ok t) :
    t.oflg = s.oflg ∧ t.uflg = s.uflg ∧ t.userId = s.userId ∧
      (s.oflg = true → s.uflg = true) ∧ (t.Dflg = false → operands = [t.userName]) := by
  rw [checkFlags] at hok
  split at hok
  · cases hok
  · next hconflict =>
      have hneeds : s.oflg = true → s.uflg = true := by
        simp only [conflict, Bool.or_eq_true, not_or] at hconflict
        simpa using hconflict.1.1.1.1
      rcases hname : takeName { s with Uflg := s.Uflg || (!s.gflg && !s.Nflg && !s.Uflg) }
        operands with code | u
      · rw [hname] at hok
        cases hok
      · rw [hname] at hok
        cases hok
        obtain ⟨hoflg, huflg, huid, hone⟩ := takeName_uid hname
        exact ⟨hoflg, huflg, huid, hneeds, hone⟩

/-- The entry of the new user has the settings of the command line, the uid that was
chosen and some gid. -/
theorem newPwent_grpAdd (file : List Char) (hok : chooseUid users s = .ok t) :
    ∃ gid, newPwent (grpAdd file t).2 =
      newPwent { s with userId := t.userId, userGid := gid } := by
  have ht : newPwent t = newPwent { s with userId := t.userId, userGid := t.userGid } := by
    rw [chooseUid] at hok
    repeat' split at hok
    all_goals
      cases hok
      try rfl
  rw [grpAdd]
  split
  · exact ⟨findNewGid (getgrents file),
      congrArg (fun p : Passwd => { p with gid := findNewGid (getgrents file) }) ht⟩
  · exact ⟨t.userGid, ht⟩

theorem usrUpdate_passwd {files : Files} (hsome : usrUpdate sys fuel files s = some after) :
    after.passwd = pwUpdate files.passwd (newPwent s) := by
  rw [usrUpdate] at hsome
  split at hsome
  · obtain ⟨result, _, hresult⟩ := Option.bind_eq_some_iff.mp hsome
    obtain ⟨group, _, rfl⟩ := Option.map_eq_some_iff.mp hresult
    rfl
  · cases hsome
    rfl

theorem createHome_success {files : Files} (hsuccess : createHome sys files s = .success after) :
    after = files := by
  rw [createHome] at hsuccess
  split at hsuccess
  · cases hsuccess
  · cases hsuccess
    rfl

/-- A run that comes to its end has printed the new user, whose name is new, among the
users of the file. -/
theorem addUser_success (hadd : addUser sys fuel s = some (.success after)) :
    s.Dflg = false ∧ (∀ e ∈ getpwents sys.files.passwd, e.name ≠ s.userName) ∧
      ∃ t gid, chooseUid (getpwents sys.files.passwd) s = .ok t ∧
        after.passwd = pwUpdate sys.files.passwd
          (newPwent { s with userId := t.userId, userGid := gid }) := by
  rw [addUser] at hadd
  split at hadd
  · cases hadd
  next hDflg =>
  split at hadd
  · cases hadd
  next hname =>
  split at hadd
  · cases hadd
  rcases hchoose : chooseUid (getpwents sys.files.passwd) s with code | t
  · rw [hchoose] at hadd
    cases hadd
  · rw [hchoose] at hadd
    have hrun : (usrUpdate sys fuel ⟨sys.files.passwd, (grpAdd sys.files.group t).1⟩
        (grpAdd sys.files.group t).2).map
          (fun files => createHome sys files (grpAdd sys.files.group t).2) =
        some (.success after) := hadd
    obtain ⟨files, hupdate, hhome⟩ := Option.map_eq_some_iff.mp hrun
    obtain ⟨gid, hentry⟩ := newPwent_grpAdd sys.files.group hchoose
    refine ⟨Bool.eq_false_iff.mpr hDflg, ?_, t, gid, rfl, ?_⟩
    · simpa [getpwnam] using hname
    · have hpasswd := usrUpdate_passwd hupdate
      rw [createHome_success hhome, hpasswd, hentry]

/-- The uid that was chosen is not in use in just these cases. -/
theorem chooseUid_free_iff {db : List Passwd} (hflags : UidFlags opts s)
    (hneeds : s.oflg = true → s.uflg = true) (hok : chooseUid db s = .ok t) :
    (∀ e ∈ db, e.uid ≠ t.userId) ↔ UidFree opts db := by
  obtain ⟨hoflg, huflg, huid⟩ := hflags
  rw [chooseUid] at hok
  rcases hgiven : givenUid opts with _ | uid
  · have hnotu : s.uflg = false := by rw [huflg, hgiven]; rfl
    have hnoto : s.oflg = false := by
      rcases ho : s.oflg with _ | _
      · rfl
      · rw [← hnotu, hneeds ho]
    rw [hnoto, hnotu] at hok
    cases hok
    rw [UidFree, hgiven]
    exact findNewUid_free_iff
  · have hu : s.uflg = true := by rw [huflg, hgiven]; rfl
    rw [hu] at hok
    rw [UidFree, hgiven, ← huid uid hgiven]
    rcases ho : s.oflg with _ | _
    · -- without `-o` a uid that is in use ends the program
      rw [ho] at hok hoflg
      have hnoto : 'o' ∉ opts.map Prod.fst := of_decide_eq_false hoflg.symm
      rw [if_neg Bool.false_ne_true, if_pos rfl] at hok
      rcases hsome : (getpwuid db s.userId).isSome with _ | _
      · rw [hsome] at hok
        cases hok
        have hfree : ∀ e ∈ db, e.uid ≠ s.userId := by
          simpa [getpwuid] using hsome
        exact iff_of_true hfree fun hmem => absurd hmem hnoto
      · rw [hsome] at hok
        cases hok
    · rw [ho] at hok hoflg
      cases hok
      exact ⟨fun hfree _ => hfree, fun hfree => hfree (of_decide_eq_true hoflg.symm)⟩

end

end Fip.Useradd
