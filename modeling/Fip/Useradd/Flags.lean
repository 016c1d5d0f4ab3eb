import Fip.Useradd.Database
import Mathlib.Algebra.Group.Int.Defs
import Mathlib.Data.List.Induction

/-!
# The options of `useradd`

The settings that `get_defaults` takes from the defaults file and
`process_flags` from the command line.  `getopt` is not part of the program: an
option is the character that it returns with its argument.
-/

namespace Fip.Useradd

/-- The static variables. -/
structure Settings where
  defGroup : UInt16 := 100
  defHome : String := "/home"
  defShell : String := "/bin/sh"
  defTemplate : String := "/etc/skel"
  defCreateMailSpool : String := "no"
  userName : String := ""
  userPass : String := "!"
  userId : UInt16 := 0
  userGid : UInt16 := 0
  userComment : String := ""
  userHome : String := ""
  userShell : String := ""
  createMailSpool : String := ""
  userGroups : List String := []
  doGrpUpdate : Bool := false
  bflg : Bool := false
  cflg : Bool := false
  dflg : Bool := false
  Dflg : Bool := false
  gflg : Bool := false
  Gflg : Bool := false
  kflg : Bool := false
  lflg : Bool := false
  mflg : Bool := false
  Mflg : Bool := false
  Nflg : Bool := false
  oflg : Bool := false
  rflg : Bool := false
  sflg : Bool := false
  uflg : Bool := false
  Uflg : Bool := false
  anyflag : Bool := false

def eUsage : ℕ := 2
def eBadArg : ℕ := 3
def eUidInUse : ℕ := 4
def eNotfound : ℕ := 6
def eNameInUse : ℕ := 9
def eHomedir : ℕ := 12

/-- `strtol` in base 10, where it takes all of the string and it is in the range of
a `long`. -/
def strtol (s : String) : Option Int :=
  let s := s.toList.dropWhile fun c => c ∈ [' ', '\t', '\n', '\x0b', '\x0c', '\r']
  let (sign, s) : Int × List Char := match s with
    | '-' :: s => (-1, s)
    | '+' :: s => (1, s)
    | s => (1, s)
  let value := sign * (s.foldl (fun n c => n * 10 + (c.toNat - 48)) 0 : ℕ)
  if s ≠ [] ∧ s.all Char.isDigit ∧ -2 ^ 31 ≤ value ∧ value < 2 ^ 31 then some value else none

/-- An `int` is as wide as a uid, so that the conversion is not noticed. -/
def getUid (uidstr : String) : Option UInt16 :=
  (strtol uidstr).map UInt16.ofInt

def getgrNamGid (db : List Group) (grname : String) : Option Group :=
  match strtol grname with
  | some gid =>
      if 0 ≤ gid ∧ gid < 65536 then xgetgrgid db (UInt16.ofInt gid) else xgetgrnam db grname
  | none => xgetgrnam db grname

/-- `VALID` -/
def valid (s : String) : Bool :=
  s.toList.all fun c => c ≠ ':' ∧ c ≠ '\n'

/-- `MATCH`, and what stands behind it. -/
def afterPrefix (buf front : String) : Option String :=
  if front.toList.isPrefixOf buf.toList then
    some (String.ofList (buf.toList.drop front.length))
  else none

/-- A line of the defaults file. -/
def getDefault (db : List Group) (s : Settings) (buf : String) : Settings :=
  match afterPrefix buf "GROUP=" with
  | some cp =>
      match getgrNamGid db cp with
      | none => s
      | some grp => { s with defGroup := grp.gid }
  | none =>
  match afterPrefix buf "HOME=" with
  | some cp => { s with defHome := cp }
  | none =>
  match afterPrefix buf "SHELL=" with
  | some cp => { s with defShell := cp }
  | none =>
  match afterPrefix buf "SKEL=" with
  | some cp => { s with defTemplate := if cp = "" then "/etc/skel" else cp }
  | none =>
  match afterPrefix buf "CREATE_MAIL_SPOOL=" with
  | some cp => { s with defCreateMailSpool := if cp = "" then "no" else cp }
  | none => s

def getDefaults (db : List Group) (lines : List String) : Settings :=
  lines.foldl (getDefault db) {}

/-- The loop of `get_groups` over the names between the commas: the names of the
groups that exist, up to `sys_ngroups`, and how many do not. -/
def groupNames (db : List Group) (sysNgroups : ℕ) :
    List String → List String → ℕ → List String × ℕ
  | [], names, errors => (names, errors)
  | name :: rest, names, errors =>
      match getgrNamGid db name with
      | none => groupNames db sysNgroups rest names (errors + 1)
      | some grp =>
          if names.length = sysNgroups then (names, errors)
          else groupNames db sysNgroups rest (names ++ [grp.name]) errors

/-- The groups of the user, unless there are errors. -/
def getGroups (db : List Group) (sysNgroups : ℕ) (userGroups : List String) (list : String) :
    Option (List String) :=
  if list = "" then some userGroups
  else
    let names := (list.toList.splitOn ',').map String.ofList
    let (names, errors) := groupNames db sysNgroups names [] 0
    if errors = 0 then some names else none

/-- An option on the command line; `usage` and `exit` end the program with a
code. -/
def processOption (db : List Group) (sysNgroups : ℕ) (s : Settings) :
    Char × String → Except ℕ Settings
  | ('b', optarg) =>
      if valid optarg = false ∨ optarg.toList.head? ≠ some '/' then .error eBadArg
      else .ok { s with defHome := optarg, bflg := true, anyflag := true }
  | ('c', optarg) =>
      if valid optarg = false then .error eBadArg
      else .ok { s with userComment := optarg, cflg := true, anyflag := true }
  | ('d', optarg) =>
      if valid optarg = false ∨ optarg.toList.head? ≠ some '/' then .error eBadArg
      else .ok { s with userHome := optarg, dflg := true, anyflag := true }
  | ('D', _) =>
      if s.anyflag then .error eUsage else .ok { s with Dflg := true, anyflag := true }
  | ('g', optarg) =>
      match getgrNamGid db optarg with
      | none => .error eNotfound
      | some grp =>
          if s.Dflg then .ok { s with defGroup := grp.gid, gflg := true, anyflag := true }
          else .ok { s with userGid := grp.gid, gflg := true, anyflag := true }
  | ('G', optarg) =>
      match getGroups db sysNgroups s.userGroups optarg with
      | none => .error eNotfound
      | some groups =>
          .ok { s with
            userGroups := groups
            doGrpUpdate := s.doGrpUpdate || !groups.isEmpty
            Gflg := true
            anyflag := true }
  | ('h', _) => .error 0
  | ('k', optarg) => .ok { s with defTemplate := optarg, kflg := true, anyflag := true }
  | ('l', _) => .ok { s with lflg := true, anyflag := true }
  | ('m', _) => .ok { s with mflg := true, anyflag := true }
  | ('M', _) => .ok { s with Mflg := true, anyflag := true }
  | ('N', _) => .ok { s with Nflg := true, anyflag := true }
  | ('o', _) => .ok { s with oflg := true, anyflag := true }
  | ('p', optarg) =>
      if valid optarg = false then .error eBadArg
      else .ok { s with userPass := optarg, anyflag := true }
  | ('r', _) => .ok { s with rflg := true, anyflag := true }
  | ('R', _) => .ok { s with anyflag := true }
  | ('s', optarg) =>
      if valid optarg = false ∨ ¬ (optarg.toList.head? ∈ [none, some '/', some '*']) then
        .error eBadArg
      else
        .ok { s with userShell := optarg, defShell := optarg, sflg := true, anyflag := true }
  | ('u', optarg) =>
      match getUid optarg with
      | none => .error eBadArg
      | some uid =>
          if uid = 65535 then .error eBadArg
          else .ok { s with userId := uid, uflg := true, anyflag := true }
  | ('U', _) => .ok { s with Uflg := true, anyflag := true }
  | _ => .error eUsage

/-- Options that need or exclude one another. -/
def conflict (s : Settings) : Bool :=
  (s.oflg && !s.uflg) || (s.kflg && !s.mflg) || (s.Uflg && s.gflg) || (s.Uflg && s.Nflg) ||
    (s.mflg && s.Mflg)

/-- The login name, which there has to be without `-D`. -/
def takeName (s : Settings) (operands : List String) : Except ℕ Settings :=
  if s.Dflg then
    if operands ≠ [] then .error eUsage
    else if s.uflg || s.Gflg || s.dflg || s.cflg || s.mflg then .error eUsage
    else .ok s
  else
    match operands with
    | [name] =>
        .ok { s with
          userName := name
          userHome := if s.dflg then s.userHome else s.defHome ++ "/" ++ name }
    | _ => .error eUsage

def takeDefaults (s : Settings) : Settings :=
  { s with
    userGid := if s.gflg then s.userGid else s.defGroup
    userShell := if s.sflg then s.userShell else s.defShell
    createMailSpool := s.defCreateMailSpool
    mflg := (s.mflg || !s.rflg) && !s.Mflg }

/-- What comes behind the options. -/
def checkFlags (s : Settings) (operands : List String) : Except ℕ Settings :=
  let s := { s with Uflg := s.Uflg || (!s.gflg && !s.Nflg && !s.Uflg) }
  if conflict s then .error eUsage else (takeName s operands).map takeDefaults

def processFlags (db : List Group) (sysNgroups : ℕ) (s : Settings)
    (opts : List (Char × String)) (operands : List String) : Except ℕ Settings :=
  (opts.foldlM (processOption db sysNgroups) s).bind fun s => checkFlags s operands

section

variable {db : List Group} {sysNgroups : ℕ} {s t : Settings} {opts : List (Char × String)}
  {operands : List String}

/-- What holds at first and after one option more holds after all of them. -/
theorem options_induct {P : List (Char × String) → Settings → Prop} (hfirst : P [] s)
    (hstep : ∀ opts opt u v, P opts u → processOption db sysNgroups u opt = .ok v →
      P (opts ++ [opt]) v)
    (hok : opts.foldlM (processOption db sysNgroups) s = .ok t) : P opts t := by
  induction opts using List.reverseRecOn generalizing t with
  | nil =>
      cases hok
      exact hfirst
  | append_singleton opts opt ih =>
      rw [List.foldlM_append] at hok
      rcases hbefore : opts.foldlM (processOption db sysNgroups) s with code | u
      · rw [hbefore] at hok
        cases hok
      · rw [hbefore] at hok
        have hopt : processOption db sysNgroups u opt = .ok t := by
          rw [← hok]
          exact (bind_pure _).symm
        exact hstep opts opt u t (ih hbefore) hopt

/-- An accepted command line has accepted options. -/
theorem processFlags_ok (hok : processFlags db sysNgroups s opts operands = .ok t) :
    ∃ u, opts.foldlM (processOption db sysNgroups) s = .ok u ∧ checkFlags u operands = .ok t := by
  rw [processFlags] at hok
  rcases hoptions : opts.foldlM (processOption db sysNgroups) s with code | u
  · rw [hoptions] at hok
    cases hok
  · rw [hoptions] at hok
    exact ⟨u, rfl, hok⟩

end

end Fip.Useradd
