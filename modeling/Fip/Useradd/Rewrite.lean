import Fip.Core.Stdio
import Fip.Useradd.Files

/-!
# Writing the account files

The new database is printed to a temporary file, which then takes the place of the
old one.  No result of these calls is looked at, and the functions return -1, while
their callers take 0 for a failure.
-/

namespace Fip.Useradd

open Fip.Stdio

/-- An account file with the names it has during a change: itself, `.bak` and
`.tmp`. -/
structure Names where
  file : List Char
  bak : Option (List Char)
  tmp : Option (List Char)

/-- The account files in `/etc`. -/
structure Etc where
  passwd : Names
  group : Names

/-- The two `rename`s once the temporary file has this text. -/
def Names.commit (names : Names) (text : List Char) : Names :=
  ⟨text, some names.file, none⟩

/-- The loop over the old database, which prints the new entry in the place of those
with its key and notes this in `r`. -/
def rewriteLoop {α : Type} (faults : Faults) (key : α → UInt16) (put : α → List String)
    (entry : α) : List α → Stream → Bool → Stream × Bool
  | [], d, r => (d, r)
  | s :: db, d, r =>
      if key s = key entry then
        rewriteLoop faults key put entry db (fprintfs faults d (put entry)) true
      else rewriteLoop faults key put entry db (fprintfs faults d (put s)) r

/-- The body of both functions: what is returned, and the file afterwards.  Where the
temporary file cannot be opened, the first print goes to a null pointer. -/
def rewrite {α : Type} (faults : Faults) (key : α → UInt16) (put : α → List String)
    (db : List α) (entry : α) (names : Names) : Option (Int × Names) :=
  match fopen faults with
  | none => none
  | some d =>
      let (d, r) := rewriteLoop faults key put entry db d false
      let d := if r then d else fprintfs faults d (put entry)
      some (-1, names.commit (fclose faults d))

def grFileUpdate (faults : Faults) (db : List Group) (g : Group) (etc : Etc) :
    Option (Int × Etc) :=
  (rewrite faults Group.gid putGr db g etc.group).map fun (result, group) =>
    (result, { etc with group := group })

def pwFileUpdate (faults : Faults) (db : List Passwd) (p : Passwd) (etc : Etc) :
    Option (Int × Etc) :=
  (rewrite faults Passwd.uid putPw db p etc.passwd).map fun (result, passwd) =>
    (result, { etc with passwd := passwd })

/-! ## What the files should hold -/

/-- The account files have the same contents. -/
def Etc.Same (etc etc' : Etc) : Prop :=
  etc'.passwd.file = etc.passwd.file ∧ etc'.group.file = etc.group.file

/-- An update is safe: when something fails it changes no account file and returns
what its callers take for a failure, and an account file is only ever changed to the
complete new one. -/
structure Guarded (failed : Prop) (complete : Etc → Prop) (etc : Etc)
    (result : Option (Int × Etc)) : Prop where
  reported : failed → ∃ etc', result = some (0, etc') ∧ etc.Same etc'
  renamed : ∀ value etc', result = some (value, etc') → etc.Same etc' ∨ complete etc'

/-- The user file holds this database, and the group file is as it was. -/
def PasswdIs (db : List Passwd) (etc etc' : Etc) : Prop :=
  etc'.passwd.file = (passwdTexts db).flatMap String.toList ∧
    etc'.group.file = etc.group.file

def GroupIs (db : List Group) (etc etc' : Etc) : Prop :=
  etc'.group.file = (groupTexts db).flatMap String.toList ∧
    etc'.passwd.file = etc.passwd.file

section

variable {α : Type} {faults : Faults} {key : α → UInt16} {put : α → List String} {entry : α}

/-- The loop prints the database that `Keyed.rewrite` makes. -/
theorem rewriteLoop_eq (db : List α) (d : Stream) (r : Bool) :
    rewriteLoop faults key put entry db d r =
      (fprintfs faults d ((Keyed.rewrite key entry db).1.flatMap put),
        r || (Keyed.rewrite key entry db).2) := by
  induction db generalizing d r with
  | nil => simp [rewriteLoop, Keyed.rewrite, fprintfs]
  | cons s db ih =>
      rw [rewriteLoop]
      by_cases hkey : key s = key entry
      · simp only [Keyed.rewrite, if_pos hkey]
        rw [ih, List.flatMap_cons, fprintfs_append, Bool.true_or, Bool.or_true]
      · simp only [Keyed.rewrite, if_neg hkey]
        rw [ih, List.flatMap_cons, fprintfs_append]

/-- What is printed in all is the updated database. -/
theorem rewrite_eq (db : List α) (names : Names) :
    rewrite faults key put db entry names =
      (fopen faults).map fun d =>
        (-1, names.commit (fclose faults
          (fprintfs faults d ((Keyed.update key entry db).flatMap put)))) := by
  rw [rewrite]
  cases fopen faults with
  | none => rfl
  | some d =>
      simp only [rewriteLoop_eq, Bool.false_or, Option.map_some, Keyed.update]
      cases (Keyed.rewrite key entry db).2 with
      | true => rfl
      | false =>
          rw [if_neg Bool.false_ne_true, if_neg Bool.false_ne_true, List.flatMap_append,
            List.flatMap_singleton, fprintfs_append]

/-- Where nothing fails the file is the updated database, and what it was is in
`.bak`. -/
theorem rewrite_of_never (db : List α) (names : Names)
    (hnever : ¬ faults.Occur ((Keyed.update key entry db).flatMap put).length) :
    rewrite faults key put db entry names =
      some (-1, names.commit
        (((Keyed.update key entry db).flatMap put).flatMap String.toList)) := by
  obtain ⟨hopen, hclose⟩ := fclose_fprintfs hnever
  rw [rewrite_eq, hopen, Option.map_some, hclose]

/-- Whatever fails, a rewrite that returns says that it was done, and has put the old
file to `.bak`. -/
theorem rewrite_some {db : List α} {names names' : Names} {value : Int}
    (hrewrite : rewrite faults key put db entry names = some (value, names')) :
    value = -1 ∧ names'.bak = some names.file := by
  rw [rewrite_eq] at hrewrite
  obtain ⟨d, _, heq⟩ := Option.map_eq_some_iff.mp hrewrite
  cases heq
  exact ⟨rfl, rfl⟩

end

section

variable {faults : Faults} {etc : Etc}

theorem grFileUpdate_value {db : List Group} {g : Group} {value : Int} {etc' : Etc}
    (hupdate : grFileUpdate faults db g etc = some (value, etc')) : value = -1 := by
  obtain ⟨⟨result, group⟩, hrewrite, heq⟩ := Option.map_eq_some_iff.mp hupdate
  cases heq
  exact (rewrite_some hrewrite).1

theorem pwFileUpdate_value {db : List Passwd} {p : Passwd} {value : Int} {etc' : Etc}
    (hupdate : pwFileUpdate faults db p etc = some (value, etc')) : value = -1 := by
  obtain ⟨⟨result, passwd⟩, hrewrite, heq⟩ := Option.map_eq_some_iff.mp hupdate
  cases heq
  exact (rewrite_some hrewrite).1

/-- An update that returns nothing but -1 is safe exactly where nothing fails. -/
theorem guarded_iff {failed : Prop} {complete : Etc → Prop} {result : Option (Int × Etc)}
    (hvalue : ∀ value etc', result = some (value, etc') → value = -1)
    (hdone : ¬ failed → ∃ etc', result = some (-1, etc') ∧ complete etc') :
    Guarded failed complete etc result ↔ ¬ failed := by
  constructor
  · rintro ⟨hreported, _⟩ hfailed
    obtain ⟨etc', hzero, _⟩ := hreported hfailed
    exact absurd (hvalue 0 etc' hzero) (by decide)
  · intro hnever
    obtain ⟨etc', hresult, hcomplete⟩ := hdone hnever
    refine ⟨fun hfailed => absurd hfailed hnever, ?_⟩
    intro value other hother
    cases hresult.symm.trans hother
    exact .inr hcomplete

/-- Both updates are safe exactly where neither the open nor a print nor the close of
the temporary file fails. -/
theorem updates_guarded_iff (faults : Faults) (etc : Etc) (pwdb : List Passwd) (p : Passwd)
    (grdb : List Group) (g : Group) :
    (Guarded (faults.Occur (passwdTexts (newUsers pwdb p)).length)
        (PasswdIs (newUsers pwdb p) etc) etc (pwFileUpdate faults pwdb p etc) ↔
      ¬ faults.Occur (passwdTexts (newUsers pwdb p)).length) ∧
    (Guarded (faults.Occur (groupTexts (newGroups grdb g)).length)
        (GroupIs (newGroups grdb g) etc) etc (grFileUpdate faults grdb g etc) ↔
      ¬ faults.Occur (groupTexts (newGroups grdb g)).length) := by
  constructor
  · apply guarded_iff (fun _ _ => pwFileUpdate_value)
    intro hnever
    refine ⟨⟨etc.passwd.commit ((passwdTexts (newUsers pwdb p)).flatMap String.toList),
      etc.group⟩, ?_, rfl, rfl⟩
    exact congrArg _ (rewrite_of_never pwdb etc.passwd hnever)
  · apply guarded_iff (fun _ _ => grFileUpdate_value)
    intro hnever
    refine ⟨⟨etc.passwd,
      etc.group.commit ((groupTexts (newGroups grdb g)).flatMap String.toList)⟩, ?_, rfl, rfl⟩
    exact congrArg _ (rewrite_of_never grdb etc.group hnever)

/-- Where nothing fails, the update of what is in a file leaves the text of `pwUpdate`, and
that of `grUpdate`. -/
theorem fileUpdates_eq (p : Passwd) (g : Group)
    (hpasswd : ¬ faults.Occur (passwdTexts (newUsers (getpwents etc.passwd.file) p)).length)
    (hgroup : ¬ faults.Occur (groupTexts (newGroups (getgrents etc.group.file) g)).length) :
    pwFileUpdate faults (getpwents etc.passwd.file) p etc =
        some (-1, { etc with passwd := etc.passwd.commit (pwUpdate etc.passwd.file p) }) ∧
      grFileUpdate faults (getgrents etc.group.file) g etc =
        some (-1, { etc with group := etc.group.commit (grUpdate etc.group.file g) }) :=
  ⟨congrArg _ (rewrite_of_never _ etc.passwd hpasswd),
    congrArg _ (rewrite_of_never _ etc.group hgroup)⟩

end

/-- The disk is full from the start. -/
def fullDisk : Faults := ⟨false, fun _ => some 0, some 0⟩

/-- On a full disk the user file is replaced by an empty one, and all is said to be
well. -/
theorem not_guarded_fullDisk :
    pwFileUpdate fullDisk [] ⟨"u", "!", 1001, 100, "", "/home/u", "/bin/sh"⟩
        ⟨⟨['r'], none, none⟩, ⟨[], none, none⟩⟩ =
      some (-1, ⟨⟨[], some ['r'], none⟩, ⟨[], none, none⟩⟩) ∧
    ¬ Guarded (fullDisk.Occur (passwdTexts (newUsers []
          ⟨"u", "!", 1001, 100, "", "/home/u", "/bin/sh"⟩)).length)
        (PasswdIs (newUsers [] ⟨"u", "!", 1001, 100, "", "/home/u", "/bin/sh"⟩)
          ⟨⟨['r'], none, none⟩, ⟨[], none, none⟩⟩)
        ⟨⟨['r'], none, none⟩, ⟨[], none, none⟩⟩
        (pwFileUpdate fullDisk [] ⟨"u", "!", 1001, 100, "", "/home/u", "/bin/sh"⟩
          ⟨⟨['r'], none, none⟩, ⟨[], none, none⟩⟩) := by
  constructor
  · rfl
  · rintro ⟨hreported, _⟩
    obtain ⟨etc', hzero, _⟩ := hreported (.inr (.inr (Option.some_ne_none 0)))
    exact absurd (pwFileUpdate_value hzero) (by decide)

end Fip.Useradd
