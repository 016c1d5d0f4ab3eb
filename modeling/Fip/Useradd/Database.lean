import Mathlib.Data.List.Basic
import Mathlib.Tactic.Common

/-!
# The user and group databases

The entries of `/etc/passwd` and `/etc/group` in file order, as `getpwent` and
`getgrent` read them, and what `useradd` does to them.  User and group ids are
the sixteen bit numbers of the target.
-/

namespace Fip.Useradd

/-- `struct passwd`. -/
structure Passwd where
  name : String
  passwd : String
  uid : UInt16
  gid : UInt16
  gecos : String
  dir : String
  shell : String
deriving DecidableEq

/-- `struct group`. -/
structure Group where
  name : String
  passwd : String
  gid : UInt16
  mem : List String
deriving DecidableEq

def getpwnam (db : List Passwd) (name : String) : Option Passwd :=
  db.find? fun e => e.name = name

def getpwuid (db : List Passwd) (uid : UInt16) : Option Passwd :=
  db.find? fun e => e.uid = uid

def xgetgrgid (db : List Group) (gid : UInt16) : Option Group :=
  db.find? fun g => g.gid = gid

/-- Also `getgrnam`. -/
def xgetgrnam (db : List Group) (name : String) : Option Group :=
  db.find? fun g => g.name = name

/-- The greatest id of the database, and at least the bound. -/
def greatest (ids : List UInt16) (bound : UInt16) : UInt16 :=
  ids.foldl (fun bound id => if id > bound then id else bound) bound

def findNewUid (db : List Passwd) : UInt16 :=
  greatest (db.map Passwd.uid) 1000 + 1

def findNewGid (db : List Group) : UInt16 :=
  greatest (db.map Group.gid) 0 + 1

section

variable {ids : List UInt16} {id bound : UInt16} {db : List Passwd}

theorem le_greatest : bound ≤ greatest ids bound := by
  induction ids generalizing bound with
  | nil => exact UInt16.le_refl bound
  | cons id ids ih =>
      rw [greatest, List.foldl_cons]
      split
      · next hlt => exact UInt16.le_trans (UInt16.le_of_lt hlt) ih
      · exact ih

theorem le_greatest_of_mem (hmem : id ∈ ids) : id ≤ greatest ids bound := by
  induction ids generalizing bound with
  | nil => cases hmem
  | cons first ids ih =>
      rw [greatest, List.foldl_cons]
      cases hmem with
      | head =>
          split
          · exact le_greatest
          · next hle => exact UInt16.le_trans (UInt16.not_lt.mp hle) le_greatest
      | tail _ hmem => exact ih hmem

theorem greatest_mem : greatest ids bound = bound ∨ greatest ids bound ∈ ids := by
  induction ids generalizing bound with
  | nil => exact .inl rfl
  | cons first ids ih =>
      rw [greatest, List.foldl_cons, List.mem_cons]
      split
      · exact ih.elim (fun heq => .inr (.inl heq)) fun hmem => .inr (.inr hmem)
      · exact ih.elim .inl fun hmem => .inr (.inr hmem)

/-- The increment behind the search wraps just where the last id is in use. -/
theorem greatest_eq_last_iff (hbound : bound ≠ 65535) :
    greatest ids bound = 65535 ↔ 65535 ∈ ids := by
  constructor
  · intro hlast
    have hgreatest : greatest ids bound = bound ∨ greatest ids bound ∈ ids := greatest_mem
    rcases hgreatest with heq | hmem
    · exact absurd (heq.symm.trans hlast) hbound
    · rwa [hlast] at hmem
  · intro hmem
    have hle : greatest ids bound ≤ 65535 :=
      UInt16.le_iff_toNat_le.mpr (Nat.le_of_lt_succ (UInt16.toNat_lt _))
    exact UInt16.le_antisymm hle (le_greatest_of_mem hmem)

theorem toNat_succ (hid : id ≠ 65535) : (id + 1).toNat = id.toNat + 1 := by
  have hlt : id.toNat < 65535 :=
    Nat.lt_of_le_of_ne (Nat.le_of_lt_succ (UInt16.toNat_lt id)) fun heq =>
      hid (UInt16.toNat.inj heq)
  rw [UInt16.toNat_add]
  exact Nat.mod_eq_of_lt (Nat.succ_lt_succ hlt)

/-- Behind an id that is not the last comes one that is not in use. -/
theorem greatest_succ_ne (hlast : greatest ids bound ≠ 65535) (hmem : id ∈ ids) :
    greatest ids bound + 1 ≠ id := by
  intro heq
  have hle : id.toNat ≤ (greatest ids bound).toNat := le_greatest_of_mem hmem
  rw [← heq, toNat_succ hlast] at hle
  exact Nat.not_succ_le_self _ hle

theorem succ_ne_zero_iff : id + 1 ≠ 0 ↔ id ≠ 65535 := by
  constructor
  · rintro hne rfl
    exact hne rfl
  · intro hid hzero
    have htoNat : id.toNat + 1 = 0 := by rw [← toNat_succ hid, hzero]; rfl
    exact Nat.succ_ne_zero _ htoNat

/-- The id that follows the greatest is new and not zero unless the last one is in
use. -/
theorem greatest_succ_fresh_iff (hbound : bound ≠ 65535) :
    ((∀ id ∈ ids, greatest ids bound + 1 ≠ id) ∧ greatest ids bound + 1 ≠ 0) ↔
      65535 ∉ ids := by
  rw [succ_ne_zero_iff, Ne, greatest_eq_last_iff hbound]
  constructor
  · exact fun hfresh => hfresh.2
  · intro hlast
    have hgreatest : greatest ids bound ≠ 65535 := mt (greatest_eq_last_iff hbound).mp hlast
    exact ⟨fun id hmem => greatest_succ_ne hgreatest hmem, hlast⟩

/-- The new uid is one that is in use only if no uid is greater than the greatest,
so that it is zero. -/
theorem findNewUid_free_iff :
    (∀ e ∈ db, e.uid ≠ findNewUid db) ↔
      ¬ ((∃ e ∈ db, e.uid = 65535) ∧ ∃ e ∈ db, e.uid = 0) := by
  have hlast_iff : greatest (db.map Passwd.uid) 1000 = 65535 ↔ 65535 ∈ db.map Passwd.uid :=
    greatest_eq_last_iff (by decide)
  rw [List.mem_map] at hlast_iff
  rw [findNewUid]
  by_cases hlast : greatest (db.map Passwd.uid) 1000 = 65535
  · have hmem : ∃ e ∈ db, e.uid = 65535 := hlast_iff.mp hlast
    have hzero : (65535 : UInt16) + 1 = 0 := rfl
    rw [hlast, hzero]
    simp [hmem]
  · have hfree : ∀ e ∈ db, e.uid ≠ greatest (db.map Passwd.uid) 1000 + 1 :=
      fun e he => (greatest_succ_ne hlast (List.mem_map_of_mem he)).symm
    exact iff_of_true hfree fun hboth => hlast (hlast_iff.mpr hboth.1)

/-- The new ids are not in use and not those of root exactly if the last uid and the
last gid are not in use. -/
theorem findNew_fresh_iff (users : List Passwd) (groups : List Group) :
    ((∀ e ∈ users, findNewUid users ≠ e.uid) ∧ findNewUid users ≠ 0 ∧
      (∀ g ∈ groups, findNewGid groups ≠ g.gid) ∧ findNewGid groups ≠ 0) ↔
      (∀ e ∈ users, e.uid ≠ 65535) ∧ ∀ g ∈ groups, g.gid ≠ 65535 := by
  have huid : ((∀ id ∈ users.map Passwd.uid, findNewUid users ≠ id) ∧ findNewUid users ≠ 0) ↔
      65535 ∉ users.map Passwd.uid := greatest_succ_fresh_iff (by decide)
  have hgid : ((∀ id ∈ groups.map Group.gid, findNewGid groups ≠ id) ∧
      findNewGid groups ≠ 0) ↔ 65535 ∉ groups.map Group.gid :=
    greatest_succ_fresh_iff (by decide)
  rw [List.forall_mem_map, List.mem_map, not_exists] at huid hgid
  rw [← and_assoc, huid, hgid]
  simp only [not_and]

/-- A user and a group with the last id. -/
theorem not_findNew_fresh_last : ∃ (users : List Passwd) (groups : List Group),
    ¬ ((∀ e ∈ users, findNewUid users ≠ e.uid) ∧ findNewUid users ≠ 0 ∧
      (∀ g ∈ groups, findNewGid groups ≠ g.gid) ∧ findNewGid groups ≠ 0) := by
  refine ⟨[⟨"nobody", "*", 65535, 65535, "", "/", "/bin/false"⟩],
    [⟨"nogroup", "*", 65535, []⟩], ?_⟩
  rintro ⟨_, huid, _⟩
  exact huid rfl

end

end Fip.Useradd
