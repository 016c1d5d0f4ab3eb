import Fip.Core.Keyed
import Fip.Core.Words
import Fip.Useradd.Database

/-!
# The account files

`/etc/passwd` and `/etc/group` are texts: each line is an entry, its fields stand
between colons, and the members of a group between commas.  `put_pw` and `put_gr` print
an entry as it stands, and the C library reads back what the text says.
-/

namespace Fip.Useradd

/-- The prints of the members' names. -/
def putMem : List String → List String
  | [] => []
  | [last] => [last]
  | i :: rest => i :: "," :: putMem rest

/-- The prints of a group entry.  The gid goes to `%d`, which takes an `int`. -/
def putGr (g : Group) : List String :=
  (g.name ++ ":" ++ g.passwd ++ ":" ++ toString g.gid.toInt16.toInt ++ ":") :: putMem g.mem ++
    ["\n"]

/-- The print of a user entry. -/
def putPw (p : Passwd) : List String :=
  [p.name ++ ":" ++ p.passwd ++ ":" ++ toString p.uid ++ ":" ++ toString p.gid ++ ":" ++
    p.gecos ++ ":" ++ p.dir ++ ":" ++ p.shell ++ "\n"]

/-- The prints of a database. -/
def passwdTexts (db : List Passwd) : List String := db.flatMap putPw

def groupTexts (db : List Group) : List String := db.flatMap putGr

/-- The number in a field. -/
def atoi : List Char → Int
  | '-' :: digits => -(Nat.ofDigitChars 10 (digits.takeWhile Char.isDigit) 0 : ℕ)
  | digits => (Nat.ofDigitChars 10 (digits.takeWhile Char.isDigit) 0 : ℕ)

/-- The user of a line of `/etc/passwd`; a line that does not have seven fields is
passed over. -/
def readPasswd (line : List Char) : Option Passwd :=
  match line.splitOn ':' with
  | [name, passwd, uid, gid, gecos, dir, shell] =>
      some
        { name := String.ofList name
          passwd := String.ofList passwd
          uid := UInt16.ofInt (atoi uid)
          gid := UInt16.ofInt (atoi gid)
          gecos := String.ofList gecos
          dir := String.ofList dir
          shell := String.ofList shell }
  | _ => none

/-- The group of a line of `/etc/group`.  The rest of the line behind three fields is
the list of the members. -/
def readGroup (line : List Char) : Option Group :=
  match line.splitOn ':' with
  | name :: passwd :: gid :: first :: more =>
      some
        { name := String.ofList name
          passwd := String.ofList passwd
          gid := UInt16.ofInt (atoi gid)
          mem := (words ',' ([':'].intercalate (first :: more))).map String.ofList }
  | _ => none

/-- All that `getpwent` returns. -/
def getpwents (file : List Char) : List Passwd := (file.splitOn '\n').filterMap readPasswd

/-- All that `getgrent` returns. -/
def getgrents (file : List Char) : List Group := (file.splitOn '\n').filterMap readGroup

/-- The entries that `pw_update` prints: an entry is replaced by its uid. -/
def newUsers (db : List Passwd) (p : Passwd) : List Passwd :=
  Keyed.update Passwd.uid p db

/-- The entries that `gr_update` prints: an entry is replaced by its gid. -/
def newGroups (db : List Group) (g : Group) : List Group :=
  Keyed.update Group.gid g db

/-- The file behind `pw_update`. -/
def pwUpdate (file : List Char) (p : Passwd) : List Char :=
  (passwdTexts (newUsers (getpwents file) p)).flatMap String.toList

/-- The file behind `gr_update`. -/
def grUpdate (file : List Char) (g : Group) : List Char :=
  (groupTexts (newGroups (getgrents file) g)).flatMap String.toList

/-- The fields of a user, as `put_pw` prints them. -/
def fieldsOf (p : Passwd) : List (List Char) :=
  [p.name.toList, p.passwd.toList, (toString p.uid).toList, (toString p.gid).toList,
    p.gecos.toList, p.dir.toList, p.shell.toList]

/-- What can be the name of a member in the file. -/
structure IsMember (name : String) : Prop where
  nonempty : name.toList ≠ []
  comma : ',' ∉ name.toList
  newline : '\n' ∉ name.toList

/-- A group as it is read from a file. -/
structure Group.Clean (g : Group) : Prop where
  name : ':' ∉ g.name.toList ∧ '\n' ∉ g.name.toList
  passwd : ':' ∉ g.passwd.toList ∧ '\n' ∉ g.passwd.toList
  mem : ∀ member ∈ g.mem, IsMember member

/-! ## Numbers -/

theorem isDigit_of_mem_toString {n : ℕ} {c : Char} (hc : c ∈ (toString n).toList) :
    c.isDigit = true := by
  have hdigits : (toString n).toList = Nat.toDigits 10 n := Nat.toList_repr
  rw [hdigits] at hc
  exact Nat.isDigit_of_mem_toDigits (by decide) (by decide) hc

theorem ofDigitChars_toString (n : ℕ) :
    Nat.ofDigitChars 10 ((toString n).toList.takeWhile Char.isDigit) 0 = n := by
  have hdigits : (toString n).toList = Nat.toDigits 10 n := Nat.toList_repr
  rw [List.takeWhile_eq_self_iff.mpr fun c hc => isDigit_of_mem_toString hc, hdigits]
  exact Nat.ofDigitChars_ten_toDigits

/-- A number that is printed is read back. -/
theorem atoi_toString (value : Int) : atoi (toString value).toList = value := by
  cases value with
  | ofNat n =>
      change atoi (toString n).toList = n
      have hread := ofDigitChars_toString n
      rcases htext : (toString n).toList with _ | ⟨c, digits⟩
      · rw [htext] at hread
        rw [atoi, hread]
        exact fun digits heq => nomatch heq
      · have hc : c.isDigit = true :=
          isDigit_of_mem_toString (n := n) (htext ▸ List.mem_cons_self)
        rw [htext] at hread
        rw [atoi, hread]
        rintro digits ⟨rfl, rfl⟩
        exact absurd hc (by decide)
  | negSucc n =>
      change atoi ("-" ++ toString (n + 1)).toList = Int.negSucc n
      rw [String.toList_append]
      change atoi ('-' :: (toString (n + 1)).toList) = Int.negSucc n
      rw [atoi, ofDigitChars_toString]
      rfl

/-- The gid that is printed as an `int` comes back as a `gid_t`. -/
theorem ofInt_atoi_gid (gid : UInt16) :
    UInt16.ofInt (atoi (toString gid.toInt16.toInt).toList) = gid := by
  have hlt := UInt16.toNat_lt gid
  have hsigned : gid.toInt16.toInt = (gid.toNat : Int).bmod (2 ^ 16) :=
    BitVec.toInt_eq_toNat_bmod _
  have hmod : gid.toInt16.toInt % 2 ^ 16 = (gid.toNat : Int) % 2 ^ 16 := by
    rw [hsigned]
    exact Int.bmod_emod
  apply UInt16.toNat.inj
  rw [atoi_toString, UInt16.ofInt, hmod, UInt16.toNat_ofNat']
  omega

theorem not_mem_toString_int {value : Int} {c : Char} (hdigit : c.isDigit = false)
    (hminus : c ≠ '-') : c ∉ (toString value).toList := by
  intro hc
  cases value with
  | ofNat n =>
      have hread : c.isDigit = true := isDigit_of_mem_toString (n := n) hc
      rw [hdigit] at hread
      cases hread
  | negSucc n =>
      change c ∈ ("-" ++ toString (n + 1)).toList at hc
      rw [String.toList_append, List.mem_append] at hc
      rcases hc with hc | hc
      · exact hminus (List.mem_singleton.mp hc)
      · have hread := isDigit_of_mem_toString hc
        rw [hdigit] at hread
        cases hread

/-! ## Groups -/

theorem flatMap_putMem (mem : List String) :
    (putMem mem).flatMap String.toList = [','].intercalate (mem.map String.toList) := by
  induction mem with
  | nil => rfl
  | cons i mem ih =>
      cases mem with
      | nil => simp [putMem]
      | cons second mem =>
          rw [putMem, List.flatMap_cons, List.flatMap_cons, ih]
          · simp [List.intercalate_cons_cons]
          · exact List.cons_ne_nil second mem

/-- The line of a group without its end. -/
def groupLine (g : Group) : List Char :=
  g.name.toList ++ ':' :: (g.passwd.toList ++ ':' :: ((toString g.gid.toInt16.toInt).toList ++
    ':' :: [','].intercalate (g.mem.map String.toList)))

theorem flatMap_putGr (g : Group) :
    (putGr g).flatMap String.toList = groupLine g ++ ['\n'] := by
  rw [putGr, List.flatMap_append, List.flatMap_cons, flatMap_putMem, groupLine]
  simp [String.toList_append]

theorem words_intercalate {mem : List String} (hmem : ∀ member ∈ mem, IsMember member) :
    (words ',' ([','].intercalate (mem.map String.toList))).map String.ofList = mem := by
  induction mem with
  | nil => rfl
  | cons i mem ih =>
      rw [List.forall_mem_cons] at hmem
      obtain ⟨hi, hmem⟩ := hmem
      cases mem with
      | nil =>
          have hword : words ',' (i.toList ++ []) = i.toList :: words ',' [] :=
            words_append hi.nonempty hi.comma (by simp)
          rw [List.append_nil] at hword
          rw [List.map_singleton, List.intercalate_singleton, hword, List.map_cons,
            String.ofList_toList]
          rfl
      | cons second mem =>
          have hrest := ih hmem
          rw [List.map_cons, List.map_cons, List.intercalate_cons_cons, List.append_assoc,
            List.singleton_append, words_append_sep hi.nonempty hi.comma, List.map_cons,
            String.ofList_toList, ← List.map_cons, hrest]

theorem readGroup_groupLine {g : Group} (hclean : g.Clean) : readGroup (groupLine g) = some g := by
  have hgid : ':' ∉ (toString g.gid.toInt16.toInt).toList :=
    not_mem_toString_int (by decide) (by decide)
  obtain ⟨first, more, hlist⟩ := List.exists_cons_of_ne_nil
    (List.splitOn_ne_nil ':' ([','].intercalate (g.mem.map String.toList)))
  have hmem : [':'].intercalate (first :: more) =
      [','].intercalate (g.mem.map String.toList) := by
    rw [← hlist, List.intercalate_splitOn]
  rw [readGroup, groupLine, List.splitOn_append_cons_self_of_not_mem hclean.name.1,
    List.splitOn_append_cons_self_of_not_mem hclean.passwd.1,
    List.splitOn_append_cons_self_of_not_mem hgid, hlist]
  dsimp only
  rw [hmem, words_intercalate hclean.mem, ofInt_atoi_gid, String.ofList_toList,
    String.ofList_toList]

theorem newline_not_mem_groupLine {g : Group} (hclean : g.Clean) : '\n' ∉ groupLine g := by
  have hgid : '\n' ∉ (toString g.gid.toInt16.toInt).toList :=
    not_mem_toString_int (by decide) (by decide)
  have hmem : '\n' ∉ [','].intercalate (g.mem.map String.toList) := by
    apply Records.eol_not_mem_intercalate (by decide)
    intro piece hpiece
    obtain ⟨member, hmember, rfl⟩ := List.mem_map.mp hpiece
    exact (hclean.mem member hmember).newline
  simp only [groupLine, List.mem_append, List.mem_cons, hclean.name.2, hclean.passwd.2, hgid,
    hmem, or_false, false_or]
  decide

/-- The prints of groups that were read are read back. -/
theorem getgrents_groupTexts {db : List Group} (hclean : ∀ g ∈ db, g.Clean) :
    getgrents ((groupTexts db).flatMap String.toList) = db := by
  induction db with
  | nil => rfl
  | cons g db ih =>
      rw [List.forall_mem_cons] at hclean
      have hrest := ih hclean.2
      rw [getgrents] at hrest ⊢
      rw [groupTexts, List.flatMap_cons, ← groupTexts, List.flatMap_append, flatMap_putGr,
        List.append_assoc, List.singleton_append,
        List.splitOn_append_cons_self_of_not_mem (newline_not_mem_groupLine hclean.1),
        List.filterMap_cons_some (readGroup_groupLine hclean.1), hrest]

/-- What is read is clean. -/
theorem clean_of_mem_getgrents {file : List Char} {g : Group} (hg : g ∈ getgrents file) :
    g.Clean := by
  obtain ⟨line, hline, hread⟩ := List.mem_filterMap.mp hg
  have hnewline : '\n' ∉ line := Records.not_mem_of_mem_splitOn hline
  have hfield : ∀ field ∈ line.splitOn ':', ':' ∉ field ∧ '\n' ∉ field := fun field hfield =>
    ⟨Records.not_mem_of_mem_splitOn hfield,
      fun hmem => hnewline (Records.mem_of_mem_splitOn hfield hmem)⟩
  rw [readGroup] at hread
  split at hread
  · next name passwd gid first more hsplit =>
      cases hread
      rw [hsplit] at hfield
      refine ⟨?_, ?_, ?_⟩
      · rw [String.toList_ofList]
        exact hfield name (by simp)
      · rw [String.toList_ofList]
        exact hfield passwd (by simp)
      · intro member hmember
        obtain ⟨word, hword, rfl⟩ := List.mem_map.mp hmember
        obtain ⟨hpiece, hne⟩ := List.mem_filter.mp hword
        refine ⟨?_, ?_, ?_⟩ <;> rw [String.toList_ofList]
        · simpa using hne
        · exact Records.not_mem_of_mem_splitOn hpiece
        · intro hmem
          have hmore : '\n' ∉ [':'].intercalate (first :: more) := by
            refine Records.eol_not_mem_intercalate (by decide) fun piece hmore => ?_
            exact (hfield piece (by simp [List.mem_cons.mp hmore])).2
          exact hmore (Records.mem_of_mem_splitOn hpiece hmem)
  · cases hread

end Fip.Useradd
