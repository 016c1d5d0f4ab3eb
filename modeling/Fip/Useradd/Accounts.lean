import Fip.Useradd.Record

/-!
# The accounts that there are

What a run of `useradd` leaves of the user file.  An entry is replaced by its uid, so it
depends on how the uid of the new user was chosen; and the new entry is one record only if
no field brings a separator of its own.
-/

namespace Fip.Useradd

section

variable {users : List Passwd} {p : Passwd} {file : List Char}

/-- The records of a text of users. -/
theorem passwdTexts_eq_encode (users : List Passwd) :
    (passwdTexts users).flatMap String.toList =
      Records.encode ':' '\n' (users.map fieldsOf) := by
  induction users with
  | nil => rfl
  | cons p users ih =>
      rw [passwdTexts, List.flatMap_cons, List.flatMap_append, ← passwdTexts, ih,
        putPw_eq_encode]
      simp [Records.encode]

/-- What is read has no separator in its fields. -/
theorem clean_of_mem_getpwents (hp : p ∈ getpwents file) :
    ∀ field ∈ fieldsOf p, ':' ∉ field ∧ '\n' ∉ field := by
  obtain ⟨line, hline, hread⟩ := List.mem_filterMap.mp hp
  have hnewline : '\n' ∉ line := Records.not_mem_of_mem_splitOn hline
  have hfield : ∀ field ∈ line.splitOn ':', ':' ∉ field ∧ '\n' ∉ field := fun field hfield =>
    ⟨Records.not_mem_of_mem_splitOn hfield,
      fun hmem => hnewline (Records.mem_of_mem_splitOn hfield hmem)⟩
  rw [readPasswd] at hread
  split at hread
  · next name passwd uid gid gecos dir shell hsplit =>
      cases hread
      rw [hsplit] at hfield
      rw [clean_fields_iff]
      simp only [valid_iff, String.toList_ofList]
      exact ⟨hfield name (by simp), hfield passwd (by simp), hfield gecos (by simp),
        hfield dir (by simp), hfield shell (by simp)⟩
  · cases hread

theorem fieldsOf_ne_nil : ∀ fields ∈ users.map fieldsOf, fields ≠ [] := by
  intro fields hfields
  obtain ⟨p, _, rfl⟩ := List.mem_map.mp hfields
  exact List.cons_ne_nil _ _

theorem name_eq_of_fieldsOf {e : Passwd} {read : List (List Char)}
    (heq : p.name.toList :: read = fieldsOf e) : e.name = p.name :=
  String.toList_inj.mp (List.cons.inj heq).1.symm

/-- The new users are those of before with the entry behind them, or the entry takes the
place of a first one. -/
theorem newUsers_cases (users : List Passwd) (p : Passwd) :
    ((∀ e ∈ users, e.uid ≠ p.uid) ∧ newUsers users p = users ++ [p]) ∨
      ¬ (∀ e ∈ users, e.uid ≠ p.uid) ∧ ∃ front e back back',
        users = front ++ e :: back ∧ newUsers users p = front ++ p :: back' := by
  by_cases hnew : ∀ e ∈ users, e.uid ≠ p.uid
  · exact .inl ⟨hnew, Keyed.update_of_new hnew⟩
  · refine .inr ⟨hnew, ?_⟩
    have hold : ∃ e ∈ users, e.uid = p.uid := by
      by_contra hnone
      exact hnew fun e he heq => hnone ⟨e, he, heq⟩
    obtain ⟨e, hfind⟩ := Option.isSome_iff_exists.mp
      (List.find?_isSome (p := fun e : Passwd => e.uid = p.uid) |>.mpr (by simpa using hold))
    obtain ⟨huid, front, back, rfl, hfront⟩ := List.find?_eq_some_iff_append.mp hfind
    refine ⟨front, e, back, back.map fun s => if s.uid = p.uid then p else s, rfl, ?_⟩
    have hkept : (front.map fun s => if s.uid = p.uid then p else s) = front := by
      calc (front.map fun s => if s.uid = p.uid then p else s)
          = front.map id := List.map_congr_left fun s hs =>
            if_neg (by simpa using hfront s hs)
        _ = front := List.map_id front
    rw [newUsers, Keyed.update_of_old hold, List.map_append, List.map_cons, hkept,
      if_pos (by simpa using huid)]

/-- The printed file is all users of before and a record of the new one exactly if the uid
is not in use and no field of the new entry has a separator in it. -/
theorem newUsers_keeps_iff (hclean : ∀ e ∈ users, ∀ field ∈ fieldsOf e,
      ':' ∉ field ∧ '\n' ∉ field) (hname : ∀ e ∈ users, e.name ≠ p.name) :
    (∃ q, q.name = p.name ∧
        Records.decode ':' '\n' ((passwdTexts (newUsers users p)).flatMap String.toList) =
          users.map fieldsOf ++ [fieldsOf q]) ↔
      (∀ e ∈ users, e.uid ≠ p.uid) ∧ ∀ field ∈ fieldsOf p, ':' ∉ field ∧ '\n' ∉ field := by
  have hclean' : ∀ fields ∈ users.map fieldsOf, ∀ field ∈ fields, ':' ∉ field ∧ '\n' ∉ field := by
    intro fields hfields
    obtain ⟨e, he, rfl⟩ := List.mem_map.mp hfields
    exact hclean e he
  rw [passwdTexts_eq_encode]
  rcases newUsers_cases users p with
    ⟨hnew, hupdate⟩ | ⟨hused, front, e, back, back', rfl, hupdate⟩
  · -- behind the old records stands what the new entry is read as
    rw [hupdate, List.map_append, List.map_singleton, Records.encode, List.flatMap_append,
      ← Records.encode, Records.decode_encode_append (by decide) fieldsOf_ne_nil hclean',
      List.flatMap_singleton]
    simp only [List.append_cancel_left_eq]
    constructor
    · rintro ⟨q, _, hdecode⟩
      exact ⟨hnew, Records.clean_of_decode_line (List.cons_ne_nil _ _) hdecode rfl⟩
    · rintro ⟨_, hfields⟩
      have hline : Records.decode ':' '\n' (Records.line ':' '\n' (fieldsOf p) ++ []) =
          fieldsOf p :: Records.decode ':' '\n' [] :=
        Records.decode_line_append (by decide) (List.cons_ne_nil _ _) hfields
      rw [List.append_nil] at hline
      exact ⟨p, rfl, hline⟩
  · -- in the place of the first entry with the uid a record of the new name is read
    refine iff_of_false ?_ fun hboth => hused hboth.1
    rintro ⟨q, hq, hdecode⟩
    have hlogin : ':' ∉ p.name.toList ∧ '\n' ∉ p.name.toList := by
      have hread : fieldsOf q ∈ Records.decode ':' '\n'
          (Records.encode ':' '\n' ((newUsers (front ++ e :: back) p).map fieldsOf)) := by
        rw [hdecode]
        simp
      rw [← hq]
      exact Records.clean_of_mem_decode hread List.mem_cons_self
    rw [hupdate, List.map_append, List.map_cons, Records.encode, List.flatMap_append,
      ← Records.encode, Records.decode_encode_append (by decide) fieldsOf_ne_nil
        fun fields hfields => hclean' fields (by simp [List.mem_map.mp hfields]),
      List.flatMap_cons, List.map_append, List.append_assoc,
      List.append_cancel_left_eq] at hdecode
    have hne : '\n' ≠ ':' := by decide
    obtain ⟨read, rest, hfirst⟩ :=
      @Records.head_decode_line _ _ _ _ _ ((fieldsOf p).drop 2) _ p.passwd.toList hne hlogin
    have hsame := (List.cons.inj (hfirst.symm.trans hdecode)).1
    exact hname e (by simp) (name_eq_of_fieldsOf hsame)

/-- The records of the user file are those of the users that there were, and one of a
user with this name. -/
def Keeps (users : List Passwd) (login : String) (file : List Char) : Prop :=
  ∃ p, p.name = login ∧
    Records.decode ':' '\n' file = users.map fieldsOf ++ [fieldsOf p]

/-- A run of `useradd` for a new user that succeeds keeps all entries and puts one
behind them exactly if the new uid is not in use and nothing brings a separator into the
new entry. -/
theorem main_keeps_iff {sys : System} {fuel : ℕ} {opts : List (Char × String)}
    {login : String} {after : Files}
    (hmain : main sys fuel opts [login] = some (.success after)) :
    Keeps (getpwents sys.files.passwd) login after.passwd ↔
      UidFree opts (getpwents sys.files.passwd) ∧ CleanInput sys.defaults opts login := by
  rw [main] at hmain
  rcases hprocess : processFlags (getgrents sys.files.group) sys.sysNgroups
    (getDefaults (getgrents sys.files.group) sys.defaults) opts [login] with code | s
  · rw [hprocess] at hmain
    cases hmain
  rw [hprocess] at hmain
  obtain ⟨hDflg, hname, t, gid, hchoose, hafter⟩ := addUser_success hmain
  obtain ⟨u, hoptions, hcheck⟩ := processFlags_ok hprocess
  obtain ⟨hoflg, huflg, huserId, hneeds, hone⟩ := checkFlags_uid hcheck
  obtain ⟨huo, huu, huuid⟩ := uidFlags_of_options (getDefaults_uid _) hoptions
  have hflags : UidFlags opts s :=
    ⟨hoflg.trans huo, huflg.trans huu, fun uid hgiven => huserId.trans (huuid uid hgiven)⟩
  have hlogin : s.userName = login := (List.cons.inj (hone hDflg)).1.symm
  rw [← valid_newPwent_iff hprocess t.userId gid, Keeps, hafter, pwUpdate, ← hlogin,
    ← chooseUid_free_iff hflags (by rw [hoflg, huflg]; exact hneeds) hchoose]
  exact newUsers_keeps_iff (p := newPwent { s with userId := t.userId, userGid := gid })
    (fun e he => clean_of_mem_getpwents he) hname

end

/-- A system with a root account. -/
def rootOnly : System where
  files :=
    { passwd := "root:!:0:0::/root:/bin/sh\n".toList
      group := [] }
  defaults := []
  sysNgroups := 16
  restarts := true
  no := fun _ => 0
  access := fun _ => true
  mkdir := fun _ => true

/-- `useradd -u 5 -r -M joe` -/
theorem main_keeps_iff_joe : ∃ after,
    main rootOnly 3 [('u', "5"), ('r', ""), ('M', "")] ["joe"] = some (.success after) ∧
      (Keeps (getpwents rootOnly.files.passwd) "joe" after.passwd ↔
        UidFree [('u', "5"), ('r', ""), ('M', "")] (getpwents rootOnly.files.passwd) ∧
          CleanInput rootOnly.defaults [('u', "5"), ('r', ""), ('M', "")] "joe") := by
  have hmain : main rootOnly 3 [('u', "5"), ('r', ""), ('M', "")] ["joe"] =
      some (.success _) := rfl
  exact ⟨_, hmain, main_keeps_iff hmain⟩

/-- `useradd -o -u 0 toor` replaces root. -/
theorem main_replaces_root : ∃ after,
    main rootOnly 3 [('o', ""), ('u', "0")] ["toor"] = some (.success after) ∧
      ¬ Keeps (getpwents rootOnly.files.passwd) "toor" after.passwd := by
  refine ⟨_, rfl, ?_⟩
  rintro ⟨p, _, heq⟩
  have hlength : 1 = 2 := congrArg List.length heq
  exact absurd hlength (by decide)

end Fip.Useradd
