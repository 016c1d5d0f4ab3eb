import Fip.Useradd.Main

/-!
# The record of the new user

What `put_pw` prints for a new user is read back as it was set if no field has a colon
or a newline in it.  `process_flags` looks for these in the arguments of its options,
but not in the login name, and `get_defaults` takes its values as they stand in the
file.
-/

namespace Fip.Useradd

/-- What `fgets` puts into the buffer, without the end of the line, and what it leaves. -/
def fgets : ℕ → List Char → List Char × List Char
  | 0, text => ([], text)
  | _ + 1, [] => ([], [])
  | size + 1, c :: text =>
      if c = '\n' then ([], text)
      else
        let (buf, rest) := fgets size text
        (c :: buf, rest)

/-- The loop of `get_defaults`; the number is of calls that are enough. -/
def readLines : ℕ → List Char → List String
  | 0, _ => []
  | _ + 1, [] => []
  | calls + 1, c :: text =>
      let (buf, rest) := fgets 1023 (c :: text)
      String.ofList (buf.takeWhile fun c => c ≠ '\x00') :: readLines calls rest

/-- The strings that are in the buffer one after the other.  A line that does not fit is
read in pieces. -/
def defaultsLines (text : List Char) : List String := readLines text.length text

/-- Split at newlines and colons, the text that is printed is one record with these
fields. -/
def ReadsBack (p : Passwd) : Prop :=
  Records.decode ':' '\n' ((putPw p).flatMap String.toList) = [fieldsOf p]

/-- What follows the name of a setting in the last line that has it. -/
def lastLine (front : String) (lines : List String) : Option String :=
  (lines.filterMap fun buf => afterPrefix buf front).getLast?

/-- What gets into the record unchecked has no colon and no newline in it. -/
def CleanInput (lines : List String) (opts : List (Char × String)) (login : String) : Prop :=
  valid login = true ∧
    (('d' ∈ opts.map Prod.fst ∨ 'b' ∈ opts.map Prod.fst) ∨
      ∀ home, lastLine "HOME=" lines = some home → valid home = true) ∧
    ('s' ∈ opts.map Prod.fst ∨
      ∀ shell, lastLine "SHELL=" lines = some shell → valid shell = true)

section

variable {db : List Group} {sysNgroups : ℕ} {s t : Settings} {opts : List (Char × String)}
  {opt : Char × String} {login : String} {lines : List String}

theorem length_fgets_le (size : ℕ) (text : List Char) :
    (fgets size text).2.length ≤ text.length := by
  induction size generalizing text with
  | zero => exact Nat.le_refl _
  | succ size ih =>
      cases text with
      | nil => exact Nat.le_refl _
      | cons c text =>
          rw [fgets, List.length_cons]
          split
          · exact Nat.le_succ _
          · exact Nat.le_succ_of_le (ih text)

/-- As many calls as the text is long are enough. -/
theorem readLines_congr {calls more : ℕ} {text : List Char} (hcalls : text.length ≤ calls)
    (hmore : text.length ≤ more) : readLines calls text = readLines more text := by
  induction calls generalizing more text with
  | zero =>
      rw [List.length_eq_zero_iff.mp (Nat.le_zero.mp hcalls)]
      cases more with
      | zero => rfl
      | succ more => rfl
  | succ calls ih =>
      cases text with
      | nil =>
          cases more with
          | zero => rfl
          | succ more => rfl
      | cons c text =>
          rw [List.length_cons] at hcalls hmore
          obtain ⟨more, rfl⟩ := Nat.exists_eq_add_of_le' (Nat.le_trans (Nat.le_add_left 1 _) hmore)
          have hrest : (fgets 1023 (c :: text)).2.length ≤ text.length := by
            rw [fgets]
            split
            · exact Nat.le_refl _
            · exact length_fgets_le 1022 text
          simp only [readLines]
          rw [ih (Nat.le_trans hrest (Nat.le_of_succ_le_succ hcalls))
            (Nat.le_trans hrest (Nat.le_of_succ_le_succ hmore))]

theorem valid_iff {s : String} : valid s = true ↔ ':' ∉ s.toList ∧ '\n' ∉ s.toList := by
  rw [valid, List.all_eq_true]
  constructor
  · intro hall
    constructor
    · exact fun hmem => by simpa using hall ':' hmem
    · exact fun hmem => by simpa using hall '\n' hmem
  · rintro ⟨hcolon, hnewline⟩ c hc
    rw [decide_eq_true_eq]
    constructor
    · rintro rfl
      exact hcolon hc
    · rintro rfl
      exact hnewline hc

theorem valid_append (s t : String) : valid (s ++ t) = (valid s && valid t) := by
  rw [valid, String.toList_append, List.all_append, valid, valid]

theorem valid_toString (id : UInt16) : valid (toString id) = true := by
  have hdigits : (toString id).toList = Nat.toDigits 10 id.toNat := Nat.toList_repr
  rw [valid_iff, hdigits]
  constructor
  · intro hmem
    exact absurd (Nat.isDigit_of_mem_toDigits (by decide) (by decide) hmem) (by decide)
  · intro hmem
    exact absurd (Nat.isDigit_of_mem_toDigits (by decide) (by decide) hmem) (by decide)

theorem putPw_eq_encode (p : Passwd) :
    (putPw p).flatMap String.toList = Records.encode ':' '\n' [fieldsOf p] := by
  simp [putPw, Records.encode, Records.line, fieldsOf, String.toList_append,
    List.intercalate_cons_cons]

theorem clean_fields_iff (p : Passwd) :
    (∀ field ∈ fieldsOf p, ':' ∉ field ∧ '\n' ∉ field) ↔ valid p.name = true ∧
      valid p.passwd = true ∧ valid p.gecos = true ∧ valid p.dir = true ∧
        valid p.shell = true := by
  have huid := valid_toString p.uid
  have hgid := valid_toString p.gid
  rw [valid_iff] at huid hgid
  simp [fieldsOf, valid_iff, huid, hgid]

/-- A user is read back if each field has been looked at. -/
theorem readsBack_iff (p : Passwd) :
    ReadsBack p ↔ valid p.name = true ∧ valid p.passwd = true ∧ valid p.gecos = true ∧
      valid p.dir = true ∧ valid p.shell = true := by
  rw [ReadsBack, putPw_eq_encode, Records.decode_encode_iff (by decide) (by simp [fieldsOf]),
    List.forall_mem_singleton, clean_fields_iff]

/-! ## Where the fields come from -/

theorem isPrefixOf_of_afterPrefix {buf front cp : String}
    (hmatch : afterPrefix buf front = some cp) : front.toList <+: buf.toList := by
  rw [afterPrefix] at hmatch
  split at hmatch
  · next hprefix => exact List.isPrefixOf_iff_prefix.mp hprefix
  · cases hmatch

/-- A line does not have the names of two settings. -/
theorem afterPrefix_eq_none {buf front other cp : String}
    (hmatch : afterPrefix buf front = some cp) (hhead : front.toList.head? ≠ other.toList.head?)
    (hfront : front.toList ≠ []) (hother : other.toList ≠ []) :
    afterPrefix buf other = none := by
  rcases hmatches : afterPrefix buf other with _ | cp'
  · rfl
  · obtain ⟨behind, hbehind⟩ := isPrefixOf_of_afterPrefix hmatch
    obtain ⟨behind', hbehind'⟩ := isPrefixOf_of_afterPrefix hmatches
    refine absurd ?_ hhead
    rw [← List.head?_append_of_ne_nil _ hfront, hbehind, ← hbehind',
      List.head?_append_of_ne_nil _ hother]

theorem lastLine_concat (front : String) (lines : List String) (buf : String) :
    lastLine front (lines ++ [buf]) = (afterPrefix buf front).or (lastLine front lines) := by
  rcases hbuf : afterPrefix buf front with _ | cp
  · simp [lastLine, hbuf]
  · simp [lastLine, hbuf]

theorem getDefault_home (s : Settings) (buf : String) :
    (getDefault db s buf).defHome = (afterPrefix buf "HOME=").getD s.defHome := by
  unfold getDefault
  split
  · next hgroup =>
      rw [afterPrefix_eq_none hgroup (by decide) (by decide) (by decide)]
      split
      · rfl
      · rfl
  · split
    · next hhome =>
        rw [hhome]
        rfl
    · next hhome =>
        rw [hhome]
        repeat' split
        all_goals rfl

theorem getDefault_shell (s : Settings) (buf : String) :
    (getDefault db s buf).defShell = (afterPrefix buf "SHELL=").getD s.defShell := by
  unfold getDefault
  split
  · next hgroup =>
      rw [afterPrefix_eq_none hgroup (by decide) (by decide) (by decide)]
      split
      · rfl
      · rfl
  · split
    · next hhome =>
        rw [afterPrefix_eq_none hhome (by decide) (by decide) (by decide)]
        rfl
    · split
      · next hshell =>
          rw [hshell]
          rfl
      · next hshell =>
          rw [hshell]
          repeat' split
          all_goals rfl

/-- The other fields of the record and their flags are not in the file. -/
theorem getDefault_user (s : Settings) (buf : String) :
    (getDefault db s buf).userPass = s.userPass ∧
      (getDefault db s buf).userComment = s.userComment ∧
      (getDefault db s buf).dflg = s.dflg ∧ (getDefault db s buf).sflg = s.sflg := by
  unfold getDefault
  repeat' split
  all_goals exact ⟨rfl, rfl, rfl, rfl⟩

/-- What is known of the settings behind these options. -/
structure Screened (lines : List String) (opts : List (Char × String)) (s : Settings) :
    Prop where
  passwd : valid s.userPass = true
  comment : valid s.userComment = true
  dflg : s.dflg = decide ('d' ∈ opts.map Prod.fst)
  home : s.dflg = true → valid s.userHome = true
  defHome : valid s.defHome = true ↔ 'b' ∈ opts.map Prod.fst ∨
    ∀ home, lastLine "HOME=" lines = some home → valid home = true
  sflg : s.sflg = decide ('s' ∈ opts.map Prod.fst)
  shell : s.sflg = true → valid s.userShell = true
  defShell : s.sflg = false → (valid s.defShell = true ↔
    ∀ shell, lastLine "SHELL=" lines = some shell → valid shell = true)

theorem getDefaults_home (lines : List String) :
    (getDefaults db lines).defHome = (lastLine "HOME=" lines).getD "/home" := by
  induction lines using List.reverseRecOn with
  | nil => rfl
  | append_singleton lines buf ih =>
      rw [getDefaults, List.foldl_concat, ← getDefaults, getDefault_home, ih, lastLine_concat]
      cases afterPrefix buf "HOME=" with
      | none => rfl
      | some home => rfl

theorem getDefaults_shell (lines : List String) :
    (getDefaults db lines).defShell = (lastLine "SHELL=" lines).getD "/bin/sh" := by
  induction lines using List.reverseRecOn with
  | nil => rfl
  | append_singleton lines buf ih =>
      rw [getDefaults, List.foldl_concat, ← getDefaults, getDefault_shell, ih, lastLine_concat]
      cases afterPrefix buf "SHELL=" with
      | none => rfl
      | some shell => rfl

theorem getDefaults_user (lines : List String) :
    (getDefaults db lines).userPass = "!" ∧ (getDefaults db lines).userComment = "" ∧
      (getDefaults db lines).dflg = false ∧ (getDefaults db lines).sflg = false := by
  induction lines using List.reverseRecOn with
  | nil => exact ⟨rfl, rfl, rfl, rfl⟩
  | append_singleton lines buf ih =>
      rw [getDefaults, List.foldl_concat, ← getDefaults]
      obtain ⟨hpass, hcomment, hdflg, hsflg⟩ := getDefault_user (getDefaults db lines) buf
      rw [hpass, hcomment, hdflg, hsflg]
      exact ih

/-- The built-in value is good. -/
theorem valid_getD_iff {value : Option String} {default : String}
    (hdefault : valid default = true) :
    valid (value.getD default) = true ↔ ∀ cp, value = some cp → valid cp = true := by
  cases value with
  | none => exact iff_of_true hdefault fun _ => nofun
  | some cp =>
      constructor
      · intro hvalid cp' heq
        cases heq
        exact hvalid
      · exact fun hvalid => hvalid cp rfl

theorem screened_getDefaults (lines : List String) : Screened lines [] (getDefaults db lines) := by
  have huser : (getDefaults db lines).userPass = "!" ∧ (getDefaults db lines).userComment = "" ∧
      (getDefaults db lines).dflg = false ∧ (getDefaults db lines).sflg = false :=
    getDefaults_user lines
  obtain ⟨hpass, hcomment, hdflg, hsflg⟩ := huser
  constructor
  case passwd => rw [hpass]; decide
  case comment => rw [hcomment]; decide
  case dflg => exact hdflg
  case home => exact fun htrue => absurd (hdflg.symm.trans htrue) Bool.false_ne_true
  case defHome =>
      rw [getDefaults_home, valid_getD_iff (by decide)]
      simp
  case sflg => exact hsflg
  case shell => exact fun htrue => absurd (hsflg.symm.trans htrue) Bool.false_ne_true
  case defShell =>
      intro _
      rw [getDefaults_shell, valid_getD_iff (by decide)]

/-- What an option does to the fields of the record. -/
theorem processOption_record (hok : processOption db sysNgroups s opt = .ok t) :
    (t.userPass = s.userPass ∨ valid t.userPass = true) ∧
      (t.userComment = s.userComment ∨ valid t.userComment = true) ∧
      (opt.1 = 'd' → t.dflg = true ∧ valid t.userHome = true) ∧
      (opt.1 ≠ 'd' → t.dflg = s.dflg ∧ t.userHome = s.userHome) ∧
      (opt.1 = 'b' → valid t.defHome = true) ∧ (opt.1 ≠ 'b' → t.defHome = s.defHome) ∧
      (opt.1 = 's' → t.sflg = true ∧ valid t.userShell = true) ∧
      (opt.1 ≠ 's' → t.sflg = s.sflg ∧ t.userShell = s.userShell ∧ t.defShell = s.defShell) := by
  unfold processOption at hok
  split at hok
  all_goals
    repeat' split at hok
    all_goals
      cases hok
      try simp_all

theorem screened_concat (hs : Screened lines opts s)
    (hok : processOption db sysNgroups s opt = .ok t) : Screened lines (opts ++ [opt]) t := by
  obtain ⟨hpass, hcomment, hd, hnotd, hb, hnotb, hsh, hnots⟩ := processOption_record hok
  have hmem (c : Char) : c ∈ (opts ++ [opt]).map Prod.fst ↔ c ∈ opts.map Prod.fst ∨ opt.1 = c := by
    rw [List.map_append, List.mem_append, List.map_singleton, List.mem_singleton, eq_comm]
  constructor
  case passwd => exact hpass.elim (fun heq => heq ▸ hs.passwd) id
  case comment => exact hcomment.elim (fun heq => heq ▸ hs.comment) id
  case dflg =>
      by_cases heq : opt.1 = 'd'
      · rw [(hd heq).1, eq_comm, decide_eq_true_eq, hmem]
        exact .inr heq
      · rw [(hnotd heq).1, hs.dflg, decide_eq_decide, hmem, or_iff_left heq]
  case home =>
      by_cases heq : opt.1 = 'd'
      · exact fun _ => (hd heq).2
      · rw [(hnotd heq).1, (hnotd heq).2]
        exact hs.home
  case defHome =>
      by_cases heq : opt.1 = 'b'
      · exact iff_of_true (hb heq) (.inl ((hmem _).mpr (.inr heq)))
      · rw [hnotb heq, hs.defHome, hmem, or_iff_left heq]
  case sflg =>
      by_cases heq : opt.1 = 's'
      · rw [(hsh heq).1, eq_comm, decide_eq_true_eq, hmem]
        exact .inr heq
      · rw [(hnots heq).1, hs.sflg, decide_eq_decide, hmem, or_iff_left heq]
  case shell =>
      by_cases heq : opt.1 = 's'
      · exact fun _ => (hsh heq).2
      · rw [(hnots heq).1, (hnots heq).2.1]
        exact hs.shell
  case defShell =>
      by_cases heq : opt.1 = 's'
      · exact fun hfalse => absurd ((hsh heq).1.symm.trans hfalse) (Ne.symm Bool.false_ne_true)
      · rw [(hnots heq).1, (hnots heq).2.2]
        exact hs.defShell

/-- The record that the checked settings make for the login name. -/
theorem checkFlags_record (hok : checkFlags s [login] = .ok t) :
    t.userName = login ∧ t.userPass = s.userPass ∧ t.userComment = s.userComment ∧
      t.userHome = (if s.dflg then s.userHome else s.defHome ++ "/" ++ login) ∧
      t.userShell = if s.sflg then s.userShell else s.defShell := by
  rw [checkFlags] at hok
  split at hok
  · cases hok
  · rw [takeName] at hok
    split at hok
    · rw [if_pos (List.cons_ne_nil _ _)] at hok
      cases hok
    · cases hok
      exact ⟨rfl, rfl, rfl, rfl, rfl⟩

/-- The fields of the new user have no separator in them exactly if the login name, and the
home and the shell where they come from the defaults file, have none. -/
theorem valid_newPwent_iff
    (hok : processFlags db sysNgroups (getDefaults db lines) opts [login] = .ok s)
    (uid gid : UInt16) :
    (∀ field ∈ fieldsOf (newPwent { s with userId := uid, userGid := gid }),
        ':' ∉ field ∧ '\n' ∉ field) ↔
      CleanInput lines opts login := by
  obtain ⟨u, hoptions, hcheck⟩ := processFlags_ok hok
  have hscreened : Screened lines opts u :=
    options_induct (screened_getDefaults _) (fun _ _ _ _ => screened_concat) hoptions
  obtain ⟨hname, hpass, hcomment, hhome, hshell⟩ := checkFlags_record hcheck
  rw [clean_fields_iff, newPwent]
  dsimp only
  rw [hname, hpass, hcomment, hhome, hshell, CleanInput]
  have hdir : valid login = true → (valid (if u.dflg then u.userHome
        else u.defHome ++ "/" ++ login) = true ↔
      ('d' ∈ opts.map Prod.fst ∨ 'b' ∈ opts.map Prod.fst) ∨
        ∀ home, lastLine "HOME=" lines = some home →
          valid home = true) := by
    intro hlogin
    by_cases hd : 'd' ∈ opts.map Prod.fst
    · have hdflg : u.dflg = true := hscreened.dflg.trans (decide_eq_true hd)
      rw [if_pos hdflg]
      exact iff_of_true (hscreened.home hdflg) (.inl (.inl hd))
    · have hdflg : u.dflg = false := hscreened.dflg.trans (decide_eq_false hd)
      have hslash : valid "/" = true := by decide
      rw [hdflg, if_neg Bool.false_ne_true, valid_append, valid_append, hlogin, hslash,
        Bool.and_true, Bool.and_true, hscreened.defHome, or_iff_right hd]
  have hsh : valid (if u.sflg then u.userShell else u.defShell) = true ↔
      's' ∈ opts.map Prod.fst ∨
        ∀ shell, lastLine "SHELL=" lines = some shell →
          valid shell = true := by
    by_cases hs : 's' ∈ opts.map Prod.fst
    · have hsflg : u.sflg = true := hscreened.sflg.trans (decide_eq_true hs)
      rw [if_pos hsflg]
      exact iff_of_true (hscreened.shell hsflg) (.inl hs)
    · have hsflg : u.sflg = false := hscreened.sflg.trans (decide_eq_false hs)
      rw [hsflg, if_neg Bool.false_ne_true, hscreened.defShell hsflg, or_iff_right hs]
  rw [hsh]
  constructor
  · rintro ⟨hlogin, _, _, hvalid, hs⟩
    exact ⟨hlogin, (hdir hlogin).mp hvalid, hs⟩
  · rintro ⟨hlogin, hvalid, hs⟩
    exact ⟨hlogin, hscreened.passwd, hscreened.comment, (hdir hlogin).mpr hvalid, hs⟩

/-- The new user is read back as it was set exactly if the login name, and the home and
the shell where they come from the defaults file, have no separator in them. -/
theorem readsBack_newPwent_iff (text : List Char)
    (hok : processFlags db sysNgroups (getDefaults db (defaultsLines text)) opts
      [login] = .ok s) (uid gid : UInt16) :
    ReadsBack (newPwent { s with userId := uid, userGid := gid }) ↔
      CleanInput (defaultsLines text) opts login := by
  rw [readsBack_iff, ← clean_fields_iff]
  exact valid_newPwent_iff hok uid gid

end

/-- `useradd joe` with a home and a shell from the file. -/
theorem readsBack_newPwent_iff_joe : ∃ s,
    processFlags [] 16 (getDefaults [] (defaultsLines "HOME=/usr\nSHELL=/bin/sh\n".toList)) []
        ["joe"] = .ok s ∧
      (ReadsBack (newPwent { s with userId := 1001, userGid := 1 }) ↔
        CleanInput (defaultsLines "HOME=/usr\nSHELL=/bin/sh\n".toList) [] "joe") := by
  have hok : processFlags [] 16
      (getDefaults [] (defaultsLines "HOME=/usr\nSHELL=/bin/sh\n".toList)) [] ["joe"] =
        .ok _ := rfl
  exact ⟨_, hok, readsBack_newPwent_iff _ hok 1001 1⟩

/-- A login name that brings an account of its own. -/
theorem not_readsBack_newPwent : ∃ s,
    processFlags [] 16 (getDefaults [] (defaultsLines [])) [] ["eve::0:0::/:/bin/sh\njoe"] =
        .ok s ∧
      ¬ ReadsBack (newPwent { s with userId := 1001, userGid := 1 }) := by
  refine ⟨_, rfl, fun hreads => ?_⟩
  have hname := ((readsBack_iff _).mp hreads).1
  exact absurd hname (by decide)

end Fip.Useradd
