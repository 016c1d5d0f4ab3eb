import Fip.Decb.Walks
import Fip.Decb.Legal

/-!
# Images that hang `decb`

Nothing checks the table of an image.  A chain that comes back to itself, or leaves
the table, takes `ls`, `rm`, `putboot` and `get` with it.
-/

namespace Fip.Decb

open Fip.ByteFile

/-- The command stopped, and had not left the table before it did.  A name that is too
long for `buf` is not the image's doing. -/
def Halt.Safe (halt : Halt) : Prop := halt ≠ .undefined ∧ halt ≠ .diverges

/-- The four commands that walk chains terminate, and index the table with the numbers
of granules only. -/
structure Harmless (opts : Opts) (image : List UInt8) : Prop where
  list : ∀ stop, list opts image = .error stop → stop.halt.Safe
  rm : ∀ name stop, rm opts image name = .error stop → stop.halt.Safe
  putb : ∀ src stop, putb opts image src = .error stop → stop.halt.Safe
  get : ∀ name halt, (get opts image name).halt = some halt → halt.Safe

/-- The chain of an entry starts in the table and ends, and its last granule is not
full, unless the file ends in front of one of them. -/
def GetEnds (image : List UInt8) (offset : ℕ) (fat : Fat) (entry : Dirent) : Prop :=
  ∃ (x : Fin 68) (nodes : List (Fin 68)) (mark : UInt8),
    entry.first = UInt8.ofNat x.val ∧ Chain (fatNext fat) x nodes mark ∧ isLast mark ∧
      (lastSize mark entry = granz → ∃ node ∈ nodes, ¬ Reaches image offset node)

/-- Each entry in front of the end of the directory has a chain that ends, and each
that can be named one that `get` sees end. -/
structure Tame (image : List UInt8) (offset : ℕ) : Prop where
  ends : ∀ fat slot, loadfat image offset = .ok fat → Scanned image offset 0 slot →
    Ends fat (entryOf image offset slot).first
  found : ∀ fat name slot entry, loadfat image offset = .ok fat →
    find image offset name = .ok (some (slot, entry)) → GetEnds image offset fat entry

section

variable {opts : Opts} {image : List UInt8} {offset : ℕ} {fat : Fat} {entry : Dirent}

theorem safe_exit (message : String) : (Halt.exit message).Safe :=
  ⟨Halt.noConfusion, Halt.noConfusion⟩

theorem not_safe_undefined : ¬ Halt.undefined.Safe := fun hsafe => hsafe.1 rfl

theorem not_safe_diverges : ¬ Halt.diverges.Safe := fun hsafe => hsafe.2 rfl

/-! ## Reads that fail -/

theorem safe_loadfat {stop : Stop} (hload : loadfat image offset = .error stop) :
    stop.halt.Safe := by
  rw [loadfat] at hload
  split at hload
  · cases hload
    exact safe_exit _
  · split at hload
    · cases hload
      exact safe_exit _
    · cases hload

theorem safe_scanFrom {β : Type} {visit : Dirent → Option β} {stop : Stop} (calls : ℕ)
    {start : ℕ} (hcalls : start + calls = slots + 1)
    (hscan : scanFrom image offset visit start calls = .error stop) : stop.halt.Safe := by
  induction calls generalizing start with
  | zero => cases hscan
  | succ calls ih =>
      rw [scanFrom] at hscan
      by_cases hreaches : ReachesSlot image offset start
      · rw [hreaches.getentry_eq] at hscan
        by_cases hlt : start < slots
        · rw [if_pos hlt] at hscan
          dsimp only at hscan
          split at hscan
          · cases hscan
          · exact ih (by omega) hscan
        · rw [if_neg hlt] at hscan
          cases hscan
      · rw [getentry_short hreaches] at hscan
        cases hscan
        exact safe_exit _

/-- A scan stops at an entry of the directory. -/
theorem scanFrom_some {β : Type} {visit : Dirent → Option β} {verdict : β} {slot : ℕ}
    (calls : ℕ) {start : ℕ} (hcalls : start + calls = slots + 1)
    (hscan : scanFrom image offset visit start calls = .ok (some (verdict, slot, entry))) :
    start ≤ slot ∧ slot < slots ∧ ReachesSlot image offset slot ∧
      entry = entryOf image offset slot ∧ visit entry = some verdict ∧
      ∀ earlier, start ≤ earlier → earlier < slot →
        visit (entryOf image offset earlier) = none := by
  induction calls generalizing start with
  | zero => cases hscan
  | succ calls ih =>
      rw [scanFrom] at hscan
      by_cases hreaches : ReachesSlot image offset start
      · rw [hreaches.getentry_eq] at hscan
        by_cases hlt : start < slots
        · rw [if_pos hlt] at hscan
          dsimp only at hscan
          cases hvisit : visit (entryOf image offset start) with
          | some first =>
              rw [hvisit] at hscan
              cases hscan
              exact ⟨Nat.le_refl _, hlt, hreaches, rfl, hvisit,
                fun earlier hle hless => absurd hless (Nat.not_lt.mpr hle)⟩
          | none =>
              rw [hvisit] at hscan
              obtain ⟨hle, hslot, hreach, hentry, hfound, hearlier⟩ := ih (by omega) hscan
              refine ⟨Nat.le_of_succ_le hle, hslot, hreach, hentry, hfound, ?_⟩
              intro earlier hstart hless
              rcases Nat.eq_or_lt_of_le hstart with rfl | hlater
              · exact hvisit
              · exact hearlier earlier hlater hless
        · rw [if_neg hlt] at hscan
          cases hscan
      · rw [getentry_short hreaches] at hscan
        cases hscan

theorem safe_find {name : List UInt8} {stop : Stop}
    (hfind : find image offset name = .error stop) : stop.halt.Safe := by
  rw [find] at hfind
  split at hfind
  · cases hfind
    exact ⟨Halt.noConfusion, Halt.noConfusion⟩
  · split at hfind
    · next hscan =>
        cases hfind
        exact safe_scanFrom _ (Nat.zero_add _) hscan
    · cases hfind
    · cases hfind
    · cases hfind

/-- What `find` returns is an entry that the other loops come to. -/
theorem scanned_of_find {name : List UInt8} {slot : ℕ}
    (hfind : find image offset name = .ok (some (slot, entry))) :
    Scanned image offset 0 slot ∧ entry = entryOf image offset slot := by
  obtain ⟨buf, hconv, hform⟩ := stringconv_of_fits (fits_of_find hfind)
  simp only [find, hconv, hform] at hfind
  split at hfind
  · cases hfind
  · next hscan =>
      cases hfind
      obtain ⟨_, hslot, hreaches, rfl, hvisit, hearlier⟩ :=
        scanFrom_some _ (Nat.zero_add _) hscan
      have hkey : (entryOf image offset slot).name 0 ≠ 0xff ∧
          (entryOf image offset slot).key = nameForm name := by
        rw [findVisit] at hvisit
        split at hvisit
        · cases hvisit
        · next hmark =>
            split at hvisit
            · next hsame => exact ⟨hmark, hsame⟩
            · cases hvisit
      refine ⟨⟨Nat.zero_le _, hslot, hreaches, ?_, ?_⟩, rfl⟩
      · intro earlier hle hless hmark
        have hnone := hearlier earlier hle hless
        rw [findVisit, if_pos hmark] at hnone
        cases hnone
      · rintro (hdeleted | hmark)
        · rw [← Dirent.key_getD_zero, hkey.2] at hdeleted
          exact nameForm_ne_zero name hdeleted
        · exact hkey.1 hmark
  · cases hfind
  · cases hfind

theorem map_eq_error {ε α β : Type} {f : α → β} {result : Except ε α} {stop : ε} :
    result.map f = .error stop ↔ result = .error stop := by
  cases result with
  | error other =>
      constructor
      · rintro ⟨⟩
        rfl
      · rintro ⟨⟩
        rfl
  | ok value =>
      apply iff_of_false
      · intro heq
        cases heq
      · intro heq
        cases heq

/-! ## The walks of `ls`, `putboot` and `rm` -/

/-- A walk that does not end in the table is not safe. -/
theorem not_safe_walk {visit : UInt8 → ℕ} {rounds : ℕ} {first : UInt8} {halt : Halt}
    (hwalk : walk fat visit rounds first = .error halt) : ¬ halt.Safe := by
  induction rounds generalizing first with
  | zero =>
      cases hwalk
      exact not_safe_diverges
  | succ rounds ih =>
      rw [walk] at hwalk
      split at hwalk
      · cases hwalk
      · split at hwalk
        · next hless =>
            cases hrest : walk fat visit rounds (fat ⟨first.toNat, hless⟩) with
            | error other =>
                rw [hrest] at hwalk
                cases hwalk
                exact ih hrest
            | ok total =>
                rw [hrest] at hwalk
                cases hwalk
        · cases hwalk
          exact not_safe_undefined

/-- A loop over the directory that walks each chain. -/
theorem safe_eachEntry_iff {β : Type} {body : Dirent → Except Halt β}
    {visit : UInt8 → ℕ} {result : Dirent → ℕ → β}
    (hbody : ∀ entry, body entry =
      (walk fat visit (fatz + 1) entry.first).map (result entry)) :
    (∀ stop, eachEntry image offset body = .error stop → stop.halt.Safe) ↔
      ∀ slot, Scanned image offset 0 slot → Ends fat (entryOf image offset slot).first := by
  rw [eachEntry, eachEntryFrom_iff ?_ (fun _ _ _ => safe_exit _) (slots + 1) (Nat.zero_add _)]
  · apply forall_congr'
    intro slot
    apply imp_congr_right
    intro _
    have hends : (∃ total, walk fat visit (fatz + 1) (entryOf image offset slot).first =
        .ok total) ↔ Ends fat (entryOf image offset slot).first := walk_ends_iff
    rw [hbody, ← hends]
    cases walk fat visit (fatz + 1) (entryOf image offset slot).first with
    | error halt =>
        apply iff_of_false
        · rintro ⟨result, hresult⟩
          cases hresult
        · rintro ⟨total, htotal⟩
          cases htotal
    | ok total => exact iff_of_true ⟨_, rfl⟩ ⟨_, rfl⟩
  · intro entry halt herror
    rw [hbody] at herror
    cases hwalk : walk fat visit (fatz + 1) entry.first with
    | error other =>
        rw [hwalk] at herror
        cases herror
        exact not_safe_walk hwalk
    | ok total =>
        rw [hwalk] at herror
        cases herror

theorem safe_list_iff (hload : loadfat image opts.offset = .ok fat) :
    (∀ stop, list opts image = .error stop → stop.halt.Safe) ↔
      ∀ slot, Scanned image opts.offset 0 slot →
        Ends fat (entryOf image opts.offset slot).first := by
  have hbody : ∀ entry : Dirent, (countchain fat entry.first).map (entry, ·) =
      (walk fat (fun _ => 1) (fatz + 1) entry.first).map (entry, ·) := fun _ => rfl
  rw [← safe_eachEntry_iff hbody]
  simp only [list, hload, map_eq_error]

theorem safe_putb_iff (hload : loadfat image opts.offset = .ok fat) (src : List UInt8) :
    (∀ stop, putb opts image src = .error stop → stop.halt.Safe) ↔
      ∀ slot, Scanned image opts.offset 0 slot →
        Ends fat (entryOf image opts.offset slot).first := by
  have hbody : ∀ entry : Dirent, bootRefs fat entry.first =
      (walk fat (fun x => if x = 66 ∨ x = 67 then 1 else 0) (fatz + 1) entry.first).map id := by
    intro entry
    rw [Except.map_id]
    rfl
  rw [← safe_eachEntry_iff hbody]
  simp only [putb, hload]
  cases eachEntry image opts.offset fun entry => bootRefs fat entry.first with
  | error stop =>
      apply forall_congr'
      intro other
      apply imp_congr_left
      constructor
      · rintro ⟨⟩
        rfl
      · rintro ⟨⟩
        rfl
  | ok refs =>
      apply iff_of_true
      · intro stop hstop
        cases hstop
      · intro stop hstop
        cases hstop

theorem delchain_of_ends {first : UInt8} (hends : Ends fat first) :
    ∃ fat', delchain fat first = some fat' := by
  obtain hlast | ⟨x, nodes, mark, rfl, hchain, hmark⟩ := hends
  · exact ⟨fat, by rw [delchain, if_pos hlast]⟩
  · exact ⟨_, delchain_chain hchain hmark⟩

/-- `rm` needs no more than a chain that ends. -/
theorem safe_rm (htame : Tame image opts.offset) {name : List UInt8} {stop : Stop}
    (hrm : rm opts image name = .error stop) : stop.halt.Safe := by
  cases hload : loadfat image opts.offset with
  | error other =>
      simp only [rm, hload] at hrm
      cases hrm
      exact safe_loadfat hload
  | ok fat =>
      cases hfind : find image opts.offset name with
      | error other =>
          simp only [rm, hload, hfind] at hrm
          cases hrm
          exact safe_find hfind
      | ok found =>
          cases found with
          | none =>
              simp only [rm, hload, hfind] at hrm
              cases hrm
              exact safe_exit _
          | some found =>
              obtain ⟨slot, entry⟩ := found
              obtain ⟨hscanned, rfl⟩ := scanned_of_find hfind
              obtain ⟨fat', hdelchain⟩ := delchain_of_ends (htame.ends fat slot hload hscanned)
              simp only [rm, hload, hfind, hdelchain] at hrm
              cases hrm

/-! ## The loop of `get` -/

theorem loadgran_short {granule : Fin 68} (hshort : ¬ Reaches image offset granule) :
    ∃ message, loadgran image offset granule = .error (.exit message) := by
  have hlength : (pread image (seekgran offset granule) granz).length ≠ granz := by
    have hpositive : 0 < granz := by decide
    rw [length_pread]
    unfold Reaches at hshort
    omega
  simp only [loadgran]
  rw [if_pos hlength]
  split
  · exact ⟨_, rfl⟩
  · exact ⟨_, rfl⟩

theorem getLoop_short (fat : Fat) (entry : Dirent) {granule : Fin 68}
    (hshort : ¬ Reaches image opts.offset granule) (rounds : ℕ) (written : List UInt8) :
    ∃ message, getLoop opts image fat entry (rounds + 1) (UInt8.ofNat granule) written =
      ⟨some (.exit message), written⟩ := by
  obtain ⟨message, hload⟩ := loadgran_short hshort
  refine ⟨message, ?_⟩
  simp only [getLoop, toNat_ofNat_granule, Fin.isLt, dite_true, toNat_unmarked_granule,
    hload]

/-- `get` is safe along a chain that ends, unless its last granule is full and all of
them can be read. -/
theorem safe_getLoop {x : Fin 68} {nodes : List (Fin 68)} {mark : UInt8}
    (hchain : Chain (fatNext fat) x nodes mark) (hmark : isLast mark)
    (hfull : lastSize mark entry = granz → ∃ node ∈ nodes, ¬ Reaches image opts.offset node)
    {rounds : ℕ} (hrounds : nodes.length ≤ rounds) {written : List UInt8} {halt : Halt}
    (hhalt : (getLoop opts image fat entry rounds (UInt8.ofNat x) written).halt = some halt) :
    halt.Safe := by
  induction hchain generalizing rounds written with
  | @last node mark hnext =>
      obtain ⟨rounds, rfl⟩ := Nat.exists_eq_add_of_le' hrounds
      by_cases hreaches : Reaches image opts.offset node
      · rw [List.length_singleton, getLoop_granule hreaches, (fatNext_eq_inr hnext).1,
          if_pos hmark] at hhalt
        have hpartial : lastSize mark entry ≠ granz := by
          intro hsize
          obtain ⟨other, hmem, hshort⟩ := hfull hsize
          rw [List.mem_singleton.mp hmem] at hshort
          exact hshort hreaches
        dsimp only at hhalt
        split at hhalt
        · split at hhalt
          · cases hhalt
          · cases hhalt
            exact safe_exit _
        · split at hhalt
          · cases hhalt
            exact ⟨Halt.noConfusion, Halt.noConfusion⟩
          · cases hhalt
      · obtain ⟨message, hexit⟩ := getLoop_short fat entry hreaches rounds written
        rw [List.length_singleton, hexit] at hhalt
        cases hhalt
        exact safe_exit _
  | @link node succ nodes mark hnext htail ih =>
      obtain ⟨rounds, rfl⟩ := Nat.exists_eq_add_of_le' (Nat.le_of_add_left_le hrounds)
      by_cases hreaches : Reaches image opts.offset node
      · rw [getLoop_link hreaches (fatNext_eq_inl hnext)] at hhalt
        refine ih hmark ?_ (Nat.le_of_succ_le_succ hrounds) hhalt
        intro hsize
        obtain ⟨other, hmem, hshort⟩ := hfull hsize
        rcases List.mem_cons.mp hmem with rfl | hmem
        · exact absurd hreaches hshort
        · exact ⟨other, hmem, hshort⟩
      · obtain ⟨message, hexit⟩ := getLoop_short fat entry hreaches rounds written
        rw [hexit] at hhalt
        cases hhalt
        exact safe_exit _

/-- `get` is safe on every name exactly if the entries that can be named have chains
that it sees end. -/
theorem safe_get (htame : Tame image opts.offset) {name : List UInt8} {halt : Halt}
    (hget : (get opts image name).halt = some halt) : halt.Safe := by
  cases hload : loadfat image opts.offset with
  | error stop =>
      simp only [get, hload] at hget
      cases hget
      exact safe_loadfat hload
  | ok fat =>
      cases hfind : find image opts.offset name with
      | error stop =>
          simp only [get, hload, hfind] at hget
          cases hget
          exact safe_find hfind
      | ok found =>
          cases found with
          | none =>
              simp only [get, hload, hfind] at hget
              cases hget
              exact safe_exit _
          | some found =>
              obtain ⟨slot, entry⟩ := found
              obtain ⟨x, nodes, mark, hfirst, hchain, hmark, hfull⟩ :=
                htame.found fat name slot entry hload hfind
              have hcard := hchain.nodup.length_le_card
              rw [Fintype.card_fin] at hcard
              simp only [get, hload, hfind, hfirst] at hget
              exact safe_getLoop hchain hmark hfull (Nat.le_succ_of_le hcard) hget

theorem getLoop_outside_table {gran : UInt8} (hout : ¬ gran.toNat < 68) (rounds : ℕ)
    (written : List UInt8) :
    getLoop opts image fat entry (rounds + 1) gran written = ⟨some .undefined, written⟩ := by
  rw [getLoop, dif_neg hout]

/-- Where `get` is safe, it sees the chain end. -/
theorem getEnds_of_safe (hload : loadfat image opts.offset = .ok fat) {name : List UInt8}
    {slot : ℕ} (hfind : find image opts.offset name = .ok (some (slot, entry)))
    (hends : Ends fat entry.first)
    (hsafe : ∀ halt, (get opts image name).halt = some halt → halt.Safe) :
    GetEnds image opts.offset fat entry := by
  have hget : get opts image name = getLoop opts image fat entry (fatz + 1) entry.first [] := by
    simp only [get, hload, hfind]
  rw [hget] at hsafe
  obtain hlast | ⟨x, nodes, mark, hfirst, hchain, hmark⟩ := hends
  · have hout : ¬ entry.first.toNat < 68 := by
      have := (isLast_iff _).mp hlast
      omega
    rw [getLoop_outside_table hout] at hsafe
    exact absurd (hsafe _ rfl) not_safe_undefined
  · refine ⟨x, nodes, mark, hfirst, hchain, hmark, ?_⟩
    intro hsize
    by_contra hall
    have hreaches : ∀ node ∈ nodes, Reaches image opts.offset node := by
      intro node hmem
      by_contra hshort
      exact hall ⟨node, hmem, hshort⟩
    have hcard := hchain.nodup.length_le_card
    rw [Fintype.card_fin] at hcard
    rw [hfirst] at hsafe
    exact not_safe_undefined (hsafe _
      (getLoop_full hchain hmark hreaches hsize (Nat.lt_succ_of_le hcard) []))

end

end Fip.Decb
