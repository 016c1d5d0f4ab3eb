import Fip.Decb.Transfer

/-!
# The commands that walk every chain

`ls` counts the granules of each file, and `putboot` looks for the boot track in
each chain.  Both follow a chain up to a byte that ends it and never look whether
they stay inside the table or come back to a granule.
-/

namespace Fip.Decb

open Fip.ByteFile

/-- The loop `while ((x & 0xc0) != 0xc0)` over a chain; each round counts so much.
A chain that has not ended when each granule was visited has come back to one of
them, and never ends. -/
def walk (fat : Fat) (visit : UInt8 → ℕ) : ℕ → UInt8 → Except Halt ℕ
  | 0, _ => .error .diverges
  | rounds + 1, x =>
      if isLast x then .ok 0
      else if h : x.toNat < 68 then
        (walk fat visit rounds (fat ⟨x.toNat, h⟩)).map (visit x + ·)
      else .error .undefined

/-- Count granules in a file. -/
def countchain (fat : Fat) (first : UInt8) : Except Halt ℕ :=
  walk fat (fun _ => 1) (fatz + 1) first

/-- How often the chain comes to the boot track. -/
def bootRefs (fat : Fat) (first : UInt8) : Except Halt ℕ :=
  walk fat (fun x => if x = 66 ∨ x = 67 then 1 else 0) (fatz + 1) first

/-- Get free granules. -/
def granfree (fat : Fat) : ℕ :=
  (List.finRange 68).countP fun granule => fat granule = 0xff

local instance neZero_name : NeZero 8 := ⟨by decide⟩

local instance neZero_fat : NeZero 68 := ⟨by decide⟩

/-- The loop over the directory of `ls` and `putboot`: the body is for the entries
in use in front of the first one that was never used. -/
def eachEntryFrom {β : Type} (image : List UInt8) (offset : ℕ)
    (body : Dirent → Except Halt β) : ℕ → ℕ → Except Stop (List β)
  | _, 0 => .ok []
  | slot, calls + 1 =>
      match getentry image offset slot with
      | .error stop => .error stop
      | .ok none => .ok []
      | .ok (some entry) =>
          if entry.name 0 = 0xff then .ok []
          else if entry.name 0 = 0 then eachEntryFrom image offset body (slot + 1) calls
          else
            match body entry with
            | .error halt => .error ⟨halt, image⟩
            | .ok result =>
                (eachEntryFrom image offset body (slot + 1) calls).map (result :: ·)

def eachEntry {β : Type} (image : List UInt8) (offset : ℕ)
    (body : Dirent → Except Halt β) : Except Stop (List β) :=
  eachEntryFrom image offset body 0 (slots + 1)

/-- What `ls` prints: the label, each entry with its granules, and how many granules
are free. -/
structure Listing where
  label : Option (List UInt8)
  files : List (Dirent × ℕ)
  free : ℕ

/-- List contents of disk. -/
def list (opts : Opts) (image : List UInt8) : Except Stop Listing :=
  match loadfat image opts.offset with
  | .error stop => .error stop
  | .ok fat =>
      let buf := pread image (labelst + opts.offset) 256
      let label := if buf.getD 0 0 ≠ 0 ∧ buf.getD 0 0 ≠ 0xff then
        some (buf.takeWhile (· ≠ 0)) else none
      (eachEntry image opts.offset fun entry =>
        (countchain fat entry.first).map (entry, ·)).map fun files =>
          ⟨label, files, granfree fat⟩

/-- What `putboot` leaves, and what it prints. -/
structure Putb where
  image : List UInt8
  stderr : List String

/-- Write a file to the boot track. -/
def putb (opts : Opts) (image src : List UInt8) : Except Stop Putb :=
  match loadfat image opts.offset with
  | .error stop => .error stop
  | .ok fat =>
      match eachEntry image opts.offset fun entry => bootRefs fat entry.first with
      | .error stop => .error stop
      | .ok refs =>
          let image := pwrite image (seekgran opts.offset 66) (src.take granz)
          let image :=
            pwrite image (seekgran opts.offset 67) ((src.drop granz).take granz)
          let fat := Function.update (Function.update fat 67 0xc0) 66 0xc0
          .ok ⟨savefat image opts.offset fat,
            List.replicate refs.sum "error: boot track already used"⟩

/-! ## One chain -/

/-- The chain that starts with this byte stays inside the table and ends. -/
def Ends (fat : Fat) (first : UInt8) : Prop :=
  isLast first ∨ ∃ (x : Fin 68) (nodes : List (Fin 68)) (mark : UInt8),
    first = UInt8.ofNat x.val ∧ Chain (fatNext fat) x nodes mark ∧ isLast mark

section Chains

variable {fat : Fat} {visit : UInt8 → ℕ} {first : UInt8}

theorem walk_link (x : Fin 68) (rounds : ℕ) :
    walk fat visit (rounds + 1) (UInt8.ofNat x) =
      (walk fat visit rounds (fat x)).map (visit (UInt8.ofNat x) + ·) := by
  rw [walk, if_neg (not_isLast_granule x)]
  simp only [toNat_ofNat_granule, Fin.isLt, dite_true, Fin.eta]

/-- A walk that ends has met an end mark. -/
theorem ends_of_walk {rounds total : ℕ} (hwalk : walk fat visit rounds first = .ok total) :
    Ends fat first := by
  induction rounds generalizing first total with
  | zero => cases hwalk
  | succ rounds ih =>
      rw [walk] at hwalk
      split at hwalk
      · next hlast => exact .inl hlast
      · split at hwalk
        · next hlast hless =>
            cases hrest : walk fat visit rounds (fat ⟨first.toNat, hless⟩) with
            | error halt =>
                rw [hrest] at hwalk
                cases hwalk
            | ok more =>
                have hfirst : first = UInt8.ofNat (⟨first.toNat, hless⟩ : Fin 68).val :=
                  UInt8.ofNat_toNat.symm
                obtain hend | ⟨succ, nodes, mark, hlink, hchain, hmark⟩ := ih hrest
                · have hmark := (isLast_iff _).mp hend
                  exact .inr ⟨_, _, _, hfirst, .last (fatNext_mark fat _ (by omega)), hend⟩
                · exact .inr ⟨_, _, _, hfirst, .link (fatNext_link hlink) hchain, hmark⟩
        · cases hwalk

/-- The walk along a chain. -/
theorem walk_chain {x : Fin 68} {nodes : List (Fin 68)} {mark : UInt8}
    (hchain : Chain (fatNext fat) x nodes mark) (hmark : isLast mark) {rounds : ℕ}
    (hrounds : nodes.length < rounds) :
    walk fat visit rounds (UInt8.ofNat x) =
      .ok (nodes.map fun node => visit (UInt8.ofNat node.val)).sum := by
  induction hchain generalizing rounds with
  | @last node mark hnext =>
      obtain ⟨rounds, rfl⟩ := Nat.exists_eq_add_of_le' hrounds
      rw [List.length_singleton, walk_link, (fatNext_eq_inr hnext).1, walk, if_pos hmark]
      rfl
  | @link node succ nodes mark hnext htail ih =>
      obtain ⟨rounds, rfl⟩ := Nat.exists_eq_add_of_lt hrounds
      rw [walk_link, fatNext_eq_inl hnext, ih hmark (by rw [List.length_cons]; omega)]
      rfl

theorem walk_of_ends (hends : Ends fat first) :
    ∃ total, walk fat visit (fatz + 1) first = .ok total := by
  obtain hlast | ⟨x, nodes, mark, rfl, hchain, hmark⟩ := hends
  · exact ⟨0, by rw [walk, if_pos hlast]⟩
  · have hcard := hchain.nodup.length_le_card
    rw [Fintype.card_fin] at hcard
    exact ⟨_, walk_chain hchain hmark (Nat.lt_succ_of_le hcard)⟩

/-- However often the loop may go round, it ends on no other chains. -/
theorem walk_ends_iff :
    (∃ total, walk fat visit (fatz + 1) first = .ok total) ↔ Ends fat first :=
  ⟨fun ⟨_, hwalk⟩ => ends_of_walk hwalk, walk_of_ends⟩

end Chains

/-! ## All entries -/

/-- The file reaches to the end of the slot. -/
def ReachesSlot (image : List UInt8) (offset slot : ℕ) : Prop :=
  dirst + offset + 32 * slot + 32 ≤ image.length

/-- The loop over the directory comes to the entry in this slot, when it starts at
another one. -/
structure Scanned (image : List UInt8) (offset start slot : ℕ) : Prop where
  start_le : start ≤ slot
  lt : slot < slots
  reaches : ReachesSlot image offset slot
  marker : ∀ earlier, start ≤ earlier → earlier < slot →
    (entryOf image offset earlier).name 0 ≠ 0xff
  live : (entryOf image offset slot).isLive

section Entries

variable {image : List UInt8} {offset slot start : ℕ}

theorem ReachesSlot.of_le (hreaches : ReachesSlot image offset slot) (hle : start ≤ slot) :
    ReachesSlot image offset start := by
  unfold ReachesSlot at *
  omega

theorem ReachesSlot.getentry_eq (hreaches : ReachesSlot image offset slot) :
    getentry image offset slot =
      .ok (if slot < slots then some (entryOf image offset slot) else none) := by
  have hlength : (pread image (dirst + offset + 32 * slot) 32).length = 32 :=
    length_pread_of_le hreaches
  rcases Nat.lt_or_ge slot slots with hlt | hge
  · simp [getentry, hlength, hlt, entryOf, Nat.not_lt.mpr (Nat.succ_le_of_lt hlt)]
  · simp [getentry, hlength, Nat.lt_succ_of_le hge, Nat.not_lt.mpr hge]

theorem getentry_short (hreaches : ¬ ReachesSlot image offset slot) :
    getentry image offset slot = .error ⟨.exit "dir read", image⟩ := by
  have hlength : (pread image (dirst + offset + 32 * slot) 32).length ≠ 32 := by
    rw [length_pread]
    unfold ReachesSlot at hreaches
    omega
  simp [getentry, hlength]

theorem Scanned.from_succ (hscanned : Scanned image offset start slot) (hne : start ≠ slot) :
    Scanned image offset (start + 1) slot := by
  refine ⟨Nat.lt_of_le_of_ne hscanned.start_le hne, hscanned.lt, hscanned.reaches, ?_,
    hscanned.live⟩
  intro earlier hle hlt
  exact hscanned.marker earlier (Nat.le_of_succ_le hle) hlt

theorem Scanned.to_succ (hscanned : Scanned image offset (start + 1) slot)
    (hmark : (entryOf image offset start).name 0 ≠ 0xff) : Scanned image offset start slot := by
  refine ⟨Nat.le_of_succ_le hscanned.start_le, hscanned.lt, hscanned.reaches, ?_,
    hscanned.live⟩
  intro earlier hle hlt
  rcases Nat.eq_or_lt_of_le hle with rfl | hless
  · exact hmark
  · exact hscanned.marker earlier hless hlt

theorem Scanned.marker_start (hscanned : Scanned image offset start slot) :
    (entryOf image offset start).name 0 ≠ 0xff := by
  rcases Nat.eq_or_lt_of_le hscanned.start_le with rfl | hlt
  · exact fun hmark => hscanned.live (.inr hmark)
  · exact hscanned.marker start (Nat.le_refl start) hlt

/-- The entries after the first one. -/
theorem Scanned.forall_succ {P : ℕ → Prop}
    (hmark : (entryOf image offset start).name 0 ≠ 0xff)
    (hstart : Scanned image offset start start → P start) :
    (∀ slot, Scanned image offset (start + 1) slot → P slot) ↔
      ∀ slot, Scanned image offset start slot → P slot := by
  constructor
  · intro hall slot hscanned
    by_cases hne : start = slot
    · subst hne
      exact hstart hscanned
    · exact hall slot (hscanned.from_succ hne)
  · intro hall slot hscanned
    exact hall slot (hscanned.to_succ hmark)

variable {β : Type} {body : Dirent → Except Halt β} {good : Halt → Prop}

/-- The loop stops in a good way if the body succeeds for each entry it comes to,
where the body itself fails in bad ways only. -/
theorem eachEntryFrom_iff (hbad : ∀ entry halt, body entry = .error halt → ¬ good halt)
    (hshort : ∀ slot ≤ slots, ¬ ReachesSlot image offset slot → good (.exit "dir read"))
    (calls : ℕ) (hcalls : start + calls = slots + 1) :
    (∀ stop, eachEntryFrom image offset body start calls = .error stop → good stop.halt) ↔
      ∀ slot, Scanned image offset start slot →
        ∃ result, body (entryOf image offset slot) = .ok result := by
  induction calls generalizing start with
  | zero =>
      apply iff_of_true
      · intro stop hstop
        cases hstop
      · intro slot hscanned
        have := hscanned.start_le
        have := hscanned.lt
        omega
  | succ calls ih =>
      have hnext := @ih (start + 1) (by omega)
      rw [eachEntryFrom]
      by_cases hreaches : ReachesSlot image offset start
      · rw [hreaches.getentry_eq]
        by_cases hlt : start < slots
        · rw [if_pos hlt]
          dsimp only
          split
          · next hmark =>
              apply iff_of_true
              · intro stop hstop
                cases hstop
              · intro slot hscanned
                exact absurd hmark hscanned.marker_start
          · next hmark =>
              split
              · next hdeleted =>
                  rw [hnext]
                  apply Scanned.forall_succ hmark
                  intro hscanned
                  exact absurd (.inl hdeleted) hscanned.live
              · next hname =>
                  have hstart : Scanned image offset start start :=
                    ⟨Nat.le_refl start, hlt, hreaches,
                      fun earlier hle hless => absurd hless (Nat.not_lt.mpr hle),
                      not_or.mpr ⟨hname, hmark⟩⟩
                  cases hbody : body (entryOf image offset start) with
                  | error halt =>
                      apply iff_of_false
                      · intro hgood
                        exact hbad _ halt hbody (hgood _ rfl)
                      · intro hall
                        obtain ⟨result, hresult⟩ := hall start hstart
                        cases hbody.symm.trans hresult
                  | ok result =>
                      rw [← Scanned.forall_succ hmark fun _ => ⟨result, hbody⟩, ← hnext]
                      cases eachEntryFrom image offset body (start + 1) calls with
                      | error stop => exact Iff.rfl
                      | ok results =>
                          apply iff_of_true
                          · intro stop hstop
                            cases hstop
                          · intro stop hstop
                            cases hstop
        · rw [if_neg hlt]
          apply iff_of_true
          · intro stop hstop
            cases hstop
          · intro slot hscanned
            have := hscanned.start_le
            have := hscanned.lt
            omega
      · rw [getentry_short hreaches]
        apply iff_of_true
        · rintro stop ⟨⟩
          exact hshort start (by omega) hreaches
        · intro slot hscanned
          exact absurd (hscanned.reaches.of_le hscanned.start_le) hreaches

end Entries

end Fip.Decb
