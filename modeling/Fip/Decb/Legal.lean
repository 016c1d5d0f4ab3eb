import Fip.Decb.Transfer

/-!
# `get` on the files of other programs

The format counts a full last sector as a sector of 256 bytes, so that the last
granule of a file may be full.  `get` takes a whole granule for one that has a
successor.
-/

namespace Fip.Decb

local instance neZero_remainder : NeZero 2 := ⟨by decide⟩

local instance neZero_nameA : NeZero 8 := ⟨by decide⟩

local instance neZero_fatA : NeZero 68 := ⟨by decide⟩

/-- The end mark of a chain whose last granule has so many sectors in use. -/
def sectorMark (s : ℕ) : UInt8 := UInt8.ofNat (0xc0 + s)

/-- The bytes in use of the last sector. -/
def lastBytes (entry : Dirent) : ℕ :=
  (entry.remainder 0).toNat * 256 + (entry.remainder 1).toNat

/-- The file of an entry as the format has it: the granules of its chain, the
sectors in use of the last one, and the bytes in use of the last of these. -/
structure Legal (image : List UInt8) (offset : ℕ) (entry : Dirent) (nodes : List (Fin 68))
    (s r : ℕ) : Prop where
  chain : ∃ x : Fin 68, entry.first = UInt8.ofNat x.val ∧
    Chain (fatNext (fatOf image offset)) x nodes (sectorMark s)
  sectors : 1 ≤ s ∧ s ≤ 9
  bytes : lastBytes entry = r
  bytes_le : r ≤ 256

/-- `get` succeeds, and what it writes is the chain's granules, cut at the length of
the file. -/
def ReadsFile (opts : Opts) (image name : List UInt8) (nodes : List (Fin 68)) (s r : ℕ) :
    Prop :=
  ∃ written, get opts image name = ⟨none, written⟩ ∧
    written.length = 2304 * (nodes.length - 1) + 256 * (s - 1) + r ∧
    written <+: nodes.flatMap (granOf image opts.offset)

section

variable {opts : Opts} {image name : List UInt8} {slot : ℕ} {entry : Dirent}
  {nodes : List (Fin 68)} {s r : ℕ}

theorem isLast_sectorMark (hs : s ≤ 9) : isLast (sectorMark s) := by
  have hall : ∀ n : Fin 10, isLast (sectorMark n.val) := by decide
  exact hall ⟨s, Nat.lt_succ_of_le hs⟩

theorem lastSize_sectorMark (hs : 1 ≤ s ∧ s ≤ 9) (entry : Dirent) :
    lastSize (sectorMark s) entry = (256 * (s - 1) + lastBytes entry : ℕ) := by
  have hall : ∀ n : Fin 10, (sectorMark n.val &&& ~~~0xc0).toNat = n.val := by decide
  have hsectors : (sectorMark s &&& ~~~0xc0).toNat = s := hall ⟨s, Nat.lt_succ_of_le hs.2⟩
  rw [lastSize, hsectors, lastBytes, Nat.shiftLeft_eq, secz]
  omega

/-- A last granule that is full is taken for one with a successor, and the end mark
for a granule. -/
theorem getLoop_full {fat : Fat} {x : Fin 68} {mark : UInt8}
    (hchain : Chain (fatNext fat) x nodes mark) (hmark : isLast mark)
    (hreaches : ∀ node ∈ nodes, Reaches image opts.offset node)
    (hsize : lastSize mark entry = granz) {rounds : ℕ} (hrounds : nodes.length < rounds)
    (written : List UInt8) :
    (getLoop opts image fat entry rounds (UInt8.ofNat x) written).halt = some .undefined := by
  obtain ⟨front, last, left, rfl, hlast, hleft, hloop⟩ := getLoop_links entry hchain
    hreaches hrounds.le written
  have hend := hreaches last (List.mem_append_right front (List.mem_singleton_self last))
  obtain ⟨left, rfl⟩ := Nat.exists_eq_add_of_le' (show 1 ≤ left by omega)
  have houtside : ¬ mark.toNat < 68 := by
    have := (isLast_iff mark).mp hmark
    omega
  rw [hloop, getLoop_granule hend, hlast, if_pos hmark, hsize]
  dsimp only
  rw [if_neg (by omega), if_neg (lt_irrefl _), if_pos rfl, getLoop, dif_neg houtside]

theorem get_eq_getLoop (hholds : Holds image opts.offset)
    (hfind : find image opts.offset name = .ok (some (slot, entry))) :
    get opts image name =
      getLoop opts image (fatOf image opts.offset) entry (fatz + 1) entry.first [] := by
  simp only [get, loadfat_eq hholds, hfind]

theorem not_readsFile_of_full (hholds : Holds image opts.offset)
    (hfind : find image opts.offset name = .ok (some (slot, entry)))
    (hlegal : Legal image opts.offset entry nodes 9 256) :
    ¬ ReadsFile opts image name nodes 9 256 := by
  obtain ⟨x, hfirst, hchain⟩ := hlegal.chain
  have hsize := lastSize_sectorMark hlegal.sectors entry
  rw [hlegal.bytes] at hsize
  have hcard := hchain.nodup.length_le_card
  rw [Fintype.card_fin] at hcard
  have hrounds : nodes.length < fatz + 1 := Nat.lt_succ_of_le hcard
  have hhalt := getLoop_full hchain (isLast_sectorMark (Nat.le_refl 9))
    (fun node _ => hholds.reaches node) hsize hrounds []
  rintro ⟨written, hread, -⟩
  rw [← hfirst, ← get_eq_getLoop hholds hfind, hread] at hhalt
  cases hhalt

theorem readsFile_of_short (hholds : Holds image opts.offset) (htrans : opts.trans = false)
    (hfind : find image opts.offset name = .ok (some (slot, entry)))
    (hlegal : Legal image opts.offset entry nodes s r) (hshort : 256 * (s - 1) + r < granz) :
    ReadsFile opts image name nodes s r := by
  obtain ⟨x, hfirst, hchain⟩ := hlegal.chain
  have hsize := lastSize_sectorMark hlegal.sectors entry
  rw [hlegal.bytes] at hsize
  have hcard := hchain.nodup.length_le_card
  rw [Fintype.card_fin] at hcard
  have hpos := List.length_pos_iff.mpr hchain.ne_nil
  have hhost : ∀ bytes, opts.toHost bytes = bytes := by
    intro bytes
    rw [Opts.toHost, htrans]
    rfl
  have hloop := getLoop_chain hholds hchain (isLast_sectorMark hlegal.sectors.2) hsize hshort
    (fatz + 1) (Nat.le_succ_of_le hcard) []
  rw [hhost, List.nil_append, ← hfirst, ← get_eq_getLoop hholds hfind] at hloop
  refine ⟨_, hloop, ?_, List.take_prefix _ _⟩
  rw [List.length_take, length_flatMap_granOf fun node _ => hholds.reaches node, granz]
  rw [granz] at hshort
  omega

/-- `get` reads the files that the format allows, but for those that end with a full
granule. -/
theorem get_legal_iff (hholds : Holds image opts.offset) (htrans : opts.trans = false)
    (hfind : find image opts.offset name = .ok (some (slot, entry)))
    (hlegal : Legal image opts.offset entry nodes s r) :
    ReadsFile opts image name nodes s r ↔ ¬ (s = 9 ∧ r = 256) := by
  constructor
  · rintro hread ⟨rfl, rfl⟩
    exact not_readsFile_of_full hholds hfind hlegal hread
  · intro hpartial
    apply readsFile_of_short hholds htrans hfind hlegal
    have hsectors := hlegal.sectors
    have hbytes := hlegal.bytes_le
    rw [granz]
    omega

end

/-! ## A disk with one entry -/

/-- An entry with the name `A`, the first granule 0 and so many bytes in use of the
last sector. -/
def entryA (r : ℕ) : Dirent where
  name i := if i = 0 then 0x41 else 0x20
  ext _ := 0x20
  type := 0
  aflag := 0
  first := 0
  remainder i := if i = 0 then UInt8.ofNat (r / 256) else UInt8.ofNat (r % 256)
  unused _ := 0

/-- A disk that was never used but for this entry and the table byte of granule 0. -/
def diskA (value : UInt8) (r : ℕ) : List UInt8 :=
  saveentry
    (savefat (List.replicate diskz 0xff) 0 (Function.update (fun _ => 0xff) 0 value))
    0 0 (entryA r)

section

variable (value : UInt8) (r : ℕ)

theorem holds_blank : Holds (List.replicate diskz 0xff) 0 := by
  rw [Holds, List.length_replicate, Nat.zero_add]

theorem holds_savefat :
    Holds (savefat (List.replicate diskz 0xff) 0 (Function.update (fun _ => 0xff) 0 value))
      0 :=
  holds_blank.of_length_eq (savefat_frame holds_blank _).1

theorem holds_diskA : Holds (diskA value r) 0 :=
  (holds_savefat value).of_length_eq
    (saveentry_frame (holds_savefat value) (entryA r) (by decide)).1

theorem fatOf_diskA : fatOf (diskA value r) 0 = Function.update (fun _ => 0xff) 0 value := by
  rw [diskA, fatOf_saveentry (holds_savefat value) _ (by decide), fatOf_savefat holds_blank]

theorem entryOf_diskA : entryOf (diskA value r) 0 0 = entryA r := by
  rw [diskA, entryOf_saveentry (holds_savefat value) _ (by decide) 0 (by decide), if_pos rfl]

theorem find_diskA : find (diskA value r) 0 [0x41] = .ok (some (0, entryA r)) := by
  have hentry := entryOf_diskA value r
  rw [← hentry]
  apply find_eq_some (holds_diskA value r) (by decide) (by decide)
  · rw [hentry]
    rfl
  · intro earlier hle
    rw [Nat.le_zero.mp hle, hentry]
    exact (by decide : (0x41 : UInt8) ≠ 0xff)
  · intro earlier hlt
    exact absurd hlt (Nat.not_lt_zero _)

theorem legal_diskA {s : ℕ} (hs : 1 ≤ s ∧ s ≤ 9) (hr : r ≤ 256) :
    Legal (diskA (sectorMark s) r) 0 (entryA r) [0] s r := by
  refine ⟨⟨0, rfl, .last ?_⟩, hs, ?_, hr⟩
  · have hvalue : fatOf (diskA (sectorMark s) r) 0 0 = sectorMark s := by
      rw [fatOf_diskA, Function.update_self]
    have hmark := (isLast_iff _).mp (isLast_sectorMark hs.2)
    rw [fatNext_mark _ _ (by rw [hvalue]; omega), hvalue]
  · change (UInt8.ofNat (r / 256)).toNat * 256 + (UInt8.ofNat (r % 256)).toNat = r
    rw [UInt8.toNat_ofNat', UInt8.toNat_ofNat']
    omega

end

/-- A file of one byte is read. -/
theorem get_legal_iff_oneByte :
    ReadsFile .initial (diskA (sectorMark 1) 1) [0x41] [0] 1 1 ↔ ¬ (1 = 9 ∧ 1 = 256) :=
  get_legal_iff (holds_diskA _ 1) rfl (find_diskA _ 1)
    (legal_diskA 1 ⟨Nat.le_refl 1, by decide⟩ (by decide))

/-- A file of one full granule is not. -/
theorem not_readsFile_fullGranule :
    Legal (diskA (sectorMark 9) 256) 0 (entryA 256) [0] 9 256 ∧
      find (diskA (sectorMark 9) 256) 0 [0x41] = .ok (some (0, entryA 256)) ∧
      ¬ ReadsFile .initial (diskA (sectorMark 9) 256) [0x41] [0] 9 256 := by
  have hlegal := legal_diskA 256 (s := 9) ⟨by decide, by decide⟩ (Nat.le_refl 256)
  have hfind := find_diskA (sectorMark 9) 256
  exact ⟨hlegal, hfind, not_readsFile_of_full (holds_diskA _ 256) hfind hlegal⟩

end Fip.Decb
