import Fip.Lwwire.Array

/-!
# Whatever is on the line

The server takes any byte for an operation that it is not waiting for.  Over every text on
the line, lost bytes and noise included, its sectors are those of the last write whose
bytes are all there, in the frame in which the server reads them.
-/

namespace Fip.Lwwire

open Fip.ByteFile Fip.Sectors
open Dialogue (run)

/-- The operations on sectors. -/
def IsSector (op : UInt8) : Prop :=
  op = 0x52 ∨ op = 0x72 ∨ op = 0xD2 ∨ op = 0xF2 ∨ op = 0x57 ∨ op = 0x77

instance : DecidablePred IsSector := fun _ => inferInstanceAs (Decidable (_ ∨ _))

/-- How many bytes an operation reads behind its code; those of READEX are the sector and
the sum of the client. -/
def arguments (op : UInt8) : ℕ :=
  if op = 0x52 ∨ op = 0x72 then 4
  else if op = 0xD2 ∨ op = 0xF2 then 6
  else if op = 0x57 ∨ op = 0x77 then 262
  else if op = 0x47 ∨ op = 0x53 ∨ op = 0xF3 then 2
  else if op = 0x50 ∨ op = 0x5A ∨ op = 0xF0 ∨ op = 0xF1 then 1
  else 0

/-- An operation with all of its bytes. -/
inductive Frame
  | request (request : Request)
  | other (op : UInt8) (args : List UInt8) (hop : ¬IsSector op)
      (hargs : args.length = arguments op)

namespace Frame

def bytes : Frame → List UInt8
  | request r => r.bytes
  | other op args _ _ => op :: args

/-- What is stored in a sector by a frame: the data of a write with the right sum, to a
drive that can be written. -/
def stores (s : Server) (drive : UInt8) (lsn : ℕ) : Frame → Option (List UInt8)
  | request (.write _ dn at_ data hi lo) =>
      if dn = drive ∧ at_.toNat = lsn ∧ csum data.1 % 65536 = hi.toNat * 256 + lo.toNat ∧
          (s.drivedata dn).isconst = false ∧ (s.drivedata dn).path ≠ none then
        some data.1
      else none
  | _ => none

end Frame

/-- The last data for a sector. -/
def lastStored (s : Server) (drive : UInt8) (lsn : ℕ) : List Frame → Option (List UInt8)
  | [] => none
  | frame :: later => (lastStored s drive lsn later).or (frame.stores s drive lsn)

/-- Less than an operation. -/
def Unfinished (rest : List UInt8) : Prop :=
  ∀ op args, rest = op :: args → args.length < arguments op

variable {s s' : Server} {op : UInt8} {args text : List UInt8}

/-! ## Frames -/

theorem arguments_read (hop : op = 0x52 ∨ op = 0x72) : arguments op = 4 := if_pos hop

theorem arguments_readex (hop : op = 0xD2 ∨ op = 0xF2) : arguments op = 6 := by
  rcases hop with rfl | rfl <;> rfl

theorem arguments_write (hop : op = 0x57 ∨ op = 0x77) : arguments op = 262 := by
  rcases hop with rfl | rfl <;> rfl

theorem exists_of_four_le (hargs : 4 ≤ args.length) :
    ∃ drive hi mid lo rest, args = drive :: hi :: mid :: lo :: rest := by
  obtain ⟨drive, args, rfl⟩ := List.exists_cons_of_length_pos (by omega : 0 < args.length)
  rw [List.length_cons] at hargs
  obtain ⟨hi, args, rfl⟩ := List.exists_cons_of_length_pos (by omega : 0 < args.length)
  rw [List.length_cons] at hargs
  obtain ⟨mid, args, rfl⟩ := List.exists_cons_of_length_pos (by omega : 0 < args.length)
  rw [List.length_cons] at hargs
  obtain ⟨lo, args, rfl⟩ := List.exists_cons_of_length_pos (by omega : 0 < args.length)
  exact ⟨drive, hi, mid, lo, args, rfl⟩

/-- The bytes of an operation on sectors are those of a request. -/
theorem exists_request (hop : IsSector op) (hargs : args.length = arguments op) :
    ∃ request : Request, request.bytes = op :: args := by
  have hcode : ∀ {a b : UInt8}, op = a ∨ op = b → ∃ again : Bool, op = bif again then b else a := by
    rintro a b (rfl | rfl)
    · exact ⟨false, rfl⟩
    · exact ⟨true, rfl⟩
  rw [IsSector, ← or_assoc, ← or_assoc (a := op = 0xD2)] at hop
  rcases hop with hread | hreadex | hwrite
  · rw [arguments_read hread] at hargs
    obtain ⟨again, rfl⟩ := hcode hread
    obtain ⟨drive, hi, mid, lo, rest, rfl⟩ := exists_of_four_le (Nat.le_of_eq hargs.symm)
    obtain rfl : rest = [] := List.length_eq_zero_iff.mp (by simpa using hargs)
    exact ⟨.read again drive ⟨hi, mid, lo⟩, rfl⟩
  · rw [arguments_readex hreadex] at hargs
    obtain ⟨again, rfl⟩ := hcode hreadex
    obtain ⟨drive, hi, mid, lo, rest, rfl⟩ := exists_of_four_le (by omega : 4 ≤ args.length)
    obtain ⟨sumHi, sumLo, rfl⟩ := List.length_eq_two.mp (by simpa using hargs : rest.length = 2)
    exact ⟨.readex again drive ⟨hi, mid, lo⟩ sumHi sumLo, rfl⟩
  · rw [arguments_write hwrite] at hargs
    obtain ⟨again, rfl⟩ := hcode hwrite
    obtain ⟨drive, hi, mid, lo, rest, rfl⟩ := exists_of_four_le (by omega : 4 ≤ args.length)
    have hrest : rest.length = 258 := by simpa using hargs
    have hdata : (rest.take 256).length = 256 := by
      rw [List.length_take, hrest]
      rfl
    obtain ⟨sumHi, sumLo, hsum⟩ := List.length_eq_two.mp
      (by rw [List.length_drop, hrest] : (rest.drop 256).length = 2)
    refine ⟨.write again drive ⟨hi, mid, lo⟩ ⟨rest.take 256, hdata⟩ sumHi sumLo, ?_⟩
    rw [Request.bytes, ← hsum, List.take_append_drop]
    rfl

theorem exists_frame (hargs : args.length = arguments op) :
    ∃ frame : Frame, frame.bytes = op :: args := by
  by_cases hop : IsSector op
  · obtain ⟨request, hbytes⟩ := exists_request hop hargs
    exact ⟨.request request, hbytes⟩
  · exact ⟨.other op args hop hargs, rfl⟩

/-- A text is one frame behind the other, with at most one unfinished behind them. -/
theorem exists_frames (text : List UInt8) :
    ∃ (frames : List Frame) (rest : List UInt8),
      text = frames.flatMap Frame.bytes ++ rest ∧ Unfinished rest := by
  induction hlength : text.length using Nat.strongRecOn generalizing text with
  | ind length ih =>
      subst hlength
      cases text with
      | nil => exact ⟨[], [], rfl, fun op args hnil => by cases hnil⟩
      | cons op args =>
          by_cases hshort : args.length < arguments op
          · refine ⟨[], op :: args, rfl, fun op' args' heq => ?_⟩
            cases heq
            exact hshort
          · have hargs : (args.take (arguments op)).length = arguments op := by
              rw [List.length_take]
              exact Nat.min_eq_left (Nat.not_lt.mp hshort)
            have hless : (args.drop (arguments op)).length < (op :: args).length := by
              rw [List.length_drop, List.length_cons]
              exact Nat.lt_succ_of_le (Nat.sub_le _ _)
            obtain ⟨frame, hframe⟩ := exists_frame hargs
            obtain ⟨frames, rest, hrest, hunfinished⟩ :=
              ih _ hless (args.drop (arguments op)) rfl
            refine ⟨frame :: frames, rest, ?_, hunfinished⟩
            rw [List.flatMap_cons, hframe, List.append_assoc, ← hrest, List.cons_append,
              List.take_append_drop]

/-! ## One frame -/

/-- What a frame does to all sectors. -/
structure Served (s s' : Server) (frame : Frame) : Prop where
  path : ∀ dn, (s'.drivedata dn).path = (s.drivedata dn).path
  isconst : ∀ dn, (s'.drivedata dn).isconst = (s.drivedata dn).isconst
  sector : ∀ dn lsn, sector 256 (s'.image dn) lsn =
    (frame.stores s dn lsn).getD (sector 256 (s.image dn) lsn)

theorem Served.of_sameDrives {frame : Frame} (hsame : SameDrives s s')
    (hstores : ∀ dn lsn, frame.stores s dn lsn = none) : Served s s' frame := by
  refine ⟨hsame.path, hsame.isconst, fun dn lsn => ?_⟩
  rw [hstores, hsame.image]
  rfl

/-- An operation without arguments. -/
theorem run_op (s : Server) (op : UInt8) :
    run main (.done s) [op] = (operation s [op]).settle := by
  have hmain : main s = .read (0 + 1) (operation s) := rfl
  have hrun := Dialogue.run_done_append main hmain (rfl : [op].length = 0 + 1) []
  rw [List.append_nil, Dialogue.run_nil, List.append_nil] at hrun
  exact hrun

/-- A program reads so many bytes, and ends with the drives as they were. -/
def Leaves (s : Server) : ℕ → Dialogue UInt8 Server → Prop
  | 0, program => ∃ reply s', program.settle = (reply, .done s') ∧ SameDrives s s'
  | count + 1, program =>
      ∃ next, program = .read (count + 1) next ∧
        ∀ args, ∃ reply s', (next args).settle = (reply, .done s') ∧ SameDrives s s'

theorem sameDrives_of_eq (hdrives : s'.drivedata = s.drivedata) (hfiles : s'.files = s.files) :
    SameDrives s s' := by
  cases s'
  cases hdrives
  cases hfiles
  exact ⟨fun _ => rfl, fun _ => rfl, fun _ hfile => hfile, fun _ => rfl⟩

theorem leaves_other (s : Server) (hop : ¬IsSector op) :
    Leaves s (arguments op) (operation s [op]) := by
  have hbuf : buffer [op] 0 = op := buffer_drive op []
  rw [operation, hbuf]
  split
  case h_22 =>
    have hnone : arguments op = 0 := by simp_all [arguments]
    rw [hnone]
    exact ⟨_, _, rfl, .refl s⟩
  all_goals
    first
    | exact absurd (by decide) hop
    | exact ⟨_, _, rfl, sameDrives_of_eq rfl rfl⟩
    | exact ⟨_, rfl, fun _ => ⟨_, _, rfl, sameDrives_of_eq rfl rfl⟩⟩

/-- An operation that has nothing to do with sectors. -/
theorem run_other (s : Server) (hop : ¬IsSector op) (hargs : args.length = arguments op) :
    ∃ reply s', run main (.done s) (op :: args) = (reply, .done s') ∧ SameDrives s s' := by
  have hleaves := leaves_other s hop
  rcases hcount : arguments op with _ | count
  · rw [hcount] at hleaves hargs
    obtain ⟨reply, s', hsettle, hsame⟩ := hleaves
    obtain rfl := List.length_eq_zero_iff.mp hargs
    exact ⟨reply, s', (run_op s op).trans hsettle, hsame⟩
  · rw [hcount] at hleaves hargs
    obtain ⟨next, hread, hnext⟩ := hleaves
    obtain ⟨reply, s', hsettle, hsame⟩ := hnext args
    exact ⟨reply, s', (run_main hread hargs).trans hsettle, hsame⟩

theorem saveSector_ready {drive : UInt8} (hready : s.Ready drive)
    (hconst : ¬(s.drivedata drive).isconst = true) (lsn : UInt32) (buf : List UInt8) :
    (saveSector s drive lsn buf).2 = 0 := by
  have hsome := fetchDriveFp_ready s drive hready
  have hspec := fetchDriveFp_spec s drive
  rw [saveSector, if_neg hconst]
  rcases hfetch : fetchDriveFp s drive with ⟨s', _ | fp⟩
  · rw [hfetch] at hsome
    exact absurd rfl hsome
  · rw [hfetch] at hspec
    have hconst' : ¬(s'.drivedata drive).isconst = true := by
      rw [hspec.1.isconst drive]
      exact hconst
    dsimp only
    rw [if_neg hconst']

/-- A write that is not refused is answered with zero. -/
theorem answer_write (again : Bool) (drive : UInt8) (lsn : Lsn)
    (data : { cells : List UInt8 // cells.length = 256 }) (hi lo : UInt8)
    (haccepted : ¬(Request.write again drive lsn data hi lo).Refused s) :
    answer s (.write again drive lsn data hi lo) = [0] := by
  have hop : (bif again then (0x77 : UInt8) else 0x57) = 0x57 ∨
      (bif again then (0x77 : UInt8) else 0x57) = 0x77 := by
    cases again
    · exact .inl rfl
    · exact .inr rfl
  rw [Request.Refused, not_or, not_or, not_not] at haccepted
  obtain ⟨hsum, hconst, hpath⟩ := haccepted
  have hready : s.Ready drive := by
    obtain ⟨path, hpath⟩ := Option.ne_none_iff_exists'.mp hpath
    exact ⟨path, hpath, .inr (Bool.eq_false_iff.mpr hconst)⟩
  have hrun := run_write s drive lsn hop data.2 hi lo
  rw [if_pos hsum] at hrun
  rw [answer, Request.bytes, hrun, saveSector_ready hready hconst]
  rfl

/-- What a request stores does not depend on its answer. -/
theorem stores_request (hdistinct : s.Distinct) (request : Request) (drive : UInt8) (lsn : ℕ) :
    request.stores drive lsn (answer s request) = (Frame.request request).stores s drive lsn := by
  cases request with
  | read => rfl
  | readex => rfl
  | write again dn at_ data hi lo =>
      by_cases hrefused : (Request.write again dn at_ data hi lo).Refused s
      · obtain ⟨code, hanswer, hcode⟩ := (request_effect hdistinct _).2.refused hrefused
        rw [hanswer, stores_of_error hcode, Frame.stores, if_neg]
        rintro ⟨-, -, hsum, hconst, hpath⟩
        rcases hrefused with hwrong | hreadonly | hnone
        · exact hwrong hsum
        · rw [hconst] at hreadonly
          cases hreadonly
        · exact hpath hnone
      · rw [answer_write again dn at_ data hi lo hrefused, Request.stores, Frame.stores]
        rw [Request.Refused, not_or, not_or, not_not, Bool.not_eq_true] at hrefused
        simp only [List.head?_cons, hrefused, and_true, ne_eq, not_false_eq_true]

theorem frame_served (hdistinct : s.Distinct) (frame : Frame) :
    ∃ reply s', run main (.done s) frame.bytes = (reply, .done s') ∧ Served s s' frame := by
  cases frame with
  | other op args hop hargs =>
      obtain ⟨reply, s', hrun, hsame⟩ := run_other s hop hargs
      exact ⟨reply, s', hrun, .of_sameDrives hsame fun _ _ => rfl⟩
  | request request =>
      obtain ⟨hrun, heffect⟩ := request_effect hdistinct request
      refine ⟨_, _, hrun, heffect.path, heffect.isconst, fun dn lsn => ?_⟩
      rw [heffect.sector, stores_request hdistinct]

/-! ## Runs -/

theorem Served.distinct {frame : Frame} (hserved : Served s s' frame) (hdistinct : s.Distinct) :
    s'.Distinct := by
  intro dn other path hdn hother
  rw [hserved.path] at hdn hother
  exact hdistinct dn other path hdn hother

/-- Later frames store what they would have stored before. -/
theorem Served.stores {frame : Frame} (hserved : Served s s' frame) (later : Frame) (drive : UInt8)
    (lsn : ℕ) : later.stores s' drive lsn = later.stores s drive lsn := by
  cases later with
  | other => rfl
  | request request =>
      cases request with
      | read => rfl
      | readex => rfl
      | write again dn at_ data hi lo =>
          simp only [Frame.stores, hserved.path, hserved.isconst]

theorem Served.lastStored {frame : Frame} (hserved : Served s s' frame) (drive : UInt8) (lsn : ℕ)
    (frames : List Frame) : lastStored s' drive lsn frames = lastStored s drive lsn frames := by
  induction frames with
  | nil => rfl
  | cons later frames ih => rw [Lwwire.lastStored, Lwwire.lastStored, ih, hserved.stores]

theorem run_frames (hdistinct : s.Distinct) (frames : List Frame) :
    ∃ replies s', run main (.done s) (frames.flatMap Frame.bytes) = (replies, .done s') ∧
      (∀ dn, (s'.drivedata dn).path = (s.drivedata dn).path ∧
        (s'.drivedata dn).isconst = (s.drivedata dn).isconst) ∧
      ∀ dn lsn, sector 256 (s'.image dn) lsn =
        (lastStored s dn lsn frames).getD (sector 256 (s.image dn) lsn) := by
  induction frames generalizing s with
  | nil => exact ⟨[], s, rfl, fun _ => ⟨rfl, rfl⟩, fun _ _ => rfl⟩
  | cons frame frames ih =>
      obtain ⟨reply, s₁, hframe, hserved⟩ := frame_served hdistinct frame
      obtain ⟨replies, s₂, hrun, hconfig, hsector⟩ := ih (hserved.distinct hdistinct)
      refine ⟨reply ++ replies, s₂, ?_, fun dn => ?_, fun dn lsn => ?_⟩
      · rw [List.flatMap_cons, Dialogue.run_append, hframe]
        dsimp only
        rw [hrun]
      · exact ⟨(hconfig dn).1.trans (hserved.path dn), (hconfig dn).2.trans (hserved.isconst dn)⟩
      · rw [hsector, hserved.sector, hserved.lastStored, lastStored]
        cases lastStored s dn lsn frames with
        | none => rfl
        | some data => rfl

/-- A sector is written, behind noise that takes a code for its argument. -/
def noisy : List Frame :=
  [.other 0x99 [] (by decide) rfl, .other 0xF0 [0x57] (by decide) rfl,
    .request (.write false 1 ⟨0, 0, 0⟩ ⟨List.replicate 256 7, List.length_replicate⟩ 7 0)]

theorem lastStored_noisy : lastStored threeBytes 1 0 noisy = some (List.replicate 256 7) := by
  have hsum : csum (List.replicate 256 7) % 65536 = 1792 := by decide +kernel
  have hpath : (threeBytes.drivedata 1).path ≠ none := nofun
  simp only [noisy, lastStored, Frame.stores, Option.none_or, Option.or_none]
  exact if_pos ⟨trivial, rfl, hsum, rfl, hpath⟩

end Fip.Lwwire
