import Fip.Lwwire.Requests

/-!
# The server is an array of sectors

A client sees the server through its answers.  Over every run of requests for
sectors, a sector that is read is the one last written there with the answer
zero, and a write that is refused changes nothing.
-/

namespace Fip.Lwwire

open Fip.ByteFile Fip.Sectors
open Dialogue (run)

/-- The requests for sectors, with the bytes the client sends; the second operation
code of each kind is that of a repeated request. -/
inductive Request
  | read (again : Bool) (drive : UInt8) (lsn : Lsn)
  | readex (again : Bool) (drive : UInt8) (lsn : Lsn) (hi lo : UInt8)
  | write (again : Bool) (drive : UInt8) (lsn : Lsn)
      (data : { cells : List UInt8 // cells.length = 256 }) (hi lo : UInt8)

namespace Request

def bytes : Request → List UInt8
  | read again drive lsn => (bif again then 0x72 else 0x52) :: drive :: lsn.bytes
  | readex again drive lsn hi lo =>
      (bif again then 0xF2 else 0xD2) :: drive :: (lsn.bytes ++ [hi, lo])
  | write again drive lsn data hi lo =>
      (bif again then 0x77 else 0x57) :: drive :: (lsn.bytes ++ (data.1 ++ [hi, lo]))

/-- The code in an answer: behind the sector for READEX, else in front. -/
def status : Request → List UInt8 → Option UInt8
  | readex .., reply => reply[256]?
  | _, reply => reply.head?

/-- The sector that is asked for. -/
def reads : Request → Option (UInt8 × ℕ)
  | read _ drive lsn => some (drive, lsn.toNat)
  | readex _ drive lsn _ _ => some (drive, lsn.toNat)
  | write .. => none

/-- The sector in an answer. -/
def sent : Request → List UInt8 → List UInt8
  | read .., reply => (reply.drop 1).take 256
  | readex .., reply => reply.take 256
  | write .., _ => []

/-- What is stored in a sector by a request with this answer. -/
def stores (drive : UInt8) (lsn : ℕ) : Request → List UInt8 → Option (List UInt8)
  | write _ dn at_ data _ _, reply =>
      if dn = drive ∧ at_.toNat = lsn ∧ reply.head? = some 0 then some data.1 else none
  | _, _ => none

/-- What a write must not have: a wrong sum, or a drive that cannot be written. -/
def Refused (s : Server) : Request → Prop
  | write _ drive _ data hi lo =>
      csum data.1 % 65536 ≠ hi.toNat * 256 + lo.toNat ∨
        (s.drivedata drive).isconst = true ∨ (s.drivedata drive).path = none
  | _ => False

end Request

/-- What the server sends for a request. -/
def answer (s : Server) (request : Request) : List UInt8 :=
  (run main (.done s) request.bytes).1

/-- The server behind a request. -/
def after (s : Server) (request : Request) : Server :=
  (run main (.done s) request.bytes).2.result?.getD s

def serve (s : Server) (requests : List Request) : Server :=
  requests.foldl after s

/-- The requests with their answers. -/
def transcript (s : Server) : List Request → List (Request × List UInt8)
  | [] => []
  | request :: requests =>
      (request, answer s request) :: transcript (after s request) requests

/-- The data of the last write of a sector that was answered with zero. -/
def lastWrite (drive : UInt8) (lsn : ℕ) : List (Request × List UInt8) → Option (List UInt8)
  | [] => none
  | (request, reply) :: later =>
      (lastWrite drive lsn later).or (request.stores drive lsn reply)

/-! ## One request -/

/-- What a request does to all sectors, told by its answer. -/
structure Effect (s s' : Server) (request : Request) (reply : List UInt8) : Prop where
  path : ∀ dn, (s'.drivedata dn).path = (s.drivedata dn).path
  isconst : ∀ dn, (s'.drivedata dn).isconst = (s.drivedata dn).isconst
  sector : ∀ dn lsn, sector 256 (s'.image dn) lsn =
    (request.stores dn lsn reply).getD (sector 256 (s.image dn) lsn)
  read : ∀ dn lsn, request.reads = some (dn, lsn) → request.status reply = some 0 →
    request.sent reply = Sectors.sector 256 (s.image dn) lsn
  refused : request.Refused s → ∃ code, reply = [code] ∧ code ≠ 0

variable {s s' : Server} {drive : UInt8} {lsn : Lsn}

theorem Effect.of_sameDrives (hsame : SameDrives s s') {request : Request}
    {reply : List UInt8} (hstores : ∀ dn lsn, request.stores dn lsn reply = none)
    (hread : ∀ dn lsn, request.reads = some (dn, lsn) → request.status reply = some 0 →
      request.sent reply = Sectors.sector 256 (s.image dn) lsn)
    (hrefused : request.Refused s → ∃ code, reply = [code] ∧ code ≠ 0) :
    Effect s s' request reply := by
  refine ⟨hsame.path, hsame.isconst, fun dn lsn => ?_, hread, hrefused⟩
  rw [hstores, hsame.image]
  rfl

theorem read_effect (s : Server) (again : Bool) (drive : UInt8) (lsn : Lsn) :
    ∃ reply s', run main (.done s) (Request.read again drive lsn).bytes = (reply, .done s') ∧
      Effect s s' (.read again drive lsn) reply := by
  have hop : (bif again then (0x72 : UInt8) else 0x52) = 0x52 ∨
      (bif again then (0x72 : UInt8) else 0x52) = 0x72 := by
    cases again
    · exact Or.inl rfl
    · exact Or.inr rfl
  obtain ⟨s', hsame, hrun⟩ := run_read s drive lsn hop
  rcases hrun with hrun | hrun
  · refine ⟨_, s', hrun, Effect.of_sameDrives hsame (fun _ _ => rfl) ?_ False.elim⟩
    intro dn number _ hstatus
    have hcode : [UInt8.ofNat LWERR_NOTREADY].head? ≠ some 0 := by decide
    exact absurd hstatus hcode
  · refine ⟨_, s', hrun, Effect.of_sameDrives hsame (fun _ _ => rfl) ?_ False.elim⟩
    intro dn number hreads _
    cases hreads
    have hlength := length_sector 256 (s.image drive) lsn.toNat
    calc ((sector 256 (s.image drive) lsn.toNat ++ sumBytes _).take 256)
        = sector 256 (s.image drive) lsn.toNat := List.take_left' hlength

theorem readex_effect (s : Server) (again : Bool) (drive : UInt8) (lsn : Lsn)
    (hi lo : UInt8) :
    ∃ reply s', run main (.done s) (Request.readex again drive lsn hi lo).bytes =
        (reply, .done s') ∧ Effect s s' (.readex again drive lsn hi lo) reply := by
  have hop : (bif again then (0xF2 : UInt8) else 0xD2) = 0xD2 ∨
      (bif again then (0xF2 : UInt8) else 0xD2) = 0xF2 := by
    cases again
    · exact Or.inl rfl
    · exact Or.inr rfl
  obtain ⟨buf, hrequest⟩ := run_readex s drive lsn hop
  obtain ⟨hsame, hfetch⟩ := fetchSector_spec s drive lsn
  have hlength := length_readexSector s drive lsn
  have hrun : run main (.done s) (Request.readex again drive lsn hi lo).bytes =
      (readexSector s drive lsn ++ [readexCode s drive lsn hi lo],
        .done (fetchSector s drive lsn.number).1) := by
    rw [Request.bytes, ← List.cons_append, ← List.cons_append, Dialogue.run_append, hrequest]
    dsimp only
    rw [run_readexStatus]
    rfl
  refine ⟨_, _, hrun, Effect.of_sameDrives hsame (fun _ _ => rfl) ?_ False.elim⟩
  intro dn number hreads hstatus
  cases hreads
  have hcode : readexCode s drive lsn hi lo = 0 := by
    rw [Request.status, List.getElem?_append_right (by rw [hlength]), hlength] at hstatus
    exact Option.some.inj hstatus
  rw [Request.sent, List.take_left' hlength]
  exact readexSector_of_code (readexCode_eq_zero.mp hcode).2

theorem write_effect (hdistinct : s.Distinct) (again : Bool) (drive : UInt8) (lsn : Lsn)
    (data : { cells : List UInt8 // cells.length = 256 }) (hi lo : UInt8) :
    ∃ reply s', run main (.done s) (Request.write again drive lsn data hi lo).bytes =
        (reply, .done s') ∧ Effect s s' (.write again drive lsn data hi lo) reply := by
  have hop : (bif again then (0x77 : UInt8) else 0x57) = 0x57 ∨
      (bif again then (0x77 : UInt8) else 0x57) = 0x77 := by
    cases again
    · exact Or.inl rfl
    · exact Or.inr rfl
  have hrun := run_write s drive lsn hop data.2 hi lo
  -- A code that is not zero, with the images as they were.
  have hfailed : ∀ (code : ℕ) (s' : Server), UInt8.ofNat code ≠ 0 → SameDrives s s' →
      Effect s s' (.write again drive lsn data hi lo) [UInt8.ofNat code] := by
    intro code s' hcode hsame
    refine Effect.of_sameDrives hsame (fun dn number => ?_) (fun _ _ hreads => nomatch hreads)
      (fun _ => ⟨_, rfl, hcode⟩)
    exact if_neg fun hstored => hcode (Option.some.inj hstored.2.2)
  by_cases hsum : csum data.1 % 65536 = hi.toNat * 256 + lo.toNat
  · rw [if_pos hsum] at hrun
    refine ⟨_, _, hrun, ?_⟩
    rcases saveSector_spec s drive lsn hdistinct data.1 with
      ⟨hsame, hcode⟩ | ⟨hready, hstored, hcode⟩
    · refine hfailed _ _ ?_ hsame
      rcases hcode with hcode | hcode <;> rw [hcode] <;> decide
    · rw [hcode]
      refine ⟨hstored.path, hstored.isconst, fun dn number => ?_,
        (fun _ _ hreads => nomatch hreads), fun hrefused => ?_⟩
      · rw [hstored.sector data.2]
        by_cases hsame : drive = dn ∧ lsn.toNat = number
        · rw [if_pos hsame, Request.stores, if_pos ⟨hsame.1, hsame.2, rfl⟩, Option.getD_some]
        · rw [if_neg hsame, Request.stores,
            if_neg fun hstores => hsame ⟨hstores.1, hstores.2.1⟩, Option.getD_none]
      · rcases hrefused with hwrong | hconst | hnone
        · exact absurd hsum hwrong
        · rw [hready.1] at hconst
          cases hconst
        · exact absurd hnone hready.2
  · rw [if_neg hsum] at hrun
    exact ⟨_, _, hrun, hfailed _ _ (by decide) (SameDrives.refl s)⟩

/-- Every request is answered, and the server is ready for the next. -/
theorem request_effect (hdistinct : s.Distinct) (request : Request) :
    run main (.done s) request.bytes = (answer s request, .done (after s request)) ∧
      Effect s (after s request) request (answer s request) := by
  have hserved : ∃ reply s', run main (.done s) request.bytes = (reply, .done s') ∧
      Effect s s' request reply := by
    cases request with
    | read again drive lsn => exact read_effect s again drive lsn
    | readex again drive lsn hi lo => exact readex_effect s again drive lsn hi lo
    | write again drive lsn data hi lo =>
        exact write_effect hdistinct again drive lsn data hi lo
  obtain ⟨reply, s', hrun, heffect⟩ := hserved
  have hanswer : answer s request = reply := by
    rw [answer, hrun]
  have hafter : after s request = s' := by
    rw [after, hrun]
    rfl
  rw [hanswer, hafter]
  exact ⟨hrun, heffect⟩

theorem distinct_after (hdistinct : s.Distinct) (request : Request) :
    (after s request).Distinct := by
  have heffect := (request_effect hdistinct request).2
  intro dn other path hdn hother
  rw [heffect.path] at hdn hother
  exact hdistinct dn other path hdn hother

/-! ## Runs -/

/-- The configuration of the drives stays. -/
theorem config_serve (hdistinct : s.Distinct) (requests : List Request) (dn : UInt8) :
    ((serve s requests).drivedata dn).path = (s.drivedata dn).path ∧
      ((serve s requests).drivedata dn).isconst = (s.drivedata dn).isconst := by
  induction requests generalizing s with
  | nil => exact ⟨rfl, rfl⟩
  | cons request requests ih =>
      have heffect := (request_effect hdistinct request).2
      have hrest := ih (distinct_after hdistinct request)
      exact ⟨hrest.1.trans (heffect.path dn), hrest.2.trans (heffect.isconst dn)⟩

theorem refused_serve (hdistinct : s.Distinct) (requests : List Request)
    {request : Request} (hrefused : request.Refused s) :
    request.Refused (serve s requests) := by
  cases request with
  | read => exact hrefused
  | readex => exact hrefused
  | write again drive lsn data hi lo =>
      obtain ⟨hpath, hconst⟩ := config_serve hdistinct requests drive
      rw [Request.Refused, hpath, hconst]
      exact hrefused

theorem distinct_serve (hdistinct : s.Distinct) (requests : List Request) :
    (serve s requests).Distinct := by
  induction requests generalizing s with
  | nil => exact hdistinct
  | cons request requests ih => exact ih (distinct_after hdistinct request)

/-- The line carries the requests one behind the other, and their answers. -/
theorem run_requests (hdistinct : s.Distinct) (requests : List Request) :
    run main (.done s) (requests.flatMap Request.bytes) =
      ((transcript s requests).flatMap Prod.snd, .done (serve s requests)) := by
  induction requests generalizing s with
  | nil => rfl
  | cons request requests ih =>
      have hrest := ih (distinct_after hdistinct request)
      rw [List.flatMap_cons, Dialogue.run_append, (request_effect hdistinct request).1]
      dsimp only
      rw [hrest]
      rfl

/-- After a run every sector is what was last written there. -/
theorem sector_serve (hdistinct : s.Distinct) (requests : List Request) (dn : UInt8)
    (lsn : ℕ) :
    sector 256 ((serve s requests).image dn) lsn =
      (lastWrite dn lsn (transcript s requests)).getD (sector 256 (s.image dn) lsn) := by
  induction requests generalizing s with
  | nil => rfl
  | cons request requests ih =>
      have heffect := (request_effect hdistinct request).2
      have hrest := ih (distinct_after hdistinct request)
      rw [serve, List.foldl_cons, ← serve, hrest, heffect.sector, transcript, lastWrite]
      cases lastWrite dn lsn (transcript (after s request) requests) with
      | none => rfl
      | some data => rfl

/-- An answer that is an error stores nothing. -/
theorem stores_of_error {request : Request} {code : UInt8} (hcode : code ≠ 0)
    (drive : UInt8) (lsn : ℕ) : request.stores drive lsn [code] = none := by
  cases request with
  | read => rfl
  | readex => rfl
  | write again dn number data hi lo =>
      exact if_neg fun hstored => hcode (Option.some.inj hstored.2.2)

/-- Whatever was requested before, a read that succeeds sends the last data written to
its sector, and a write with a wrong sum or to a drive that cannot be written is
answered with an error and changes no sector. -/
theorem server_is_array (s : Server) (hdistinct : s.Distinct) (history : List Request)
    (request : Request) :
    run main (.done s) (history.flatMap Request.bytes ++ request.bytes) =
        ((transcript s history).flatMap Prod.snd ++ answer (serve s history) request,
          .done (after (serve s history) request)) ∧
      (∀ drive lsn, request.reads = some (drive, lsn) →
        request.status (answer (serve s history) request) = some 0 →
        request.sent (answer (serve s history) request) =
          (lastWrite drive lsn (transcript s history)).getD
            (sector 256 (s.image drive) lsn)) ∧
      (request.Refused s →
        (∃ code, answer (serve s history) request = [code] ∧ code ≠ 0) ∧
          ∀ drive lsn, sector 256 ((after (serve s history) request).image drive) lsn =
            sector 256 ((serve s history).image drive) lsn) := by
  obtain ⟨hrun, heffect⟩ := request_effect (distinct_serve hdistinct history) request
  refine ⟨?_, fun drive lsn hreads hstatus => ?_, fun hrefused => ?_⟩
  · rw [Dialogue.run_append, run_requests hdistinct history]
    dsimp only
    rw [hrun]
  · rw [heffect.read drive lsn hreads hstatus, sector_serve hdistinct]
  · obtain ⟨code, hanswer, hcode⟩ := heffect.refused (refused_serve hdistinct history hrefused)
    refine ⟨⟨code, hanswer, hcode⟩, fun drive lsn => ?_⟩
    rw [heffect.sector, hanswer, stores_of_error hcode, Option.getD_none]

theorem threeBytes_distinct : threeBytes.Distinct := by
  intro dn other path hdn hother
  have hone : ∀ dn, (threeBytes.drivedata dn).path = some path → dn = 1 := by
    intro dn hdn
    by_contra hne
    rw [threeBytes] at hdn
    simp only [if_neg hne] at hdn
    cases hdn
  rw [hone dn hdn, hone other hother]

/-- A read of the image, and a write to a drive without one. -/
theorem server_is_array_threeBytes :
    (Request.read false 1 ⟨0, 0, 0⟩).sent
        (answer threeBytes (.read false 1 ⟨0, 0, 0⟩)) =
          sector 256 [1, 2, 3] 0 ∧
      ∃ code, answer threeBytes
        (.write false 2 ⟨0, 0, 0⟩ ⟨List.replicate 256 0, List.length_replicate⟩ 0 1) =
          [code] ∧ code ≠ 0 :=
  ⟨(server_is_array threeBytes threeBytes_distinct [] (.read false 1 ⟨0, 0, 0⟩)).2.1 1 0
      rfl rfl,
    ((server_is_array threeBytes threeBytes_distinct []
      (.write false 2 ⟨0, 0, 0⟩ ⟨List.replicate 256 0, List.length_replicate⟩ 0 1)).2.2
        (Or.inr (Or.inr rfl))).1⟩

end Fip.Lwwire
