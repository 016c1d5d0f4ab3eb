import Fip.Firc.Message

/-!
# The query of the resolver

`send_question` puts the name behind the header and goes over it once.  The length of a
label is known where its end is, so that a pointer to the place of the length is kept
until then.
-/

namespace Fip.Firc.Resolver

/-- `'.'` -/
def dot : UInt8 := 0x2e

def store (buf : Buf) (offset : ℕ) (byte : UInt8) : Option Buf :=
  if h : offset < 512 then some (Function.update buf ⟨offset, h⟩ byte) else none

def store16 (buf : Buf) (offset n : ℕ) : Option Buf := do
  let buf ← store buf offset (UInt8.ofNat (n / 256))
  store buf (offset + 1) (UInt8.ofNat n)

/-- The buffer of zeros, with the id, a bit of `cntl` and the count of questions. -/
def questionHeader : Buf :=
  fun offset => [0, 42, 0x1, 0, 0, 1].getD offset 0

/-- The loop over what is left of the name, with `o` and `l` at its end. -/
def fillName : List UInt8 → ℕ → ℕ → Buf → Option (ℕ × ℕ × Buf)
  | [], o, l, buf => some (o, l, buf)
  | i :: name, o, l, buf =>
      if i = dot then do
        let buf ← store buf l (UInt8.ofNat (o - l - 1))
        fillName name (o + 1) o buf
      else do
        let buf ← store buf o i
        fillName name (o + 1) l buf

/-- The buffer, and how many bytes of it are written to the socket. -/
def sendQuestion (name : List UInt8) : Option (Buf × ℕ) := do
  let (o, l, buf) ← fillName name 13 12 questionHeader
  let buf ← store buf l (UInt8.ofNat (o - l - 1))
  let buf ← store buf o 0
  let o := o + 1
  let buf ← store16 buf o 1
  let buf ← store16 buf (o + 2) 1
  return (buf, o + 4)

/-- A host name by its labels. -/
structure HostName where
  labels : List (List UInt8)
  nonempty : labels ≠ []
  label : ∀ label ∈ labels, 0 < label.length ∧ label.length ≤ 63 ∧ dot ∉ label
  short : ([dot].intercalate labels).length ≤ 253

def HostName.text (name : HostName) : List UInt8 := [dot].intercalate name.labels

/-- A label behind its length. -/
def wireLabel (label : List UInt8) : List UInt8 := UInt8.ofNat label.length :: label

def HostName.wire (name : HostName) : List UInt8 := name.labels.flatMap wireLabel ++ [0]

/-- The query: a header with one question, which is for an address in the internet. -/
def HostName.query (name : HostName) : List UInt8 :=
  [0, 42, 0x1, 0, 0, 1, 0, 0, 0, 0, 0, 0] ++ (name.wire ++ (bytes16 1 ++ bytes16 1))

/-! ## Stores -/

/-- The buffer was written between two offsets only. -/
def Within (low high : ℤ) (buf buf' : Buf) : Prop :=
  ∀ offset, offset < low ∨ high ≤ offset → load buf' offset = load buf offset

section

variable {signed : Bool} {buf buf' buf'' : Buf} {low high low' high' ptr : ℤ} {offset l o : ℕ}
  {bytes name label : List UInt8}

theorem Within.trans {low₂ high₂ : ℤ} (hfirst : Within low high buf buf')
    (hsecond : Within low' high' buf' buf'') (hlow : low₂ ≤ low ∧ low₂ ≤ low')
    (hhigh : high ≤ high₂ ∧ high' ≤ high₂) : Within low₂ high₂ buf buf'' := by
  intro offset hoffset
  rw [hsecond offset (by omega), hfirst offset (by omega)]

theorem Within.mono (hwithin : Within low high buf buf') (hlow : low' ≤ low)
    (hhigh : high ≤ high') : Within low' high' buf buf' :=
  fun offset hoffset => hwithin offset (by omega)

theorem Within.holds (hwithin : Within low high buf buf')
    (houtside : ptr + bytes.length ≤ low ∨ high ≤ ptr) (hholds : Holds buf ptr bytes) :
    Holds buf' ptr bytes :=
  holds_congr (fun offset hfrom hto => hwithin offset (by omega)) hholds

theorem store_spec (buf : Buf) (byte : UInt8) (hoffset : offset < 512) :
    ∃ buf', store buf offset byte = some buf' ∧ Holds buf' offset [byte] ∧
      Within offset (offset + 1) buf buf' := by
  refine ⟨Function.update buf ⟨offset, hoffset⟩ byte, dif_pos hoffset, ⟨?_, trivial⟩, ?_⟩
  · rw [load_fin ⟨offset, hoffset⟩, Function.update_self]
  · intro other hother
    rw [load, load]
    split
    · next hinside =>
        rw [Function.update_of_ne]
        intro heq
        have hnat : other.toNat = offset := congrArg Fin.val heq
        omega
    · rfl

theorem store16_spec (buf : Buf) (n : ℕ) (hoffset : offset + 1 < 512) :
    ∃ buf', store16 buf offset n = some buf' ∧ Holds buf' offset (bytes16 n) ∧
      Within offset (offset + 2) buf buf' := by
  obtain ⟨buf₁, hstore₁, hhigh, hwithin₁⟩ :=
    store_spec buf (UInt8.ofNat (n / 256)) (Nat.lt_of_succ_lt hoffset)
  obtain ⟨buf₂, hstore₂, hlow, hwithin₂⟩ := store_spec buf₁ (UInt8.ofNat n) hoffset
  refine ⟨buf₂, ?_, ⟨?_, hlow.1, trivial⟩, hwithin₁.trans hwithin₂ (by omega) (by omega)⟩
  · rw [store16, hstore₁, Option.bind_eq_bind, Option.bind_some, hstore₂]
  · exact (hwithin₂.holds (by rw [List.length_singleton]; omega) hhigh).1

/-! ## The name -/

/-- The characters of a label are copied. -/
theorem fillName_label (hdot : dot ∉ label) (rest : List UInt8) (hinside : o + label.length ≤ 512)
    (buf : Buf) :
    ∃ buf', fillName (label ++ rest) o l buf = fillName rest (o + label.length) l buf' ∧
      Holds buf' o label ∧ Within o (o + label.length) buf buf' := by
  induction label generalizing o buf with
  | nil => exact ⟨buf, rfl, trivial, fun _ _ => rfl⟩
  | cons i label ih =>
      rw [List.mem_cons, not_or] at hdot
      rw [List.length_cons] at hinside
      obtain ⟨buf₁, hstore, hfirst, hwithin₁⟩ := store_spec buf i (show o < 512 by omega)
      obtain ⟨buf₂, hloop, hrest, hwithin₂⟩ :=
        ih hdot.2 (show o + 1 + label.length ≤ 512 by omega) buf₁
      refine ⟨buf₂, ?_, ⟨?_, ?_⟩, ?_⟩
      · rw [List.cons_append, fillName, if_neg (Ne.symm hdot.1), hstore, Option.bind_eq_bind,
          Option.bind_some, hloop, List.length_cons, Nat.add_assoc, Nat.add_comm 1]
      · exact (hwithin₂.holds (by rw [List.length_singleton]; omega) hfirst).1
      · exact_mod_cast hrest
      · rw [List.length_cons]
        exact hwithin₁.trans hwithin₂ (by omega) (by omega)

/-- The characters of a label, and their count in the place that is kept for it. -/
theorem fillName_wireLabel (hdot : dot ∉ label) (rest : List UInt8)
    (hinside : l + 1 + label.length ≤ 512) (buf : Buf) :
    ∃ buf' buf'', fillName (label ++ rest) (l + 1) l buf =
        fillName rest (l + 1 + label.length) l buf' ∧
      store buf' l (UInt8.ofNat label.length) = some buf'' ∧
      Holds buf'' l (wireLabel label) ∧ Within l (l + 1 + label.length) buf buf'' := by
  obtain ⟨buf₁, hloop, hlabel, hwithin₁⟩ := fillName_label (l := l) hdot rest hinside buf
  obtain ⟨buf₂, hstore, hlength, hwithin₂⟩ :=
    store_spec buf₁ (UInt8.ofNat label.length) (show l < 512 by omega)
  refine ⟨buf₁, buf₂, hloop, hstore, ⟨hlength.1, ?_⟩, hwithin₁.trans hwithin₂ (by omega) (by omega)⟩
  have hfrom := hwithin₂.holds (by omega) hlabel
  exact_mod_cast hfrom

theorem length_wireLabel (label : List UInt8) : (wireLabel label).length = label.length + 1 := rfl

/-- Behind the loop and the last length the buffer has all labels with their lengths. -/
theorem fillName_spec {labels : List (List UInt8)} (hlabels : labels ≠ [])
    (hdot : ∀ label ∈ labels, dot ∉ label)
    (hinside : l + (labels.flatMap wireLabel).length ≤ 512) (buf : Buf) :
    ∃ o l' buf' buf'', fillName ([dot].intercalate labels) (l + 1) l buf = some (o, l', buf') ∧
      store buf' l' (UInt8.ofNat (o - l' - 1)) = some buf'' ∧
      o = l + (labels.flatMap wireLabel).length ∧
      Holds buf'' l (labels.flatMap wireLabel) ∧
      Within l (l + (labels.flatMap wireLabel).length) buf buf'' := by
  induction labels generalizing l buf with
  | nil => exact absurd rfl hlabels
  | cons label labels ih =>
      have hlabel := hdot label List.mem_cons_self
      rw [List.flatMap_cons, List.length_append, length_wireLabel] at hinside
      cases labels with
      | nil =>
          obtain ⟨buf₁, buf₂, hloop, hstore, hholds, hwithin⟩ :=
            fillName_wireLabel hlabel [] (show l + 1 + label.length ≤ 512 by omega) buf
          rw [List.append_nil] at hloop
          have hcount : l + 1 + label.length - l - 1 = label.length := by omega
          rw [List.intercalate_singleton, List.flatMap_singleton, length_wireLabel]
          refine ⟨l + 1 + label.length, l, buf₁, buf₂, hloop, ?_, by omega, hholds, ?_⟩
          · rw [hcount]
            exact hstore
          · exact hwithin.mono (Int.le_refl _) (by omega)
      | cons second labels =>
          obtain ⟨buf₁, buf₂, hloop, hstore, hholds, hwithin⟩ :=
            fillName_wireLabel hlabel (dot :: [dot].intercalate (second :: labels))
              (show l + 1 + label.length ≤ 512 by omega) buf
          obtain ⟨o, l', buf₃, buf₄, hrest, hlast, ho, hholds', hwithin'⟩ :=
            ih (List.cons_ne_nil second labels)
              (fun label hlabel => hdot label (List.mem_cons_of_mem _ hlabel))
              (show l + 1 + label.length + _ ≤ 512 by omega) buf₂
          have hcount : l + 1 + label.length - l - 1 = label.length := by omega
          rw [List.intercalate_cons_cons, List.append_assoc, List.singleton_append,
            List.flatMap_cons, List.length_append, length_wireLabel]
          refine ⟨o, l', buf₃, buf₄, ?_, hlast, by omega, holds_append.mpr ⟨?_, ?_⟩, ?_⟩
          · rw [hloop, fillName, if_pos rfl, hcount, hstore, Option.bind_eq_bind,
              Option.bind_some, hrest]
          · refine hwithin'.holds ?_ hholds
            rw [length_wireLabel]
            omega
          · have hoffset : (l : ℤ) + ((wireLabel label).length : ℤ) =
                ((l + 1 + label.length : ℕ) : ℤ) := by
              rw [length_wireLabel]
              omega
            rw [hoffset]
            exact hholds'
          · exact hwithin.trans hwithin' (by omega) (by omega)

theorem length_flatMap_wireLabel (label : List UInt8) (labels : List (List UInt8)) :
    ((label :: labels).flatMap wireLabel).length =
      ([dot].intercalate (label :: labels)).length + 1 := by
  induction labels generalizing label with
  | nil =>
      rw [List.flatMap_singleton, List.intercalate_singleton]
      rfl
  | cons second labels ih =>
      rw [List.flatMap_cons, List.length_append, ih, List.intercalate_cons_cons,
        List.length_append, List.length_append, length_wireLabel, List.length_singleton]
      omega

end

/-! ## The query -/

theorem HostName.length_wire (name : HostName) : name.wire.length = name.text.length + 2 := by
  obtain ⟨label, labels, heq⟩ := List.exists_cons_of_ne_nil name.nonempty
  rw [wire, List.length_append, heq, length_flatMap_wireLabel, text, heq]
  rfl

theorem wireName_of_labels {labels : List (List UInt8)}
    (hlabels : ∀ label ∈ labels, 0 < label.length ∧ label.length ≤ 63) :
    WireName (labels.flatMap wireLabel ++ [0]) := by
  induction labels with
  | nil => exact .root
  | cons label labels ih =>
      obtain ⟨hpos, hshort⟩ := hlabels label List.mem_cons_self
      have hlen : label.length = (UInt8.ofNat label.length).toNat := by
        rw [UInt8.toNat_ofNat', Nat.mod_eq_of_lt (by omega)]
      rw [List.flatMap_cons, List.append_assoc, wireLabel, List.cons_append]
      exact .label hlen hpos hshort (ih fun label hlabel =>
        hlabels label (List.mem_cons_of_mem _ hlabel))

theorem HostName.wireName (name : HostName) : WireName name.wire :=
  wireName_of_labels fun label hlabel =>
    ⟨(name.label label hlabel).1, (name.label label hlabel).2.1⟩

/-- The buffer has the query at its front, and so many bytes of it are sent. -/
theorem sendQuestion_spec (name : HostName) :
    ∃ buf, sendQuestion name.text = some (buf, name.query.length) ∧ Holds buf 0 name.query := by
  have hshort : name.wire.length ≤ 255 := by
    rw [name.length_wire]
    exact Nat.add_le_add_right name.short 2
  have hlabels : (name.labels.flatMap wireLabel).length + 1 = name.wire.length := by
    rw [HostName.wire, List.length_append]
    rfl
  obtain ⟨o, l, buf₁, buf₂, hloop, hlast, ho, hwire, hwithin₂⟩ :=
    fillName_spec (l := 12) name.nonempty (fun label hlabel => (name.label label hlabel).2.2)
      (by omega) questionHeader
  obtain ⟨buf₃, hstore₃, hzero, hwithin₃⟩ := store_spec buf₂ 0 (show o < 512 by omega)
  obtain ⟨buf₄, hstore₄, htype, hwithin₄⟩ := store16_spec buf₃ 1 (show o + 1 + 1 < 512 by omega)
  obtain ⟨buf₅, hstore₅, hclass, hwithin₅⟩ :=
    store16_spec buf₄ 1 (show o + 1 + 2 + 1 < 512 by omega)
  refine ⟨buf₅, ?_, ?_⟩
  · have hlength : o + 1 + 4 = name.query.length := by
      simp only [HostName.query, List.length_append, ← hlabels, ho]
      simp [bytes16]
      omega
    rw [HostName.text, sendQuestion, hloop]
    simp only [Option.bind_eq_bind, Option.bind_some, hlast, hstore₃, hstore₄, hstore₅, hlength]
    rfl
  · have hheader : Holds questionHeader 0 [0, 42, 0x1, 0, 0, 1, 0, 0, 0, 0, 0, 0] := by
      simp only [Holds]
      decide
    have hwithin₄₅ : Within (o + 1) (o + 5) buf₃ buf₅ :=
      hwithin₄.trans hwithin₅ (by omega) (by omega)
    have hwithin₃₅ : Within o (o + 5) buf₂ buf₅ :=
      hwithin₃.trans hwithin₄₅ (by omega) (by omega)
    have hwithin₂₅ : Within 12 (o + 5) questionHeader buf₅ :=
      hwithin₂.trans hwithin₃₅ (by omega) (by omega)
    have hfront : ((12 : ℕ) : ℤ) + ((name.labels.flatMap wireLabel).length : ℤ) = o := by omega
    have hname : ((12 : ℕ) : ℤ) + (name.wire.length : ℤ) = ((o + 1 : ℕ) : ℤ) := by omega
    have htail : ((o + 1 : ℕ) : ℤ) + ((bytes16 1).length : ℤ) = ((o + 1 + 2 : ℕ) : ℤ) := rfl
    have htwelve : (0 : ℤ) + (([0, 42, 0x1, 0, 0, 1, 0, 0, 0, 0, 0, 0] : List UInt8).length : ℤ) =
      ((12 : ℕ) : ℤ) := rfl
    rw [HostName.query, holds_append, htwelve, holds_append, hname, holds_append, htail]
    refine ⟨hwithin₂₅.holds (.inl (by rw [htwelve]; omega)) hheader, ?_, ?_, hclass⟩
    · rw [HostName.wire, holds_append, hfront]
      exact ⟨hwithin₃₅.holds (by omega) hwire, hwithin₄₅.holds (.inl (by
        rw [List.length_singleton]; omega)) hzero⟩
    · exact hwithin₅.holds (.inl (Int.le_of_eq htail)) htype

theorem HostName.length_query (name : HostName) :
    name.query.length = 12 + name.wire.length + 4 := by
  rw [query, List.length_append, List.length_append]
  rfl

/-- The query is laid out as a header, the labels behind their lengths, a zero byte, and
type and class 1; the parser goes over just the name, and over the question up to its
end. -/
theorem question_of_sendQuestion (name : HostName) :
    ∃ buf, sendQuestion name.text = some (buf, name.query.length) ∧
      packet buf name.query.length = name.query ∧
      ∀ (signed : Bool) (old : Buf),
        (∃ fuel, skipName signed fuel (receive old name.query) 12 =
          some (12 + name.wire.length : ℕ)) ∧
        ∃ fuel, skipQuestions signed fuel (receive old name.query)
          (min (qdcount (receive old name.query)) 4) 12 = some (name.query.length : ℤ) := by
  have hshort : name.query.length ≤ 512 := by
    rw [name.length_query, name.length_wire]
    exact Nat.le_trans (Nat.add_le_add_right (Nat.add_le_add_left
      (Nat.add_le_add_right name.short 2) 12) 4) (by decide)
  obtain ⟨buf, hsend, hholds⟩ := sendQuestion_spec name
  refine ⟨buf, hsend, packet_of_holds hshort hholds, fun signed old => ?_⟩
  have hreceived : Holds (receive old name.query) 0 name.query := holds_receive hshort
  rw [HostName.query, holds_append, holds_append] at hreceived
  obtain ⟨hheader, hwire, -⟩ := hreceived
  have hname : Name signed (receive old name.query) 12 (12 + name.wire.length : ℕ) :=
    name_of_holds _ name.wireName hwire
  have hqdcount : qdcount (receive old name.query) = 1 := by
    have hload : load16 (receive old name.query) 4 = some 1 :=
      load16_of_holds (by decide) ⟨hheader.2.2.2.2.1, hheader.2.2.2.2.2.1, trivial⟩
    exact Option.some.inj hload
  refine ⟨skipName_iff.mpr hname, ?_⟩
  rw [hqdcount, skipQuestions_iff, name.length_query]
  exact .cons hname (.nil _)

/-- `irc.a.net` -/
def threeLabels : HostName where
  labels := [[0x69, 0x72, 0x63], [0x61], [0x6e, 0x65, 0x74]]
  nonempty := List.cons_ne_nil _ _
  label := by decide
  short := by decide

theorem question_of_sendQuestion_threeLabels :
    ∃ buf, sendQuestion [0x69, 0x72, 0x63, dot, 0x61, dot, 0x6e, 0x65, 0x74] = some (buf, 27) ∧
      packet buf 27 = [0, 42, 1, 0, 0, 1, 0, 0, 0, 0, 0, 0, 3, 0x69, 0x72, 0x63, 1, 0x61, 3, 0x6e,
        0x65, 0x74, 0, 0, 1, 0, 1] := by
  obtain ⟨buf, hsend, hpacket, -⟩ := question_of_sendQuestion threeLabels
  exact ⟨buf, hsend, hpacket⟩

/-! ## The header of any query -/

section

variable {buf buf' : Buf} {offset o l o' l' : ℕ} {name : List UInt8}

theorem within_of_store {byte : UInt8} (hstore : store buf offset byte = some buf')
    (hoffset : 12 ≤ offset) : Within 12 512 buf buf' := by
  by_cases hinside : offset < 512
  · obtain ⟨stored, hsome, -, hwithin⟩ := store_spec buf byte hinside
    rw [hsome, Option.some.injEq] at hstore
    rw [← hstore]
    exact hwithin.mono (by omega) (by omega)
  · rw [store, dif_neg hinside] at hstore
    cases hstore

theorem within_of_store16 {n : ℕ} (hstore : store16 buf offset n = some buf')
    (hoffset : 12 ≤ offset) : Within 12 512 buf buf' := by
  obtain ⟨buf₁, hhigh, hlow⟩ := Option.bind_eq_some_iff.mp hstore
  exact (within_of_store hhigh hoffset).trans (within_of_store hlow (Nat.le_succ_of_le hoffset))
    (by omega) (by omega)

/-- The loop over the name does not go back into the header. -/
theorem within_of_fillName (hfill : fillName name o l buf = some (o', l', buf')) (ho : 12 ≤ o)
    (hl : 12 ≤ l) : 12 ≤ o' ∧ 12 ≤ l' ∧ Within 12 512 buf buf' := by
  induction name generalizing o l buf with
  | nil =>
      cases hfill
      exact ⟨ho, hl, fun _ _ => rfl⟩
  | cons i name ih =>
      rw [fillName] at hfill
      split at hfill
      · obtain ⟨buf₁, hstore, hrest⟩ := Option.bind_eq_some_iff.mp hfill
        obtain ⟨ho', hl', hwithin⟩ := ih hrest (Nat.le_succ_of_le ho) ho
        exact ⟨ho', hl', (within_of_store hstore hl).trans hwithin (by omega) (by omega)⟩
      · obtain ⟨buf₁, hstore, hrest⟩ := Option.bind_eq_some_iff.mp hfill
        obtain ⟨ho', hl', hwithin⟩ := ih hrest (Nat.le_succ_of_le ho) hl
        exact ⟨ho', hl', (within_of_store hstore ho).trans hwithin (by omega) (by omega)⟩

theorem within_of_sendQuestion {length : ℕ} (hsend : sendQuestion name = some (buf, length)) :
    Within 12 512 questionHeader buf := by
  obtain ⟨⟨o, l, buf₁⟩, hloop, hsend⟩ := Option.bind_eq_some_iff.mp hsend
  obtain ⟨buf₂, hlast, hsend⟩ := Option.bind_eq_some_iff.mp hsend
  obtain ⟨buf₃, hzero, hsend⟩ := Option.bind_eq_some_iff.mp hsend
  obtain ⟨buf₄, htype, hsend⟩ := Option.bind_eq_some_iff.mp hsend
  obtain ⟨buf₅, hclass, hsend⟩ := Option.bind_eq_some_iff.mp hsend
  cases hsend
  obtain ⟨ho, hl, hwithin⟩ := within_of_fillName hloop (by decide) (by decide)
  have hwithin₂ : Within 12 512 questionHeader buf₂ :=
    hwithin.trans (within_of_store hlast hl) (by omega) (by omega)
  have hwithin₃ : Within 12 512 questionHeader buf₃ :=
    hwithin₂.trans (within_of_store hzero ho) (by omega) (by omega)
  have hwithin₄ : Within 12 512 questionHeader buf₄ :=
    hwithin₃.trans (within_of_store16 htype (by omega)) (by omega) (by omega)
  exact hwithin₄.trans (within_of_store16 hclass (by omega)) (by omega) (by omega)

/-- A query has no answers in it. -/
theorem zero_of_sendQuestion {length : ℕ} (hsend : sendQuestion name = some (buf, length)) :
    buf 6 = 0 ∧ buf 7 = 0 := by
  have hwithin := within_of_sendQuestion hsend
  have hsix := hwithin 6 (by decide)
  have hseven := hwithin 7 (by decide)
  exact ⟨Option.some.inj hsix, Option.some.inj hseven⟩

end

end Fip.Firc.Resolver
