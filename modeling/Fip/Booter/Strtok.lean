import Fip.Booter.Path
import Fip.Core.Scan

/-!
# The words of the command line

`strtok` keeps its place in `rest`.  It skips spaces behind the place it returns, not in
front of it, and it leaves NULL in `rest` when a word is not followed by a space; so it
splits the lines in which exactly one space follows every word, and no others.
-/

namespace Fip.Booter.Strtok

def space : UInt8 := 0x20

/-- The buffer of the line, and `rest` as an offset in it; `none` is NULL. -/
structure Cursor where
  mem : List UInt8
  rest : Option ℕ

/-- The string at an offset. -/
def Cursor.text (s : Cursor) (pos : ℕ) : List UInt8 :=
  stringAt s.mem pos

/-- The result is `none` when NULL, or a place behind the buffer, is read. -/
def strtok (line : Option ℕ) (s : Cursor) : Option (Option ℕ × Cursor) := do
  let s := match line with
    | some line => { s with rest := some line }
    | none => s
  let old ← s.rest
  let c ← s.mem[old]?
  if c = 0 then return (none, s)
  else
    let word ← scan (· == space) (s.mem.drop old) old
    let stop ← scan (fun c => c != space && c != 0) (s.mem.drop word) word
    let c ← s.mem[stop]?
    if c ≠ 0 then return (some old, ⟨s.mem.set stop 0, some (stop + 1)⟩)
    else return (some old, { s with rest := none })

/-- What `n` calls of `strtok(NULL)` return. -/
def calls : ℕ → Cursor → Option (List (Option (List UInt8)))
  | 0, _ => some []
  | n + 1, s => do
      let (t, s) ← strtok none s
      let more ← calls n s
      return t.map s.text :: more

/-- What `strtok(line)` and `n` calls of `strtok(NULL)` return. -/
def session (rest : Option ℕ) (line : CString) (n : ℕ) :
    Option (List (Option (List UInt8))) := do
  let (t, s) ← strtok (some 0) ⟨line.val ++ [0], rest⟩
  let more ← calls n s
  return t.map s.text :: more

/-- The first of the words, one for each call, and NULL behind the last one. -/
def answers : List (List UInt8) → ℕ → List (Option (List UInt8))
  | _, 0 => []
  | [], n + 1 => none :: answers [] n
  | word :: words, n + 1 => some word :: answers words n

/-- The calls return the words of the line, and then NULL as often as they are
repeated. -/
def Splits (line : CString) : Prop :=
  ∀ rest n, session rest line n = some (answers (words space line.val) (n + 1))

/-- The line is empty, or exactly one space follows every word. -/
inductive Spaced : List UInt8 → Prop
  | nil : Spaced []
  | word {word rest : List UInt8} : word ≠ [] → space ∉ word → Spaced rest →
      Spaced (word ++ space :: rest)

/-! ## One call -/

theorem strtok_end (front : List UInt8) :
    strtok none ⟨front ++ [0], some front.length⟩ =
      some (none, ⟨front ++ [0], some front.length⟩) := by
  have hzero : (front ++ [0])[front.length]? = some (0 : UInt8) :=
    getElem?_append_length front 0 []
  simp only [strtok, Option.bind_eq_bind, Option.bind_some, hzero]
  rfl

/-- The place is in front of a word: no space is skipped, and the byte behind the word
decides what becomes of `rest`. -/
theorem strtok_word (front : List UInt8) {word : List UInt8} (hne : word ≠ [])
    (hspace : space ∉ word) (hzero : 0 ∉ word) {c : UInt8} (hc : c = space ∨ c = 0)
    (more : List UInt8) :
    strtok none ⟨front ++ (word ++ c :: more), some front.length⟩ =
      some (some front.length,
        if c ≠ 0 then ⟨front ++ (word ++ 0 :: more), some (front.length + word.length + 1)⟩
        else ⟨front ++ (word ++ c :: more), none⟩) := by
  have hletters := scan_word hspace hzero hc more front.length
  obtain ⟨first, letters, rfl⟩ := List.exists_cons_of_ne_nil hne
  have hfirst_space : first ≠ space := fun h => hspace (h ▸ List.mem_cons_self)
  have hfirst_zero : first ≠ 0 := fun h => hzero (h ▸ List.mem_cons_self)
  have hdrop : (front ++ (first :: letters ++ c :: more)).drop front.length =
      first :: letters ++ c :: more := List.drop_left
  have hfirst : (front ++ (first :: letters ++ c :: more))[front.length]? = some first :=
    getElem?_append_length front first _
  have hskip : scan (· == space) (first :: letters ++ c :: more) front.length =
      some front.length := by
    rw [List.cons_append, scan, beq_eq_false_iff_ne.mpr hfirst_space]
    rfl
  have hstop := getElem?_behind front (first :: letters) c more
  have hset := set_behind front (first :: letters) c 0 more
  simp only [strtok, Option.bind_eq_bind, Option.bind_some, hfirst, if_neg hfirst_zero,
    hdrop, hskip, hletters, hstop, hset]
  split <;> rfl

/-- The place is in front of a space, and the space is part of what is returned. -/
theorem strtok_space {front more : List UInt8} {t : Option ℕ} {s : Cursor}
    (hstrtok : strtok none ⟨front ++ space :: more, some front.length⟩ = some (t, s)) :
    ∃ text, t.map s.text = some (space :: text) := by
  have hfirst : (front ++ space :: more)[front.length]? = some space :=
    getElem?_append_length front space more
  have hdrop : (front ++ space :: more).drop front.length = space :: more := List.drop_left
  simp only [strtok, Option.bind_eq_bind, Option.bind_some, hfirst, hdrop] at hstrtok
  rw [if_neg (by decide)] at hstrtok
  obtain ⟨word, hskip, hstrtok⟩ := Option.bind_eq_some_iff.mp hstrtok
  obtain ⟨stop, hscan, hstrtok⟩ := Option.bind_eq_some_iff.mp hstrtok
  obtain ⟨c, hc, hstrtok⟩ := Option.bind_eq_some_iff.mp hstrtok
  have hbehind : front.length < stop := by
    rw [scan, if_pos (beq_self_eq_true space)] at hskip
    exact (scan_ge hskip).trans (scan_ge hscan)
  split at hstrtok
  · cases hstrtok
    obtain ⟨skip, rfl⟩ := Nat.exists_eq_add_of_lt hbehind
    have hset : (front ++ space :: more).set (front.length + skip + 1) 0 =
        front ++ space :: more.set skip 0 := by
      rw [Nat.add_assoc, List.set_append_right _ _ (Nat.le_add_right _ _),
        Nat.add_sub_cancel_left, List.set_cons_succ]
    refine ⟨(more.set skip 0).takeWhile (· != 0), ?_⟩
    rw [Option.map_some, Cursor.text, hset, stringAt_cons front (by decide)]
  · cases hstrtok
    refine ⟨more.takeWhile (· != 0), ?_⟩
    rw [Option.map_some, Cursor.text, stringAt_cons front (by decide)]

/-! ## Repeated calls -/

theorem calls_end (front : List UInt8) (n : ℕ) :
    calls n ⟨front ++ [0], some front.length⟩ = some (answers [] n) := by
  induction n with
  | zero => rfl
  | succ n ih =>
      rw [calls, strtok_end, answers]
      simp only [Option.bind_eq_bind, Option.bind_some, ih]
      rfl

section

variable (front : List UInt8) {word : List UInt8} (hne : word ≠ [])
  (hspace : space ∉ word) (hzero : 0 ∉ word)
include hne hspace hzero

theorem calls_word (more : List UInt8) (n : ℕ) :
    calls (n + 1) ⟨front ++ (word ++ space :: more), some front.length⟩ =
      (calls n ⟨front ++ word ++ [0] ++ more,
        some (front ++ word ++ [0]).length⟩).map (some word :: ·) := by
  have hmem : front ++ (word ++ 0 :: more) = front ++ word ++ [0] ++ more := by
    simp only [List.append_assoc, List.singleton_append]
  have hrest : front.length + word.length + 1 = (front ++ word ++ [0]).length := by
    simp only [List.length_append, List.length_singleton]
  rw [calls, strtok_word front hne hspace hzero (.inl rfl), if_pos (by decide)]
  simp only [Option.bind_eq_bind, Option.bind_some, Option.map_some, Cursor.text,
    stringAt_append front hzero]
  rw [hmem, hrest, Option.map_eq_bind]
  rfl

/-- The second call reads NULL. -/
theorem calls_last : calls 2 ⟨front ++ (word ++ [0]), some front.length⟩ = none := by
  rw [calls, strtok_word front hne hspace hzero (.inr rfl), if_neg (by decide)]
  rfl

end

/-- A text returned with a space in front is no word. -/
theorem calls_space {front more : List UInt8} {words : List (List UInt8)}
    (hwords : ∀ word ∈ words, space ∉ word) :
    calls 1 ⟨front ++ space :: more, some front.length⟩ ≠ some (answers words 1) := by
  intro hcalls
  obtain ⟨⟨t, s⟩, hstrtok, hcalls⟩ := Option.bind_eq_some_iff.mp hcalls
  obtain ⟨text, htext⟩ := strtok_space hstrtok
  have hanswer : [t.map s.text] = answers words 1 := Option.some.inj hcalls
  rw [htext] at hanswer
  cases words with
  | nil => cases hanswer
  | cons word words =>
      have hword : space :: text = word := by
        rw [answers, answers, List.cons.injEq] at hanswer
        exact Option.some.inj hanswer.1
      exact hwords word List.mem_cons_self (hword ▸ List.mem_cons_self)

theorem calls_of_spaced (front : List UInt8) {line : List UInt8} (hspaced : Spaced line)
    (hzero : 0 ∉ line) (n : ℕ) :
    calls n ⟨front ++ (line ++ [0]), some front.length⟩ =
      some (answers (words space line) n) := by
  induction hspaced generalizing front n with
  | nil => exact calls_end front n
  | @word word rest hne hspace _ ih =>
      cases n with
      | zero => rfl
      | succ n =>
          have hword : 0 ∉ word := fun hmem => hzero (List.mem_append_left _ hmem)
          have hrest : 0 ∉ rest := fun hmem =>
            hzero (List.mem_append_right _ (List.mem_cons_of_mem _ hmem))
          have hnext := ih (front ++ word ++ [0]) hrest n
          rw [words_append_sep hne hspace, answers, List.append_assoc, List.cons_append,
            calls_word front hne hspace hword, hnext]
          rfl

/-- What follows the first word decides about the line: NULL is read if it is the last
one, and a second space is returned with the next one. -/
theorem spaced_of_calls (front : List UInt8) {line : List UInt8} (hzero : 0 ∉ line)
    (hcalls : ∀ n, calls n ⟨front ++ (line ++ [0]), some front.length⟩ =
      some (answers (words space line) n)) : Spaced line := by
  induction hlength : line.length using Nat.strongRecOn generalizing front line with
  | ind length ih =>
  rcases line with _ | ⟨first, letters⟩
  · exact .nil
  have hfirst : first ≠ space := by
    rintro rfl
    exact calls_space (fun _ => sep_not_mem_words) (hcalls 1)
  obtain ⟨word, hne, hspace, hline | ⟨rest, hline⟩⟩ := exists_word hfirst letters
  · rw [hline] at hzero hcalls
    have hlast := hcalls 2
    rw [calls_last front hne hspace hzero] at hlast
    cases hlast
  · rw [hline] at hzero hcalls hlength ⊢
    have hword : 0 ∉ word := fun hmem => hzero (List.mem_append_left _ hmem)
    have hrest : 0 ∉ rest := fun hmem =>
      hzero (List.mem_append_right _ (List.mem_cons_of_mem _ hmem))
    have hshort : rest.length < length := by
      rw [← hlength, List.length_append, List.length_cons]
      omega
    refine .word hne hspace (ih _ hshort (front ++ word ++ [0]) hrest (fun n => ?_) rfl)
    have hnext := hcalls (n + 1)
    rw [words_append_sep hne hspace, answers, List.append_assoc, List.cons_append,
      calls_word front hne hspace hword] at hnext
    obtain ⟨texts, htexts, hcons⟩ := Option.map_eq_some_iff.mp hnext
    rw [htexts, (List.cons.inj hcons).2]

/-- The words are split off exactly if a space follows each of them. -/
theorem splits_iff (line : CString) : Splits line ↔ Spaced line.val := by
  constructor
  · intro hsplits
    refine spaced_of_calls [] line.property fun n => ?_
    cases n with
    | zero => rfl
    | succ n => exact hsplits none n
  · intro hspaced rest n
    exact calls_of_spaced [] hspaced line.property (n + 1)

/-- `ls`: the second call reads NULL. -/
theorem not_splits_ls : ¬ Splits ⟨[0x6c, 0x73], by decide⟩ := by
  intro hsplits
  cases (hsplits none 1 : none = some _)

end Fip.Booter.Strtok
