import Mathlib.Data.List.Basic
import Mathlib.Tactic.Common

/-!
# LZW over explicit strings

The dictionary is a list of strings, a code word a letter, an index into the
dictionary, or the order to empty it.  Over any alphabet, decoding inverts
encoding as long as the dictionary does not run full.
-/

namespace Fip.Dictionary

variable {α : Type*} [DecidableEq α]

inductive Symbol (α : Type*) where
  | literal (letter : α)
  | entry (index : ℕ)
  | clear
  deriving DecidableEq

/-- The string of a code word. -/
def string (dict : List (List α)) : Symbol α → List α
  | .literal letter => [letter]
  | .entry index => dict.getD index []
  | .clear => []

/-- The dictionary after `current` was met behind the string `previous`: one
more entry as long as there is room.  The entry that is being added stands for
`previous` and its own first letter. -/
def grow (capacity : ℕ) (dict : List (List α)) (previous : List α)
    (current : Symbol α) : List (List α) :=
  if dict.length < capacity then
    let first := if current = .entry dict.length then previous.head?
      else (string dict current).head?
    dict ++ [previous ++ first.toList]
  else
    dict

/-- The decoder.  There is no previous string at the start and after a
`clear`. -/
def decode (capacity : ℕ) : List (List α) → Option (List α) → List (Symbol α) → List α
  | _, _, [] => []
  | _, _, .clear :: rest => decode capacity [] none rest
  | dict, none, current :: rest =>
      string dict current ++ decode capacity dict (some (string dict current)) rest
  | dict, some previous, current :: rest =>
      let grown := grow capacity dict previous current
      string grown current ++ decode capacity grown (some (string grown current)) rest

/-- The code word of a string of the dictionary. -/
def symbolOf (dict : List (List α)) : List α → Symbol α
  | [letter] => .literal letter
  | word => .entry (dict.idxOf word)

/-- The greedy encoder, which has read `word` and not coded it yet. -/
def encode (dict : List (List α)) (word : List α) : List α → List (Symbol α)
  | [] => [symbolOf dict word]
  | letter :: rest =>
      if word ++ [letter] ∈ dict then encode dict (word ++ [letter]) rest
      else
        symbolOf dict word ::
          encode (dict ++ [word ++ [letter]]) [letter] rest

/-- The greedy parse: the longest phrases that earlier ones and one letter
make. -/
def phrases (dict : List (List α)) (word : List α) : List α → List (List α)
  | [] => [word]
  | letter :: rest =>
      if word ++ [letter] ∈ dict then phrases dict (word ++ [letter]) rest
      else word :: phrases (dict ++ [word ++ [letter]]) [letter] rest

/-- The greedy parse of an input. -/
def parse : List α → List (List α)
  | [] => []
  | letter :: rest => phrases [] [letter] rest

theorem length_encode (dict : List (List α)) (word rest : List α) :
    (encode dict word rest).length = (phrases dict word rest).length := by
  fun_induction encode dict word rest with
  | case1 => rfl
  | case2 dict word letter rest hfound ih => rw [phrases, if_pos hfound, ih]
  | case3 dict word letter rest hnew ih =>
      rw [phrases, if_neg hnew, List.length_cons, List.length_cons, ih]

theorem length_phrases_pos (dict : List (List α)) (word rest : List α) :
    0 < (phrases dict word rest).length := by
  fun_induction phrases dict word rest with
  | case1 => exact Nat.one_pos
  | case2 dict word letter rest hfound ih => exact ih
  | case3 => exact Nat.succ_pos _

theorem length_phrases_of_nodup {dict : List (List α)} {letter : α} (rest : List α)
    (hdict : ∀ word ∈ dict, ∀ first ∈ word.head?, first ∉ (letter :: rest).dropLast)
    (hnodup : (letter :: rest).dropLast.Nodup) :
    (phrases dict [letter] rest).length = (letter :: rest).length := by
  induction rest generalizing dict letter with
  | nil => rfl
  | cons next rest ih =>
      rw [List.dropLast_cons_cons] at hdict hnodup
      obtain ⟨hletter, hnodup⟩ := List.nodup_cons.mp hnodup
      have hnew : [letter] ++ [next] ∉ dict :=
        fun hmem => hdict _ hmem letter rfl List.mem_cons_self
      rw [phrases, if_neg hnew, List.length_cons, ih _ hnodup]
      · rfl
      · intro word hmem first hfirst
        rcases List.mem_append.mp hmem with hmem | hmem
        · exact fun h => hdict word hmem first hfirst (List.mem_cons_of_mem _ h)
        · rw [List.mem_singleton.mp hmem] at hfirst
          cases hfirst
          exact hletter

/-- As long as no letter comes twice, every letter is a phrase. -/
theorem length_parse_of_nodup {input : List α} (hnodup : input.dropLast.Nodup) :
    (parse input).length = input.length := by
  cases input with
  | nil => rfl
  | cons letter rest => exact length_phrases_of_nodup rest nofun hnodup

/-- The words that have a code word. -/
def Known (dict : List (List α)) (word : List α) : Prop :=
  word.length = 1 ∨ word ∈ dict

theorem symbolOf_of_length_ne_one (dict : List (List α)) {word : List α}
    (hlong : word.length ≠ 1) : symbolOf dict word = .entry (dict.idxOf word) := by
  rw [symbolOf]
  rintro letter rfl
  exact hlong rfl

theorem symbolOf_ne_clear (dict : List (List α)) (word : List α) :
    symbolOf dict word ≠ .clear := by
  rw [symbolOf.eq_def]
  split <;> simp

theorem string_symbolOf {dict : List (List α)} {word : List α}
    (hknown : Known dict word) : string dict (symbolOf dict word) = word := by
  by_cases hlength : word.length = 1
  · obtain ⟨letter, rfl⟩ := List.length_eq_one_iff.mp hlength
    rfl
  · rw [symbolOf_of_length_ne_one dict hlength, string,
      List.getD_eq_getElem?_getD, List.getElem?_idxOf (hknown.resolve_left hlength),
      Option.getD_some]

omit [DecidableEq α] in
theorem Known.append {dict : List (List α)} {word : List α}
    (hknown : Known dict word) (more : List (List α)) : Known (dict ++ more) word :=
  hknown.imp_right fun hmem => List.mem_append_left more hmem

/-- An old word keeps its code word when the dictionary grows. -/
theorem symbolOf_append {dict : List (List α)} {word : List α}
    (hknown : Known dict word) (more : List (List α)) :
    symbolOf (dict ++ more) word = symbolOf dict word := by
  by_cases hlength : word.length = 1
  · obtain ⟨letter, rfl⟩ := List.length_eq_one_iff.mp hlength
    rfl
  · rw [symbolOf_of_length_ne_one _ hlength, symbolOf_of_length_ne_one _ hlength,
      List.idxOf_append_of_mem (hknown.resolve_left hlength)]

/-- An old word's code word is not the entry that is being added. -/
theorem symbolOf_ne_entry {dict : List (List α)} {word : List α}
    (hknown : Known dict word) : symbolOf dict word ≠ .entry dict.length := by
  by_cases hlength : word.length = 1
  · obtain ⟨letter, rfl⟩ := List.length_eq_one_iff.mp hlength
    simp [symbolOf]
  · have hlt := List.idxOf_lt_length_of_mem (hknown.resolve_left hlength)
    rw [symbolOf_of_length_ne_one dict hlength]
    intro heq
    exact Nat.ne_of_lt hlt (Symbol.entry.inj heq)

/-- The decoder, one entry behind the encoder, catches up on the next code
word: the entry it lacks is the previous word and the first letter of this
one. -/
theorem grow_symbolOf {capacity : ℕ} {dict : List (List α)} {previous word : List α}
    {letter : α} (hroom : dict.length < capacity) (hprevious : previous ≠ [])
    (hfirst : word.head? = some letter)
    (hknown : Known (dict ++ [previous ++ [letter]]) word) :
    grow capacity dict previous (symbolOf (dict ++ [previous ++ [letter]]) word) =
      dict ++ [previous ++ [letter]] := by
  by_cases hold : Known dict word
  · rw [symbolOf_append hold, grow, if_pos hroom, if_neg (symbolOf_ne_entry hold),
      string_symbolOf hold, hfirst]
    rfl
  · have hlong : word.length ≠ 1 := fun h => hold (.inl h)
    have hnotin : word ∉ dict := fun h => hold (.inr h)
    have hnew : word = previous ++ [letter] := by
      rcases List.mem_append.mp (hknown.resolve_left hlong) with hmem | hmem
      · exact absurd hmem hnotin
      · exact List.mem_singleton.mp hmem
    have hsymbol : symbolOf (dict ++ [previous ++ [letter]]) word =
        .entry dict.length := by
      rw [symbolOf_of_length_ne_one _ hlong, List.idxOf_append_of_notMem hnotin,
        ← hnew, List.idxOf_cons_self, Nat.add_zero]
    have hhead : previous.head? = some letter := by
      rw [hnew, List.head?_append_of_ne_nil _ hprevious] at hfirst
      exact hfirst
    rw [hsymbol, grow, if_pos hroom, if_pos rfl, hhead]
    rfl

/-- The decoder takes the code word of the encoder's pending word and then has
the same dictionary. -/
theorem decode_symbolOf {capacity : ℕ} {dict : List (List α)}
    {previous word : List α} {letter : α} (hroom : dict.length < capacity)
    (hprevious : previous ≠ []) (hfirst : word.head? = some letter)
    (hknown : Known (dict ++ [previous ++ [letter]]) word)
    (symbols : List (Symbol α)) :
    decode capacity dict (some previous)
        (symbolOf (dict ++ [previous ++ [letter]]) word :: symbols) =
      word ++
        decode capacity (dict ++ [previous ++ [letter]]) (some word) symbols := by
  rw [decode, grow_symbolOf hroom hprevious hfirst hknown, string_symbolOf hknown]
  exact symbolOf_ne_clear _ _

/-- Decoding what the encoder emits from its pending word on gives that word
and the rest of the input. -/
theorem decode_encode {capacity : ℕ} {dict : List (List α)}
    {previous word : List α} {letter : α} (rest : List α) (hprevious : previous ≠ [])
    (hfirst : word.head? = some letter)
    (hknown : Known (dict ++ [previous ++ [letter]]) word)
    (hroom : dict.length +
      (encode (dict ++ [previous ++ [letter]]) word rest).length ≤ capacity) :
    decode capacity dict (some previous)
      (encode (dict ++ [previous ++ [letter]]) word rest) = word ++ rest := by
  induction rest generalizing dict previous word letter with
  | nil =>
      rw [encode, List.length_singleton] at hroom
      rw [encode, decode_symbolOf hroom hprevious hfirst hknown, decode]
  | cons next rest ih =>
      rw [encode] at hroom ⊢
      split at hroom
      · next hfound =>
          have hhead : (word ++ [next]).head? = some letter := by
            rw [List.head?_append, hfirst]
            rfl
          rw [if_pos hfound, ih hprevious hhead (.inr hfound) hroom,
            List.append_assoc]
          rfl
      · next hnew =>
          have hword : word ≠ [] := by
            rintro rfl
            cases hfirst
          have hsize : (dict ++ [previous ++ [letter]]).length = dict.length + 1 :=
            List.length_append
          rw [List.length_cons] at hroom
          rw [if_neg hnew, decode_symbolOf (by omega) hprevious hfirst hknown,
            ih hword rfl (.inl rfl) (by omega)]
          rfl

/-- The round trip, from the empty dictionary. -/
theorem decode_encode_start {capacity : ℕ} (letter : α) (rest : List α)
    (hroom : (encode [] [letter] rest).length ≤ capacity + 1) :
    decode capacity [] none (encode [] [letter] rest) = letter :: rest := by
  cases rest with
  | nil => rfl
  | cons next rest =>
      have hnew : [letter] ++ [next] ∉ ([] : List (List α)) := List.not_mem_nil
      rw [encode, if_neg hnew] at hroom ⊢
      rw [List.length_cons] at hroom
      rw [symbolOf, decode, string]
      · have hrest : decode capacity [] (some [letter])
            (encode ([] ++ [[letter] ++ [next]]) [next] rest) = [next] ++ rest := by
          apply decode_encode rest (List.cons_ne_nil letter []) rfl (.inl rfl)
          rw [List.length_nil, Nat.zero_add]
          exact Nat.le_of_succ_le_succ hroom
        exact congrArg (letter :: ·) hrest
      · simp

end Fip.Dictionary
