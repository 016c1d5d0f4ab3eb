import Mathlib.Algebra.Order.Ring.Defs
import Mathlib.Tactic.Linarith

/-!
# Rectangles on shelves

Rectangles are put one behind the other on a shelf.  One that would not fit starts a
new shelf, below the deepest of the old one.  A frame has the origin, the length of a
shelf and what is left free behind a rectangle and below a shelf.
-/

namespace Fip.Shelf

variable {α : Type*}

/-- A rectangle: where it is and how large it is, along a shelf and across. -/
@[ext]
structure Item (α : Type*) where
  along : α
  across : α
  length : α
  depth : α

structure Frame (α : Type*) where
  along : α
  across : α
  length : α
  gapAlong : α
  gapAcross : α

/-- Where the next rectangle goes, and the depth of the deepest one on this shelf. -/
@[ext]
structure Cursor (α : Type*) where
  along : α
  across : α
  deepest : α

variable [CommRing α] [LinearOrder α]

/-- The cursor for one of this length. -/
def turn (frame : Frame α) (cursor : Cursor α) (length : α) : Cursor α :=
  if frame.length < cursor.along + length + frame.gapAlong then
    ⟨frame.gapAlong, cursor.across + (cursor.deepest + frame.gapAcross), 0⟩
  else cursor

/-- A rectangle at the cursor. -/
def place (frame : Frame α) (cursor : Cursor α) (item : Item α) : Item α :=
  { item with
    along := frame.along + cursor.along
    across := frame.across + cursor.across }

/-- The cursor behind it. -/
def pass (frame : Frame α) (cursor : Cursor α) (item : Item α) : Cursor α :=
  ⟨cursor.along + (item.length + frame.gapAlong), cursor.across,
    if cursor.deepest < item.depth then item.depth else cursor.deepest⟩

def put (frame : Frame α) (cursor : Cursor α) (item : Item α) : Cursor α × Item α :=
  let cursor := turn frame cursor item.length
  (pass frame cursor item, place frame cursor item)

/-- The point is in the rectangle, or on its first edges. -/
def Covers (item : Item α) (along across : α) : Prop :=
  item.along ≤ along ∧ along < item.along + item.length ∧
    item.across ≤ across ∧ across < item.across + item.depth

def Apart (a b : Item α) : Prop := ∀ along across, ¬ (Covers a along across ∧ Covers b along across)

/-- The rectangle is on a shelf above, or it is in front of the cursor and not deeper
than the deepest on its shelf. -/
def Behind (frame : Frame α) (cursor : Cursor α) (item : Item α) : Prop :=
  item.across + item.depth ≤ frame.across + cursor.across ∨
    (item.along + item.length ≤ frame.along + cursor.along ∧
      item.across + item.depth ≤ frame.across + cursor.across + cursor.deepest)

/-- The cursor is on a shelf. -/
structure OnShelf (frame : Frame α) (cursor : Cursor α) : Prop where
  along : frame.gapAlong ≤ cursor.along
  deepest : 0 ≤ cursor.deepest

/-- One rectangle after the other. -/
def putAll (frame : Frame α) : Cursor α → List (Item α) → Cursor α × List (Item α)
  | cursor, [] => (cursor, [])
  | cursor, item :: items =>
      let (cursor, placed) := put frame cursor item
      let (cursor, rest) := putAll frame cursor items
      (cursor, placed :: rest)

section

variable {frame : Frame α} {cursor : Cursor α} {a b item : Item α} {items : List (Item α)}
  {length : α}

theorem OnShelf.turn (hcursor : OnShelf frame cursor) :
    OnShelf frame (turn frame cursor length) := by
  rw [Shelf.turn]
  split
  · exact ⟨le_refl _, le_refl _⟩
  · exact hcursor

variable [IsStrictOrderedRing α]

/-- A new shelf is below the old one. -/
theorem Behind.turn (hgap : 0 ≤ frame.gapAcross) (hcursor : OnShelf frame cursor)
    (hbehind : Behind frame cursor a) : Behind frame (turn frame cursor length) a := by
  have hdeepest := hcursor.deepest
  rw [Shelf.turn]
  split
  · left
    dsimp only
    rcases hbehind with habove | ⟨_, hdeep⟩
    · linarith
    · linarith
  · exact hbehind

/-- What is behind the cursor has no point of a rectangle at the cursor. -/
theorem Behind.apart (hbehind : Behind frame cursor a) : Apart a (place frame cursor b) := by
  rintro along across ⟨⟨_, halong, _, hacross⟩, ⟨hfront, _, htop, _⟩⟩
  rw [place] at hfront htop
  dsimp only at hfront htop
  rcases hbehind with habove | ⟨hbefore, _⟩
  · linarith
  · linarith

theorem OnShelf.pass (hgap : 0 ≤ frame.gapAlong) (hlength : 0 ≤ item.length)
    (hcursor : OnShelf frame cursor) : OnShelf frame (pass frame cursor item) := by
  obtain ⟨halong, hdeepest⟩ := hcursor
  rw [Shelf.pass]
  constructor
  · dsimp only
    linarith
  · dsimp only
    split
    · linarith
    · exact hdeepest

theorem OnShelf.put (hgap : 0 ≤ frame.gapAlong) (hlength : 0 ≤ item.length)
    (hcursor : OnShelf frame cursor) : OnShelf frame (put frame cursor item).1 :=
  hcursor.turn.pass hgap hlength

theorem Behind.pass (hgap : 0 ≤ frame.gapAlong) (hlength : 0 ≤ item.length)
    (hbehind : Behind frame cursor a) : Behind frame (pass frame cursor item) a := by
  rcases hbehind with habove | ⟨hbefore, hdeep⟩
  · exact .inl habove
  · right
    rw [Shelf.pass]
    dsimp only
    constructor
    · linarith
    · split
      · linarith
      · exact hdeep

theorem behind_place (hgap : 0 ≤ frame.gapAlong) :
    Behind frame (pass frame cursor item) (place frame cursor item) := by
  right
  rw [pass, place]
  dsimp only
  constructor
  · linarith
  · split
    · exact le_refl _
    · linarith

/-- What a shelf has room for stays on it. -/
theorem put_fits (hgap : 0 ≤ frame.gapAlong) (hcursor : OnShelf frame cursor)
    (hfits : item.length + 2 * frame.gapAlong ≤ frame.length) :
    frame.along ≤ (put frame cursor item).2.along ∧
      (put frame cursor item).2.along + item.length ≤ frame.along + frame.length := by
  have halong := hcursor.along
  rw [put, place, turn]
  dsimp only
  split
  · constructor
    · linarith
    · linarith
  · constructor
    · linarith
    · linarith

section

variable (hgapAlong : 0 ≤ frame.gapAlong) (hgapAcross : 0 ≤ frame.gapAcross)

include hgapAlong hgapAcross

theorem Behind.put (hcursor : OnShelf frame cursor) (hlength : 0 ≤ item.length)
    (hbehind : Behind frame cursor a) : Behind frame (put frame cursor item).1 a :=
  (hbehind.turn hgapAcross hcursor).pass hgapAlong hlength

/-- None of the rectangles comes into one that is behind the cursor. -/
theorem apart_putAll (hcursor : OnShelf frame cursor) (hlength : ∀ item ∈ items, 0 ≤ item.length)
    (hbehind : Behind frame cursor a) : ∀ b ∈ (putAll frame cursor items).2, Apart a b := by
  induction items generalizing cursor with
  | nil => exact fun b hb => absurd hb List.not_mem_nil
  | cons item items ih =>
      obtain ⟨hfirst, hlength⟩ := List.forall_mem_cons.mp hlength
      rw [putAll, List.forall_mem_cons]
      constructor
      · exact (hbehind.turn hgapAcross hcursor).apart
      · exact ih (hcursor.put hgapAlong hfirst) hlength
          (hbehind.put hgapAlong hgapAcross hcursor hfirst)

theorem pairwise_putAll (hcursor : OnShelf frame cursor)
    (hlength : ∀ item ∈ items, 0 ≤ item.length) :
    (putAll frame cursor items).2.Pairwise Apart := by
  induction items generalizing cursor with
  | nil => exact .nil
  | cons item items ih =>
      obtain ⟨hfirst, hlength⟩ := List.forall_mem_cons.mp hlength
      have hnext := hcursor.put hgapAlong hfirst
      rw [putAll, List.pairwise_cons]
      exact ⟨apart_putAll hgapAlong hgapAcross hnext hlength (behind_place hgapAlong),
        ih hnext hlength⟩

end

theorem putAll_fits (hgap : 0 ≤ frame.gapAlong) (hcursor : OnShelf frame cursor)
    (hlength : ∀ item ∈ items, 0 ≤ item.length) :
    ∀ b ∈ (putAll frame cursor items).2, b.length + 2 * frame.gapAlong ≤ frame.length →
      frame.along ≤ b.along ∧ b.along + b.length ≤ frame.along + frame.length := by
  induction items generalizing cursor with
  | nil => exact fun b hb => absurd hb List.not_mem_nil
  | cons item items ih =>
      obtain ⟨hfirst, hlength⟩ := List.forall_mem_cons.mp hlength
      rw [putAll, List.forall_mem_cons]
      exact ⟨put_fits hgap hcursor, ih (hcursor.put hgap hfirst) hlength⟩

end

end Fip.Shelf
