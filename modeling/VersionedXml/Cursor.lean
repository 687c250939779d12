import VersionedXml.Bytes

/-!
# Cursors

A cursor is a place in an input, given by its offset and by the bytes that lie ahead of it.
-/

namespace VersionedXml

/-- A place in an input: how many bytes lie behind it, and which bytes lie ahead. -/
structure Cursor where
  position : Nat
  rest : Bytes
  deriving DecidableEq, Repr

namespace Cursor

def start (input : Buffer) : Cursor := ⟨0, input.toList⟩

def advance : Nat → Cursor → Cursor
  | 0, here => here
  | _ + 1, ⟨position, []⟩ => ⟨position, []⟩
  | count + 1, ⟨position, _ :: rest⟩ => advance count ⟨position + 1, rest⟩

/-- The place at `offset`, or the end of the input if `offset` lies past it. -/
def seek (input : Buffer) (offset : Nat) : Cursor :=
  (start input).advance offset

def moveTo (input : Buffer) (offset : Nat) (here : Cursor) : Cursor :=
  if here.position ≤ offset then here.advance (offset - here.position) else seek input offset

def toEnd (here : Cursor) : Cursor :=
  ⟨here.position + here.rest.length, []⟩

def peek? (here : Cursor) : Option UInt8 :=
  here.rest.head?

def peekAt? (here : Cursor) (distance : Nat) : Option UInt8 :=
  here.rest[distance]?

def startsWithAt (here : Cursor) (distance : Nat) (needle : Bytes) : Bool :=
  distance ≤ here.rest.length && needle.isPrefixOf (here.rest.drop distance)

def find? (here : Cursor) (needle : Bytes) : Option Nat :=
  needle.search? here.position here.rest

@[simp]
theorem position_advance (count : Nat) (here : Cursor) :
    (here.advance count).position = here.position + min count here.rest.length := by
  induction count generalizing here with
  | zero => simp [advance]
  | succ count ih =>
      obtain ⟨position, rest⟩ := here
      cases rest with
      | nil => simp [advance]
      | cons b rest =>
          simp only [advance, ih, List.length_cons]
          omega

@[simp]
theorem rest_advance (count : Nat) (here : Cursor) :
    (here.advance count).rest = here.rest.drop count := by
  induction count generalizing here with
  | zero => simp [advance]
  | succ count ih =>
      obtain ⟨position, rest⟩ := here
      cases rest with
      | nil => simp [advance]
      | cons b rest => simp [advance, ih]

/-- A place belongs to an input when its bytes ahead are those behind its offset. -/
def IsIn (here : Cursor) (input : Buffer) : Prop :=
  here.position ≤ input.size ∧ here.rest = input.toList.drop here.position

theorem start_isIn (input : Buffer) : (start input).IsIn input := by
  simp [IsIn, start]

theorem IsIn.advance {here : Cursor} {input : Buffer} (hin : here.IsIn input) (count : Nat) :
    (here.advance count).IsIn input := by
  obtain ⟨hposition, hrest⟩ := hin
  constructor
  · simp only [position_advance, hrest, List.length_drop, Array.length_toList]
    omega
  · simp only [position_advance, rest_advance]
    rw [hrest, List.drop_drop, List.length_drop, Array.length_toList]
    by_cases hcount : count ≤ input.size - here.position
    · rw [Nat.min_eq_left hcount]
    · rw [List.drop_eq_nil_of_le (by simp; omega), List.drop_eq_nil_of_le (by simp; omega)]

end Cursor

end VersionedXml
