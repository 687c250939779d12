import VersionedXml.Cursor

/-!
# Lines and columns

Positions count lines and columns from one.  A line ends behind its line feed, and a column is a
character: the bytes that continue a character do not count.
-/

namespace VersionedXml

structure Position where
  line : UInt32
  column : UInt32
  deriving DecidableEq, Repr

namespace Position

def first : Position := ⟨1, 1⟩

def next (here : Position) (b : UInt8) : Position :=
  if b == Byte.lineFeed then
    ⟨here.line + 1, 1⟩
  else if Byte.isContinuation b then
    here
  else
    ⟨here.line, here.column + 1⟩

def after (here : Position) (bytes : Bytes) : Position :=
  bytes.foldl next here

@[simp]
theorem after_nil (here : Position) : here.after [] = here := rfl

@[simp]
theorem after_append (here : Position) (left right : Bytes) :
    here.after (left ++ right) = (here.after left).after right := by
  simp [after]

/-- The position of an offset, counted from the beginning.  An offset past the end has the position
of the end. -/
def ofOffset (input : Buffer) (offset : Nat) : Position :=
  first.after (input.toList.take offset)

end Position

/-! ## Tracking -/

/-- A place in an input together with its position.  Offsets that grow are answered by walking on
from the last one; an offset that lies behind it is answered from the beginning. -/
structure Tracker where
  input : Buffer
  here : Cursor
  position : Position
  deriving Repr

namespace Tracker

def start (input : Buffer) : Tracker := ⟨input, Cursor.start input, Position.first⟩

def forward (tracker : Tracker) (offset : Nat) : Tracker :=
  let distance := offset - tracker.here.position
  { tracker with
    here := tracker.here.advance distance
    position := tracker.position.after (tracker.here.rest.take distance) }

def moveTo (tracker : Tracker) (offset : Nat) : Tracker :=
  if min offset tracker.input.size < tracker.here.position then
    (start tracker.input).forward offset
  else
    tracker.forward offset

/-- What a tracker has walked over agrees with counting from the beginning. -/
structure IsAccurate (tracker : Tracker) : Prop where
  here_isIn : tracker.here.IsIn tracker.input
  position_eq : tracker.position = Position.ofOffset tracker.input tracker.here.position

theorem isAccurate_start (input : Buffer) : (start input).IsAccurate where
  here_isIn := Cursor.start_isIn input
  position_eq := rfl

theorem IsAccurate.forward {tracker : Tracker} (haccurate : tracker.IsAccurate) (offset : Nat) :
    (tracker.forward offset).IsAccurate where
  here_isIn := haccurate.here_isIn.advance _
  position_eq := by
    obtain ⟨⟨_, hrest⟩, hposition⟩ := haccurate
    have hwalked : tracker.here.rest.take (offset - tracker.here.position) =
        tracker.here.rest.take
          (min (offset - tracker.here.position) tracker.here.rest.length) :=
      List.take_eq_take_iff.mpr (by omega)
    simp only [Tracker.forward, Position.ofOffset, Cursor.position_advance, List.take_add,
      Position.after_append]
    rw [hwalked, hposition, Position.ofOffset, hrest]

theorem IsAccurate.moveTo {tracker : Tracker} (haccurate : tracker.IsAccurate) (offset : Nat) :
    (tracker.moveTo offset).IsAccurate := by
  unfold Tracker.moveTo
  split
  · exact (isAccurate_start tracker.input).forward offset
  · exact haccurate.forward offset

end Tracker

end VersionedXml
