import VersionedXml.Position
import VersionedXml.Span

/-!
# Entities

An entity is a structural unit of an input: a tag, a run of text, or an enclosed section.  It
carries the span of all its bytes and the spans of its parts.
-/

namespace VersionedXml

/-- The sections that run from a fixed opening to the first occurrence of a fixed ending. -/
inductive Enclosure where
  | comment
  | instruction
  | cdata
  deriving DecidableEq, Repr

namespace Enclosure

def opening : Enclosure → Bytes
  | comment => [0x3c, 0x21, 0x2d, 0x2d]
  | instruction => [0x3c, 0x3f]
  | cdata => [0x3c, 0x21, 0x5b, 0x43, 0x44, 0x41, 0x54, 0x41, 0x5b]

def ending : Enclosure → Bytes
  | comment => [0x2d, 0x2d, 0x3e]
  | instruction => [0x3f, 0x3e]
  | cdata => [0x5d, 0x5d, 0x3e]

theorem map_opening (kind : Enclosure) : kind.opening.map (fun b => Char.ofNat b.toNat) =
    match kind with
    | comment => ['<', '!', '-', '-']
    | instruction => ['<', '?']
    | cdata => ['<', '!', '[', 'C', 'D', 'A', 'T', 'A', '['] := by
  cases kind <;> decide

theorem map_ending (kind : Enclosure) : kind.ending.map (fun b => Char.ofNat b.toNat) =
    match kind with
    | comment => ['-', '-', '>']
    | instruction => ['?', '>']
    | cdata => [']', ']', '>'] := by
  cases kind <;> decide

end Enclosure

/-- An attribute of an opening tag.  The quotes around a value do not belong to it. -/
structure Attribute where
  name : Span
  value : Span
  deriving DecidableEq, Repr

inductive EntityKind where
  /-- An opening tag.  A self-closing tag is followed by a close of its own. -/
  | opened (name : Span) (attributes : List Attribute) (selfClosing : Bool)
  /-- A closing tag, or the close that is supplied behind a self-closing tag. -/
  | closed (name : Span) (supplied : Bool)
  | text
  | enclosed (kind : Enclosure) (content : Span)
  deriving DecidableEq, Repr

/-- A structural unit and the span of all its bytes. -/
structure Entity where
  kind : EntityKind
  span : Span
  deriving DecidableEq, Repr

namespace Entity

/-- The part that matters most: the name of a tag, the text, or the enclosed bytes. -/
def content (entity : Entity) : Span :=
  match entity.kind with
  | .opened name _ _ => name
  | .closed name _ => name
  | .text => entity.span
  | .enclosed _ content => content

end Entity

/-! ## Positions of entities -/

structure PlacedEntity where
  entity : Entity
  start : Position
  stop : Position
  deriving DecidableEq, Repr

namespace Entity

/-- Places one entity, moving the tracker to its end. -/
def place (entity : Entity) (tracker : Tracker) : PlacedEntity × Tracker :=
  let atStart := tracker.moveTo entity.span.start
  let atStop := atStart.moveTo entity.span.stop
  (⟨entity, atStart.position, atStop.position⟩, atStop)

def placeAll (input : Buffer) (entities : List Entity) : List PlacedEntity :=
  let placeNext := fun (state : Array PlacedEntity × Tracker) (entity : Entity) =>
    let placed := entity.place state.2
    (state.1.push placed.1, placed.2)
  (entities.foldl placeNext (#[], Tracker.start input)).1.toList

end Entity

end VersionedXml
