import VersionedXml.Edit

/-!
# Outlines

The entities of an input are turned into one batch of edits, one entity after the other.  An opening
tag creates an element inside the innermost open one, a closing tag closes the innermost open one
whatever its name, and everything else is put into the innermost open element.  Elements that are
never closed are kept.
-/

namespace VersionedXml

/-- The batch so far, and the elements that are open, innermost first. -/
structure Outline where
  batch : Batch := {}
  openElements : List Target := []
  deriving DecidableEq, Repr

namespace Outline

def depth (outline : Outline) : Nat := outline.openElements.length

def parent (outline : Outline) : Target :=
  outline.openElements.headD (.node rootId)

def addLeaf (outline : Outline) (kind : LeafKind) (content : Bytes) : Outline :=
  let created := outline.batch.create (.leaf kind content)
  { outline with batch := created.1.insert .last outline.parent created.2 }

def openElement (outline : Outline) (name : Bytes) (pairs : List (Bytes × Bytes)) : Outline :=
  let created := outline.batch.create (.element name)
  let attributed := pairs.foldl (fun batch pair => batch.setAttribute created.2 pair.1 pair.2)
    created.1
  ⟨attributed.insert .last outline.parent created.2, created.2 :: outline.openElements⟩

def closeElement (outline : Outline) : Outline :=
  { outline with openElements := outline.openElements.tail }

/-- A text is dropped if it is all space and space is ignored. -/
def isDropped (whitespace : Whitespace) (text : Bytes) : Bool :=
  whitespace == .ignore && text.isAllSpace

def add (input : Buffer) (whitespace : Whitespace) (outline : Outline) (entity : Entity) :
    Outline :=
  match entity.kind with
  | .opened name attributes _ =>
      outline.openElement (name.slice input)
        (attributes.map fun pair => (pair.name.slice input, pair.value.slice input))
  | .closed _ _ => outline.closeElement
  | .text =>
      let text := entity.span.slice input
      if isDropped whitespace text then outline else outline.addLeaf .text text
  | .enclosed kind content => outline.addLeaf (.enclosed kind) (content.slice input)

def ofEntities (input : Buffer) (whitespace : Whitespace) (entities : List Entity) : Outline :=
  entities.foldl (add input whitespace) {}

end Outline

end VersionedXml
