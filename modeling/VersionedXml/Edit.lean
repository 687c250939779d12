import VersionedXml.NodeTable.Links

/-!
# Edits

An edit is one structural change.  Edits come in batches, and an edit refers to a node either by
its identifier or as one of the nodes that its own batch has created before.
-/

namespace VersionedXml

/-- The node that an edit is about. -/
inductive Target where
  | node (id : NodeId)
  /-- The node that this batch has created as its `index`-th, counted from zero. -/
  | created (index : Nat)
  deriving DecidableEq, Repr

inductive Seed where
  | document
  | element (name : Bytes)
  | attribute (name value : Bytes)
  | leaf (kind : LeafKind) (content : Bytes)
  deriving DecidableEq, Repr

namespace Seed

def kind : Seed → NodeKind
  | .document => .document
  | .element _ => .element
  | .attribute _ _ => .attribute
  | .leaf kind _ => .leaf kind

/-- The node itself, detached, with its strings interned. -/
def plant (seed : Seed) (pool : Pool) : Pool × Node :=
  match seed with
  | .document => (pool, { data := .document {} })
  | .element name =>
      let interned := pool.intern name
      (interned.1, { data := .element interned.2 {} {} })
  | .attribute name value =>
      let internedName := pool.intern name
      let internedValue := internedName.1.intern value
      (internedValue.1, { data := .attribute internedName.2 internedValue.2 })
  | .leaf kind content =>
      let interned := pool.intern content
      (interned.1, { data := .leaf kind interned.2 })

end Seed

inductive Edit where
  | create (seed : Seed)
  /-- Makes a detached node the first or the last child of a parent. -/
  | insert (place : Place) (parent child : Target)
  | remove (parent child : Target)
  | setAttribute (element : Target) (name value : Bytes)
  | unsetAttribute (element : Target) (name : Bytes)
  deriving DecidableEq, Repr

def Edit.isCreation : Edit → Bool
  | create _ => true
  | _ => false

/-! ## Batches -/

/-- A batch that is being written: its edits, the latest first, and the number of nodes that it
creates. -/
structure Batch where
  written : List Edit := []
  created : Nat := 0
  deriving DecidableEq, Repr

namespace Batch

def edits (batch : Batch) : List Edit := batch.written.reverse

def size (batch : Batch) : Nat := batch.written.length

def isEmpty (batch : Batch) : Bool := batch.written.isEmpty

def create (batch : Batch) (seed : Seed) : Batch × Target :=
  (⟨.create seed :: batch.written, batch.created + 1⟩, .created batch.created)

def insert (batch : Batch) (place : Place) (parent child : Target) : Batch :=
  { batch with written := .insert place parent child :: batch.written }

def remove (batch : Batch) (parent child : Target) : Batch :=
  { batch with written := .remove parent child :: batch.written }

def setAttribute (batch : Batch) (element : Target) (name value : Bytes) : Batch :=
  { batch with written := .setAttribute element name value :: batch.written }

def unsetAttribute (batch : Batch) (element : Target) (name : Bytes) : Batch :=
  { batch with written := .unsetAttribute element name :: batch.written }

def push (batch : Batch) (edit : Edit) : Batch × Option Target :=
  let written := edit :: batch.written
  if edit.isCreation then
    (⟨written, batch.created + 1⟩, some (.created batch.created))
  else
    ({ batch with written := written }, none)

end Batch

end VersionedXml
