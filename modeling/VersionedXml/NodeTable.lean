import VersionedXml.Error
import VersionedXml.Limits
import VersionedXml.Node

/-!
# Node tables

All nodes of a document, attached or not, stand in one table.  Identifiers count from one and are
never used again, so an identifier means the same node in every later version of the table.
-/

namespace VersionedXml

/-- The nodes, in the order of their identifiers. -/
structure NodeTable where
  nodes : Array Node
  deriving DecidableEq, Repr

namespace NodeTable

def sized (nodes : Nat) : NodeTable :=
  ⟨(Array.emptyWithCapacity (nodes + 1)).push { data := .document {} }⟩

def initial : NodeTable := sized 64

def size (table : NodeTable) : Nat := table.nodes.size

def get? (table : NodeTable) (id : NodeId) : Option Node :=
  if id = 0 then none else table.nodes[id.toNat - 1]?

def contains (table : NodeTable) (id : NodeId) : Bool :=
  (table.get? id).isSome

def modify (table : NodeTable) (id : NodeId) (change : Node → Node) : NodeTable :=
  if id = 0 then table else ⟨table.nodes.modify (id.toNat - 1) change⟩

def modify? (table : NodeTable) (id? : Option NodeId) (change : Node → Node) : NodeTable :=
  match id? with
  | some id => table.modify id change
  | none => table

/-- Adds a node under the next identifier, if the limit allows one more. -/
def add (limits : Limits) (table : NodeTable) (node : Node) :
    Except StoreError (NodeTable × NodeId) :=
  let id := table.size + 1
  if id ≤ limits.maxNodes then
    .ok (⟨table.nodes.push node⟩, id.toUInt32)
  else
    .error (.storeFull limits.maxNodes)

def find (table : NodeTable) (id : NodeId) : Except StoreError Node :=
  match table.get? id with
  | some node => .ok node
  | none => .error (.noSuchNode id)

def links? (table : NodeTable) (family : Family) (id : NodeId) : Option Links :=
  (table.get? id).bind (Node.links? family)

@[simp]
theorem size_modify (table : NodeTable) (id : NodeId) (change : Node → Node) :
    (table.modify id change).size = table.size := by
  unfold modify
  split
  · rfl
  · simp [size]

@[simp]
theorem get?_modify_self (table : NodeTable) (id : NodeId) (change : Node → Node) :
    (table.modify id change).get? id = (table.get? id).map change := by
  by_cases hzero : id = 0
  · simp [get?, hzero]
  · simp [get?, modify, hzero, Array.getElem?_modify]

theorem get?_modify_of_ne (table : NodeTable) {id other : NodeId} (change : Node → Node)
    (hne : other ≠ id) : (table.modify id change).get? other = table.get? other := by
  by_cases hother : other = 0
  · simp [get?, hother]
  by_cases hzero : id = 0
  · simp [modify, hzero]
  have hindex : id.toNat - 1 ≠ other.toNat - 1 := by
    intro heq
    have hid : id.toNat ≠ 0 := fun h => hzero (UInt32.toNat_inj.mp (by simpa using h))
    have hot : other.toNat ≠ 0 := fun h => hother (UInt32.toNat_inj.mp (by simpa using h))
    exact hne (UInt32.toNat_inj.mp (by omega))
  simp [get?, modify, hother, hzero, Array.getElem?_modify, hindex]

end NodeTable

end VersionedXml
