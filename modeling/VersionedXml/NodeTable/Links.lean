import VersionedXml.NodeTable.Traversal

/-!
# Changing lists

Nodes are attached to the list of an owner at either end, and detached again from any place.
The checks beside these changes tell when a change of children leaves a tree.
-/

namespace VersionedXml

inductive Place where
  | first
  | last
  deriving DecidableEq, Repr

namespace NodeTable

def attachLast (family : Family) (owner id : NodeId) (table : NodeTable) : NodeTable :=
  let previous := (table.links? family owner).bind Links.last
  ((table.modify owner (Node.mapLinks family (Links.addLast id))).modify? previous
    (Node.setNext (some id))).modify id (Node.place (some owner) none)

def attachFirst (family : Family) (owner id : NodeId) (table : NodeTable) : NodeTable :=
  let next := (table.links? family owner).bind Links.first
  (table.modify owner (Node.mapLinks family (Links.addFirst id))).modify id
    (Node.place (some owner) next)

def attach (place : Place) (family : Family) (owner id : NodeId) (table : NodeTable) : NodeTable :=
  match place with
  | .first => table.attachFirst family owner id
  | .last => table.attachLast family owner id

/-- The member right before the first occurrence of `id`. -/
def before? (id : NodeId) : List NodeId → Option NodeId
  | [] => none
  | [_] => none
  | head :: second :: rest =>
      if head = id then none
      else if second = id then some head
      else before? id (second :: rest)

def detach (family : Family) (owner id : NodeId) (table : NodeTable) : NodeTable :=
  let previous := before? id (table.members family owner)
  let next := (table.get? id).bind Node.next
  ((table.modify? previous (Node.setNext next)).modify owner
    (Node.mapLinks family (Links.drop id previous next))).modify id (Node.place none none)

/-! ## Children -/

def checkKinds (table : NodeTable) (parent child : NodeId) : Except StoreError Node :=
  match table.find parent, table.find child with
  | .error failure, _ => .error failure
  | _, .error failure => .error failure
  | .ok parentNode, .ok childNode =>
      if !childNode.canBeChild then .error (.notAChild child)
      else if !parentNode.canHaveChildren then .error (.notAParent parent)
      else .ok childNode

/-- A node may become a child if it is detached and the parent does not lie below it. -/
def checkInsert (table : NodeTable) (parent child : NodeId) : Except StoreError Unit :=
  match table.checkKinds parent child with
  | .error failure => .error failure
  | .ok childNode =>
      if childNode.parent.isSome then .error (.alreadyAttached child)
      else if (table.lineage parent).contains child then .error (.wouldCycle parent child)
      else .ok ()

def checkRemove (table : NodeTable) (parent child : NodeId) : Except StoreError Unit :=
  match table.checkKinds parent child with
  | .error failure => .error failure
  | .ok _ =>
      if (table.children parent).contains child then .ok ()
      else .error (.childNotFound parent child)

/-! ## Attributes -/

def checkElement (table : NodeTable) (id : NodeId) : Except StoreError Unit :=
  match table.find id with
  | .error failure => .error failure
  | .ok node => if node.kind = .element then .ok () else .error (.notAnElement id)

/-- The first attribute with a given name among some nodes, which all have to be attributes. -/
def findNamed (table : NodeTable) (name : StrId) : List NodeId → Except StoreError (Option NodeId)
  | [] => .ok none
  | id :: rest =>
      match (table.get? id).map Node.data with
      | some (.attribute held _) =>
          if held = name then .ok (some id) else table.findNamed name rest
      | _ => .error (.notAnAttribute id)

end NodeTable

end VersionedXml
