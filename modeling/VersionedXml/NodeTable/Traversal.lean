import VersionedXml.NodeTable

/-!
# Walking through a table

Lists of children and chains of parents are followed from link to link.  A walk takes as many steps
as the table has nodes at most, which is enough for every walk that meets no node twice.
-/

namespace VersionedXml.NodeTable

/-- The nodes met by following a link from `start` on, at most `steps` of them. -/
def follow (table : NodeTable) (link : Node → Option NodeId) :
    Nat → Option NodeId → List NodeId
  | 0, _ => []
  | _ + 1, none => []
  | steps + 1, some id => id :: table.follow link steps ((table.get? id).bind link)

def members (table : NodeTable) (family : Family) (owner : NodeId) : List NodeId :=
  table.follow Node.next table.size ((table.links? family owner).bind Links.first)

def children (table : NodeTable) (id : NodeId) : List NodeId :=
  table.members .children id

def attributes (table : NodeTable) (id : NodeId) : List NodeId :=
  table.members .attributes id

def lineage (table : NodeTable) (id : NodeId) : List NodeId :=
  table.follow Node.parent table.size (some id)

/-- Visits the nodes on a stack.  Behind each visited node come its first child and then its next
sibling, so that a subtree is complete before its sibling is visited. -/
def visit (table : NodeTable) : Nat → List NodeId → List NodeId
  | 0, _ => []
  | _ + 1, [] => []
  | steps + 1, id :: stack =>
      let node? := table.get? id
      let firstChild? := ((node?.bind (Node.links? .children)).bind Links.first)
      let next? := node?.bind Node.next
      id :: table.visit steps (firstChild?.toList ++ next?.toList ++ stack)

def descendants (table : NodeTable) (id : NodeId) : List NodeId :=
  table.visit table.size ((table.links? .children id).bind Links.first).toList

@[simp]
theorem follow_none (table : NodeTable) (link : Node → Option NodeId) (steps : Nat) :
    table.follow link steps none = [] := by
  cases steps <;> rfl

theorem length_follow_le (table : NodeTable) (link : Node → Option NodeId) (steps : Nat)
    (start : Option NodeId) : (table.follow link steps start).length ≤ steps := by
  induction steps generalizing start with
  | zero => simp [follow]
  | succ steps ih =>
      cases start with
      | none => simp [follow]
      | some id =>
          simp only [follow, List.length_cons]
          have := ih ((table.get? id).bind link)
          omega

/-! ## Consistency -/

/-- Walks `count` links on from a node, as long as the nodes met have the given parent.  The result
is the node met last and the link behind it. -/
def walkOwned (table : NodeTable) (owner : NodeId) :
    Nat → Option NodeId → Option NodeId → Option (Option NodeId × Option NodeId)
  | 0, last, here => some (last, here)
  | _ + 1, _, none => none
  | count + 1, _, some id =>
      match table.get? id with
      | some node =>
          if node.parent = some owner then table.walkOwned owner count (some id) node.next
          else none
      | none => none

/-- A list is consistent when its members have its owner as their parent, are as many as it says,
and end with the member that it says is last. -/
def listIsConsistent (table : NodeTable) (owner : NodeId) (links : Links) : Bool :=
  if links.count = 0 then
    links.first.isNone && links.last.isNone
  else
    table.walkOwned owner links.count.toNat none links.first == some (links.last, none)

/-- Every list of every node is consistent. -/
def isConsistent (table : NodeTable) : Bool :=
  (List.range table.size).all fun index =>
    let id := (index + 1).toUInt32
    ((table.links? .children id).all (table.listIsConsistent id)) &&
      ((table.links? .attributes id).all (table.listIsConsistent id))

end VersionedXml.NodeTable
