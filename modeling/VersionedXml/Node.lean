import VersionedXml.Entity
import VersionedXml.Pool

/-!
# Nodes

A node knows its parent and the node behind it in its parent's list.  Documents and elements own a
list of children, and elements own a second list of attributes.
-/

namespace VersionedXml

/-- The identifier of a node.  Zero names no node. -/
abbrev NodeId := UInt32

def rootId : NodeId := 1

/-- The two ends and the length of a list of nodes. -/
structure Links where
  first : Option NodeId := none
  last : Option NodeId := none
  count : UInt32 := 0
  deriving DecidableEq, Repr

namespace Links

def addLast (id : NodeId) (links : Links) : Links :=
  ⟨links.first <|> some id, some id, links.count + 1⟩

def addFirst (id : NodeId) (links : Links) : Links :=
  ⟨some id, links.last <|> some id, links.count + 1⟩

/-- The list without the member `id`, which stands between `previous` and `next`. -/
def drop (id : NodeId) (previous next : Option NodeId) (links : Links) : Links :=
  ⟨if previous.isNone then next else links.first,
    if links.last = some id then previous else links.last,
    links.count - 1⟩

end Links

/-- The kinds of nodes that hold a single string and own no list. -/
inductive LeafKind where
  | text
  | enclosed (kind : Enclosure)
  deriving DecidableEq, Repr

namespace LeafKind

def opening : LeafKind → Bytes
  | text => []
  | enclosed kind => kind.opening

def ending : LeafKind → Bytes
  | text => []
  | enclosed kind => kind.ending

def isTextual : LeafKind → Bool
  | text => true
  | enclosed .cdata => true
  | enclosed _ => false

end LeafKind

inductive NodeKind where
  | document
  | element
  | attribute
  | leaf (kind : LeafKind)
  deriving DecidableEq, Repr

/-- What a node is, without its place in the tree. -/
inductive NodeData where
  | document (children : Links)
  | element (name : StrId) (children attributes : Links)
  | attribute (name value : StrId)
  | leaf (kind : LeafKind) (content : StrId)
  deriving DecidableEq, Repr

structure Node where
  parent : Option NodeId := none
  next : Option NodeId := none
  data : NodeData
  deriving DecidableEq, Repr

/-- The two lists that a node may own. -/
inductive Family where
  | children
  | attributes
  deriving DecidableEq, Repr

namespace Node

def kind (node : Node) : NodeKind :=
  match node.data with
  | .document _ => .document
  | .element _ _ _ => .element
  | .attribute _ _ => .attribute
  | .leaf kind _ => .leaf kind

def links? (family : Family) (node : Node) : Option Links :=
  match family, node.data with
  | .children, .document children => some children
  | .children, .element _ children _ => some children
  | .attributes, .element _ _ attributes => some attributes
  | _, _ => none

def mapLinks (family : Family) (change : Links → Links) (node : Node) : Node :=
  match family, node.data with
  | .children, .document children => { node with data := .document (change children) }
  | .children, .element name children attributes =>
      { node with data := .element name (change children) attributes }
  | .attributes, .element name children attributes =>
      { node with data := .element name children (change attributes) }
  | _, _ => node

def place (parent next : Option NodeId) (node : Node) : Node :=
  { node with parent := parent, next := next }

def setNext (next : Option NodeId) (node : Node) : Node :=
  { node with next := next }

def setValue (value : StrId) (node : Node) : Node :=
  match node.data with
  | .attribute name _ => { node with data := .attribute name value }
  | _ => node

def name? (node : Node) : Option StrId :=
  match node.data with
  | .element name _ _ => some name
  | .attribute name _ => some name
  | _ => none

def value? (node : Node) : Option StrId :=
  match node.data with
  | .attribute _ value => some value
  | _ => none

def content? (node : Node) : Option StrId :=
  match node.data with
  | .leaf _ content => some content
  | _ => none

def canBeChild (node : Node) : Bool :=
  match node.data with
  | .element _ _ _ => true
  | .leaf _ _ => true
  | _ => false

def canHaveChildren (node : Node) : Bool :=
  (node.links? .children).isSome

@[simp]
theorem links?_mapLinks_self (family : Family) (change : Links → Links) (node : Node) :
    (node.mapLinks family change).links? family = (node.links? family).map change := by
  obtain ⟨parent, next, data⟩ := node
  cases family <;> cases data <;> rfl

theorem links?_mapLinks_of_ne {family other : Family} (change : Links → Links) (node : Node)
    (hne : other ≠ family) :
    (node.mapLinks family change).links? other = node.links? other := by
  obtain ⟨parent, next, data⟩ := node
  cases family <;> cases other <;> cases data <;> first | rfl | exact absurd rfl hne

@[simp]
theorem kind_mapLinks (family : Family) (change : Links → Links) (node : Node) :
    (node.mapLinks family change).kind = node.kind := by
  obtain ⟨parent, next, data⟩ := node
  cases family <;> cases data <;> rfl

@[simp]
theorem parent_mapLinks (family : Family) (change : Links → Links) (node : Node) :
    (node.mapLinks family change).parent = node.parent := by
  obtain ⟨parent, next, data⟩ := node
  cases family <;> cases data <;> rfl

@[simp]
theorem next_mapLinks (family : Family) (change : Links → Links) (node : Node) :
    (node.mapLinks family change).next = node.next := by
  obtain ⟨parent, next, data⟩ := node
  cases family <;> cases data <;> rfl

end Node

end VersionedXml
