import VersionedXml.Store
import VersionedXml.Text.Utf8

/-!
# Reading a store

Nodes are asked for their place, their lists and their strings.  A question that makes no sense
for the node, or for an identifier without a node, has no answer.
-/

namespace VersionedXml.Store

def get? (store : Store) (id : NodeId) : Option Node :=
  store.table.get? id

def contains (store : Store) (id : NodeId) : Bool :=
  store.table.contains id

def nodeCount (store : Store) : Nat :=
  store.table.size

def kind? (store : Store) (id : NodeId) : Option NodeKind :=
  (store.get? id).map Node.kind

/-! ## Places -/

def parent? (store : Store) (id : NodeId) : Option NodeId :=
  (store.get? id).bind Node.parent

def firstChild? (store : Store) (id : NodeId) : Option NodeId :=
  (store.table.links? .children id).bind Links.first

def lastChild? (store : Store) (id : NodeId) : Option NodeId :=
  (store.table.links? .children id).bind Links.last

def nextSibling? (store : Store) (id : NodeId) : Option NodeId :=
  (store.get? id).bind Node.next

def childCount (store : Store) (id : NodeId) : Nat :=
  ((store.table.links? .children id).map fun links => links.count.toNat).getD 0

def attributeCount (store : Store) (id : NodeId) : Nat :=
  ((store.table.links? .attributes id).map fun links => links.count.toNat).getD 0

def children (store : Store) (id : NodeId) : List NodeId :=
  store.table.children id

def attributes (store : Store) (id : NodeId) : List NodeId :=
  store.table.attributes id

def descendants (store : Store) (id : NodeId) : List NodeId :=
  store.table.descendants id

def rootElement? (store : Store) : Option NodeId :=
  (store.children rootId).find? fun id => store.kind? id = some .element

def isConsistent (store : Store) : Bool :=
  store.table.isConsistent

/-! ## Strings -/

def nameId? (store : Store) (id : NodeId) : Option StrId :=
  (store.get? id).bind Node.name?

def name? (store : Store) (id : NodeId) : Option Bytes :=
  (store.nameId? id).bind store.pool.get?

def value? (store : Store) (id : NodeId) : Option Bytes :=
  ((store.get? id).bind Node.value?).bind store.pool.get?

def content? (store : Store) (id : NodeId) : Option Bytes :=
  ((store.get? id).bind Node.content?).bind store.pool.get?

def attributeNode? (store : Store) (element : NodeId) (name : Bytes) : Option NodeId :=
  (store.pool.find? name).bind fun nameId =>
    (store.attributes element).find? fun id => store.nameId? id = some nameId

def attribute? (store : Store) (element : NodeId) (name : Bytes) : Option Bytes :=
  (store.attributeNode? element name).bind store.value?

def pair? (store : Store) (id : NodeId) : Option (Bytes × Bytes) :=
  (store.name? id).bind fun name => (store.value? id).map fun value => (name, value)

def attributePairs (store : Store) (element : NodeId) : List (Bytes × Bytes) :=
  (store.attributes element).filterMap store.pair?

def ownText (store : Store) (id : NodeId) : Bytes :=
  match store.kind? id with
  | some (.leaf kind) => if kind.isTextual then (store.content? id).getD [] else []
  | _ => []

/-- The text of a node: the content of a text, the value of an attribute, and otherwise the
texts of all descendants, one behind the other. -/
def textContent (store : Store) (id : NodeId) : Bytes :=
  match store.kind? id with
  | some .attribute => (store.value? id).getD []
  | some (.leaf kind) =>
      if kind.isTextual then store.ownText id else (store.descendants id).flatMap store.ownText
  | _ => (store.descendants id).flatMap store.ownText

def text (store : Store) (id : NodeId) : String :=
  Text.decodeLossy (store.textContent id)

end VersionedXml.Store
