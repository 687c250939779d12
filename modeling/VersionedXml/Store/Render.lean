import VersionedXml.Store.Reading

/-!
# Rendering

A store is written as markup in a normal form: every element has an opening and a closing tag, and
every value stands in double quotes.  Strings are written as they are held.

The tree is walked with a stack of pending nodes and closing tags, so that no depth of nesting is
too great.
-/

namespace VersionedXml.Store

inductive Pending where
  | node (id : NodeId)
  | closing (id : NodeId)
  deriving DecidableEq, Repr

def stringOf (store : Store) (id : StrId) : Bytes :=
  (store.pool.get? id).getD []

def renderPair (pair : Bytes × Bytes) : Bytes :=
  pair.1 ++ [Byte.equals, Byte.doubleQuote] ++ pair.2 ++ [Byte.doubleQuote]

def renderOpening (store : Store) (id : NodeId) (name : StrId) : Bytes :=
  [Byte.less] ++ store.stringOf name ++
    (store.attributePairs id).flatMap (fun pair => Byte.blank :: renderPair pair) ++
    [Byte.greater]

def renderClosing (store : Store) (id : NodeId) : Bytes :=
  [Byte.less, Byte.slash] ++ (store.name? id).getD [] ++ [Byte.greater]

def writeOne (store : Store) : Pending → Bytes × List Pending
  | .closing id => (store.renderClosing id, [])
  | .node id =>
      match (store.get? id).map Node.data with
      | none => ([], [])
      | some (.document _) => ([], (store.children id).map .node)
      | some (.element name _ _) =>
          (store.renderOpening id name, (store.children id).map .node ++ [.closing id])
      | some (.attribute name value) =>
          (renderPair (store.stringOf name, store.stringOf value), [])
      | some (.leaf kind content) => (kind.opening ++ store.stringOf content ++ kind.ending, [])

/-- Writes pending items, at most `steps` of them, behind what is written already. -/
def writeAll (store : Store) : Nat → List Pending → Buffer → Buffer
  | 0, _, written => written
  | _ + 1, [], written => written
  | steps + 1, item :: rest, written =>
      let one := store.writeOne item
      store.writeAll steps (one.2 ++ rest) (written ++ one.1)

/-- Writes a node with all that lies below it behind what is written already.  Each node is written
once and closed at most once. -/
def write (store : Store) (id : NodeId) (written : Buffer) : Buffer :=
  store.writeAll (2 * store.nodeCount + 1) [.node id] written

def renderNode (store : Store) (id : NodeId) : Buffer :=
  store.write id #[]

def render (store : Store) : Buffer :=
  store.renderNode rootId

end VersionedXml.Store
