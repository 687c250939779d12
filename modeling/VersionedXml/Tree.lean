import VersionedXml.Node

/-!
# Trees

A document as a nested value, without identifiers and links.  Trees are what the markup of a
document means, and every way of holding a document can be compared with them.
-/

namespace VersionedXml

/-- An element with all that lies below it, or a leaf. -/
inductive Tree where
  | element (name : Bytes) (attributes : List (Bytes × Bytes)) (children : List Tree)
  | leaf (kind : LeafKind) (content : Bytes)
  deriving Repr

namespace Tree

def renderAttributes (attributes : List (Bytes × Bytes)) : Bytes :=
  attributes.flatMap fun pair =>
    [Byte.blank] ++ pair.1 ++ [Byte.equals, Byte.doubleQuote] ++ pair.2 ++ [Byte.doubleQuote]

mutual

def render : Tree → Bytes
  | element name attributes children =>
      [Byte.less] ++ name ++ renderAttributes attributes ++ [Byte.greater] ++
        renderAll children ++ [Byte.less, Byte.slash] ++ name ++ [Byte.greater]
  | leaf kind content => kind.opening ++ content ++ kind.ending

def renderAll : List Tree → Bytes
  | [] => []
  | tree :: rest => render tree ++ renderAll rest

end

mutual

def nodeCount : Tree → Nat
  | element _ attributes children => 1 + attributes.length + nodeCountAll children
  | leaf _ _ => 1

def nodeCountAll : List Tree → Nat
  | [] => 0
  | tree :: rest => nodeCount tree + nodeCountAll rest

end

mutual

/-- The text of a tree: the contents of its texts and character data sections. -/
def text : Tree → Bytes
  | element _ _ children => textAll children
  | leaf kind content => if kind.isTextual then content else []

def textAll : List Tree → Bytes
  | [] => []
  | tree :: rest => text tree ++ textAll rest

end

theorem renderAll_append (left right : List Tree) :
    renderAll (left ++ right) = renderAll left ++ renderAll right := by
  induction left with
  | nil => simp [renderAll]
  | cons tree rest ih => simp [renderAll, ih]

theorem nodeCountAll_append (left right : List Tree) :
    nodeCountAll (left ++ right) = nodeCountAll left + nodeCountAll right := by
  induction left with
  | nil => simp [nodeCountAll]
  | cons tree rest ih =>
      simp only [List.cons_append, nodeCountAll, ih]
      omega

end Tree

end VersionedXml
