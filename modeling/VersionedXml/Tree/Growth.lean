import VersionedXml.Edit.Outline
import VersionedXml.Tree

/-!
# Growing trees from entities

The meaning of a list of entities is a list of trees.  It is grown from left to right: an opening
tag opens an element, a closing tag completes the innermost open one, and everything else becomes a
leaf.  Elements that are open at the end are completed there.
-/

namespace VersionedXml

def putPair (name value : Bytes) : List (Bytes × Bytes) → List (Bytes × Bytes)
  | [] => [(name, value)]
  | pair :: rest =>
      if pair.1 = name then (name, value) :: rest else pair :: putPair name value rest

def collectPairs (pairs : List (Bytes × Bytes)) : List (Bytes × Bytes) :=
  pairs.foldl (fun known pair => putPair pair.1 pair.2 known) []

structure OpenElement where
  name : Bytes
  attributes : List (Bytes × Bytes)
  children : List Tree
  deriving Repr

def OpenElement.toTree (element : OpenElement) : Tree :=
  .element element.name element.attributes element.children.reverse

/-- The complete trees outside all elements, the latest first, and the open elements, the innermost
first. -/
structure Growth where
  grown : List Tree := []
  openElements : List OpenElement := []
  deriving Repr

namespace Growth

def put (growth : Growth) (tree : Tree) : Growth :=
  match growth.openElements with
  | [] => { growth with grown := tree :: growth.grown }
  | innermost :: rest =>
      { growth with
        openElements := { innermost with children := tree :: innermost.children } :: rest }

def openElement (growth : Growth) (name : Bytes) (pairs : List (Bytes × Bytes)) : Growth :=
  { growth with openElements := ⟨name, collectPairs pairs, []⟩ :: growth.openElements }

def closeElement (growth : Growth) : Growth :=
  match growth.openElements with
  | [] => growth
  | innermost :: rest => { growth with openElements := rest }.put innermost.toTree

def add (input : Buffer) (whitespace : Whitespace) (growth : Growth) (entity : Entity) : Growth :=
  match entity.kind with
  | .opened name attributes _ =>
      growth.openElement (name.slice input)
        (attributes.map fun pair => (pair.name.slice input, pair.value.slice input))
  | .closed _ _ => growth.closeElement
  | .text =>
      let text := entity.span.slice input
      if Outline.isDropped whitespace text then growth else growth.put (.leaf .text text)
  | .enclosed kind content => growth.put (.leaf (.enclosed kind) (content.slice input))

/-- Completes the open elements from the innermost one outwards.  Each complete one, `inner`, is the
latest child of the next. -/
def complete (grown : List Tree) (inner : Option Tree) : List OpenElement → List Tree
  | [] => inner.toList ++ grown
  | element :: rest =>
      let completed := { element with children := inner.toList ++ element.children }
      complete grown (some completed.toTree) rest

def trees (growth : Growth) : List Tree :=
  (complete growth.grown none growth.openElements).reverse

end Growth

/-- The trees that a list of entities means. -/
def Tree.ofEntities (input : Buffer) (whitespace : Whitespace) (entities : List Entity) :
    List Tree :=
  (entities.foldl (Growth.add input whitespace) {}).trees

end VersionedXml
