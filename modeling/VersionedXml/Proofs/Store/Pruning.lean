import VersionedXml.Proofs.Store.Normalization

/-!
# Ignored space

Where space is ignored, a text that is all space is dropped before it becomes a node, so that all
nodes behind it have other identifiers.  The trees are the same all the same, without the blank
texts: growing trees without such texts gives the trees that are grown with them and pruned
afterwards.
-/

namespace VersionedXml

namespace Tree

def isBlank : Tree → Bool
  | leaf .text content => content.isAllSpace
  | _ => false

mutual

def prune : Tree → Tree
  | element name attributes children => element name attributes (pruneAll children)
  | leaf kind content => leaf kind content

def pruneAll : List Tree → List Tree
  | [] => []
  | tree :: rest => if isBlank tree then pruneAll rest else prune tree :: pruneAll rest

end

theorem pruneAll_eq (forest : List Tree) :
    pruneAll forest = (forest.filter fun tree => !tree.isBlank).map prune := by
  induction forest with
  | nil => rfl
  | cons tree rest ih =>
      rw [pruneAll, List.filter_cons, ih]
      cases tree.isBlank <;> rfl

theorem pruneAll_reverse (forest : List Tree) :
    pruneAll forest.reverse = (pruneAll forest).reverse := by
  rw [pruneAll_eq, pruneAll_eq, List.filter_reverse, List.map_reverse]

mutual

theorem nodeCount_prune_le : ∀ tree : Tree, nodeCount (prune tree) ≤ nodeCount tree
  | element name attributes children => by
      have hchildren := nodeCountAll_pruneAll_le children
      rw [prune, nodeCount, nodeCount]
      omega
  | leaf kind content => Nat.le_of_eq (by rw [prune])

theorem nodeCountAll_pruneAll_le : ∀ forest : List Tree,
    nodeCountAll (pruneAll forest) ≤ nodeCountAll forest
  | [] => Nat.le_of_eq (by rw [pruneAll])
  | tree :: rest => by
      have htree := nodeCount_prune_le tree
      have hrest := nodeCountAll_pruneAll_le rest
      rw [pruneAll, nodeCountAll]
      split
      · omega
      · rw [nodeCountAll]
        omega

end

end Tree

def OpenElement.prune (element : OpenElement) : OpenElement :=
  { element with children := Tree.pruneAll element.children }

theorem OpenElement.toTree_prune (element : OpenElement) :
    element.prune.toTree = element.toTree.prune := by
  rw [toTree, toTree, Tree.prune, Tree.pruneAll_reverse]
  rfl

namespace Growth

def prune (growth : Growth) : Growth :=
  ⟨Tree.pruneAll growth.grown, growth.openElements.map OpenElement.prune⟩

theorem prune_put (growth : Growth) (tree : Tree) :
    (growth.put tree).prune = if tree.isBlank then growth.prune else growth.prune.put tree.prune := by
  obtain ⟨grown, elements⟩ := growth
  cases hblank : tree.isBlank <;> cases elements <;>
    simp [put, prune, OpenElement.prune, Tree.pruneAll, hblank]

theorem prune_closeElement (growth : Growth) :
    growth.closeElement.prune = growth.prune.closeElement := by
  obtain ⟨grown, elements⟩ := growth
  cases elements with
  | nil => rfl
  | cons innermost rest =>
      have hput := prune_put ⟨grown, rest⟩ innermost.toTree
      rw [← OpenElement.toTree_prune] at hput
      exact hput

/-- Pruning behind an entity is ignoring the space of the entity behind the pruning. -/
theorem prune_add (growth : Growth) (input : Buffer) (entity : Entity) :
    (growth.add input .preserve entity).prune = growth.prune.add input .ignore entity := by
  obtain ⟨kind, span⟩ := entity
  match kind with
  | .opened name attributes selfClosing => rfl
  | .closed name supplied => exact prune_closeElement growth
  | .text => exact prune_put growth (.leaf .text (span.slice input))
  | .enclosed kind content => exact prune_put growth (.leaf (.enclosed kind) (content.slice input))

theorem prune_foldl_add (growth : Growth) (input : Buffer) (entities : List Entity) :
    (entities.foldl (add input .preserve) growth).prune =
      entities.foldl (add input .ignore) growth.prune := by
  induction entities generalizing growth with
  | nil => rfl
  | cons entity rest ih => rw [List.foldl_cons, List.foldl_cons, ih, prune_add]

theorem trees_prune (growth : Growth) : growth.prune.trees = Tree.pruneAll growth.trees := by
  generalize hlength : growth.openElements.length = length
  induction length generalizing growth with
  | zero =>
      obtain ⟨grown, elements⟩ := growth
      cases List.eq_nil_of_length_eq_zero hlength
      exact (Tree.pruneAll_reverse grown).symm
  | succ length ih =>
      rw [← trees_closeElement, ← prune_closeElement, ← trees_closeElement growth]
      refine ih growth.closeElement ?_
      rw [length_openElements_closeElement, hlength]
      rfl

end Growth

/-- Where space is ignored, entities mean the same trees without the blank texts. -/
theorem Tree.ofEntities_ignore (input : Buffer) (entities : List Entity) :
    Tree.ofEntities input .ignore entities =
      pruneAll (Tree.ofEntities input .preserve entities) := by
  rw [ofEntities, ofEntities, ← Growth.trees_prune, Growth.prune_foldl_add]
  rfl

namespace Store

open VersionedXml.Tree

/-- A document that is read with its space is read without it, too, and then it is the same document
without the texts, at any depth, that are all space. -/
theorem parse_ignore_of_preserve {limits : Limits} {input : Buffer} {store : Store}
    (hsize : input.size < 2 ^ 32) (hparse : parse ⟨.preserve, limits⟩ input = .ok store) :
    ∃ pruned, parse ⟨.ignore, limits⟩ input = .ok pruned ∧
      pruned.trees rootId = pruneAll (store.trees rootId) := by
  obtain ⟨entities, hscan, hholds, hfits⟩ := holds_of_parse hsize hparse
  obtain ⟨-, hlength, -⟩ := formed_ofEntities hscan .ignore
  rcases parse_of_scan ⟨.ignore, limits⟩ hscan (Nat.lt_of_le_of_lt hlength hsize) with
    ⟨-, pruned, hok, hheld⟩ | ⟨hfull, -⟩
  · refine ⟨pruned, hok, ?_⟩
    rw [hheld.trees, hholds.trees, ofEntities_ignore]
  · have hfewer := nodeCountAll_pruneAll_le (Tree.ofEntities input .preserve entities)
    rw [ofEntities_ignore] at hfull
    dsimp only at hfits hfull
    omega

/-- An input in which space stands around an element, at its beginning, alone in an element, alone in
a section of character data, and before other bytes of a text. -/
def spaced : Buffer :=
  #[0x20, 0x3c, 0x61, 0x20, 0x6b, 0x3d, 0x27, 0x76, 0x27, 0x3e, 0x20, 0x3c, 0x62, 0x3e, 0x0a,
    0x3c, 0x2f, 0x62, 0x3e, 0x3c, 0x21, 0x5b, 0x43, 0x44, 0x41, 0x54, 0x41, 0x5b, 0x20, 0x5d,
    0x5d, 0x3e, 0x20, 0x74, 0x3c, 0x2f, 0x61, 0x3e, 0x09]

theorem parse_ignore_of_preserve_spaced :
    ∃ store pruned : Store, parse ⟨.preserve, {}⟩ spaced = .ok store ∧
      parse ⟨.ignore, {}⟩ spaced = .ok pruned ∧
      store.trees rootId = [.leaf .text [0x20],
        .element [0x61] [([0x6b], [0x76])]
          [.leaf .text [0x20], .element [0x62] [] [.leaf .text [0x0a]],
            .leaf (.enclosed .cdata) [0x20], .leaf .text [0x20, 0x74]],
        .leaf .text [0x09]] ∧
      pruned.trees rootId =
        [.element [0x61] [([0x6b], [0x76])]
          [.element [0x62] [] [], .leaf (.enclosed .cdata) [0x20], .leaf .text [0x20, 0x74]]] := by
  obtain ⟨entities, hscan, htrees⟩ : ∃ entities, scan 4096 spaced = ⟨entities, none⟩ ∧
      Tree.ofEntities spaced .preserve entities = [.leaf .text [0x20],
        .element [0x61] [([0x6b], [0x76])]
          [.leaf .text [0x20], .element [0x62] [] [.leaf .text [0x0a]],
            .leaf (.enclosed .cdata) [0x20], .leaf .text [0x20, 0x74]],
        .leaf .text [0x09]] :=
    ⟨_, by cbv, by cbv⟩
  obtain ⟨store, hparse, hholds⟩ : ∃ store, parse ⟨.preserve, {}⟩ spaced = .ok store ∧
      store.Holds (Tree.ofEntities spaced .preserve entities) :=
    @parse_eq_ok_of_scan ⟨.preserve, {}⟩ spaced entities hscan (by decide) (by rw [htrees]; decide)
  rw [htrees] at hholds
  obtain ⟨pruned, hpruned, hforest⟩ := parse_ignore_of_preserve (by decide) hparse
  refine ⟨store, pruned, hparse, hpruned, hholds.trees, hforest.trans ?_⟩
  rw [hholds.trees]
  rfl

end Store

end VersionedXml
