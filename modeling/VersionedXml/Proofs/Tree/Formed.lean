import VersionedXml.Proofs.Entity.Shape
import VersionedXml.Proofs.Tree.Readable

/-!
# Trees that are grown from an input

Trees that are grown from the entities of an input hold only such strings as the scanner lets
through.  Two things may still keep their markup from being read back: a value with a double quote,
and a name that ends in `/` with no attribute behind it.
-/

namespace VersionedXml

namespace Tree

/-- A tree whose strings the scanner could have read. -/
inductive Formed (maxAttributes : Nat) : Tree → Prop where
  | text {content : Bytes} (hless : Byte.less ∉ content) :
      Formed maxAttributes (.leaf .text content)
  | enclosed {kind : Enclosure} {content : Bytes} (hending : ¬ kind.ending <:+: content) :
      Formed maxAttributes (.leaf (.enclosed kind) content)
  | element {name : Bytes} {pairs : List (Bytes × Bytes)} {children : List Tree}
      (hname : name.IsTagName) (hpairs : ∀ pair ∈ pairs, pair.1.IsAttributeName)
      (hnodup : (pairs.map Prod.fst).Nodup) (hroom : pairs.length ≤ maxAttributes)
      (hchildren : ∀ child ∈ children, Formed maxAttributes child) :
      Formed maxAttributes (.element name pairs children)

/-- A tree in which no value holds a double quote, and no name that stands alone in its tag ends in
`/`. -/
inductive Quotable : Tree → Prop where
  | leaf (kind : LeafKind) (content : Bytes) : Quotable (.leaf kind content)
  | element {name : Bytes} {pairs : List (Bytes × Bytes)} {children : List Tree}
      (hvalues : ∀ pair ∈ pairs, Byte.doubleQuote ∉ pair.2)
      (hlast : pairs = [] → name.getLast? ≠ some Byte.slash)
      (hchildren : ∀ child ∈ children, Quotable child) : Quotable (.element name pairs children)

variable {maxAttributes : Nat}

theorem Formed.readable_cons {tree : Tree} (hformed : tree.Formed maxAttributes)
    (hquotable : tree.Quotable) {rest : List Tree} (hrest : Readable maxAttributes rest) :
    Readable maxAttributes (tree :: rest) := by
  induction hformed generalizing rest with
  | text hless => exact .text hless hrest
  | enclosed hending => exact .enclosed hending hrest
  | @element name pairs children hname hpairs hnodup hroom hformed ih =>
      cases hquotable with
      | element hvalues hlast hquotable =>
          have hchildren : Readable maxAttributes children := by
            clear hformed
            induction children with
            | nil => exact .nil
            | cons child others ihOthers =>
                refine ih child List.mem_cons_self (hquotable child List.mem_cons_self) ?_
                exact ihOthers (fun other hother => ih other (List.mem_cons_of_mem _ hother))
                  (fun other hother => hquotable other (List.mem_cons_of_mem _ hother))
          exact .element hname hlast
            (fun pair hpair => ⟨hpairs pair hpair, hvalues pair hpair⟩) hnodup hroom hchildren hrest

/-- Trees from an input can be read back if they can be quoted. -/
theorem readable_of_formed {forest : List Tree}
    (hformed : ∀ tree ∈ forest, tree.Formed maxAttributes)
    (hquotable : ∀ tree ∈ forest, tree.Quotable) : Readable maxAttributes forest := by
  induction forest with
  | nil => exact .nil
  | cons tree rest ih =>
      refine (hformed tree List.mem_cons_self).readable_cons
        (hquotable tree List.mem_cons_self) ?_
      exact ih (fun other hother => hformed other (List.mem_cons_of_mem _ hother))
        (fun other hother => hquotable other (List.mem_cons_of_mem _ hother))

end Tree

namespace Growth

variable {maxAttributes : Nat} {input : Buffer} {growth : Growth}

structure Formed (maxAttributes : Nat) (growth : Growth) : Prop where
  grown : ∀ tree ∈ growth.grown, tree.Formed maxAttributes
  openElements : ∀ element ∈ growth.openElements, element.toTree.Formed maxAttributes

theorem Formed.put {tree : Tree} (hgrowth : growth.Formed maxAttributes)
    (htree : tree.Formed maxAttributes) : (growth.put tree).Formed maxAttributes := by
  obtain ⟨grown, elements⟩ := growth
  obtain ⟨hgrown, helements⟩ := hgrowth
  cases elements with
  | nil =>
      refine ⟨?_, helements⟩
      intro other hother
      rcases List.mem_cons.mp hother with rfl | hold
      · exact htree
      · exact hgrown other hold
  | cons innermost rest =>
      refine ⟨hgrown, ?_⟩
      intro element helement
      rcases List.mem_cons.mp helement with rfl | hold
      · have hinnermost := helements innermost List.mem_cons_self
        unfold OpenElement.toTree at hinnermost
        cases hinnermost with
        | element hname hpairs hnodup hroom hchildren =>
            refine .element hname hpairs hnodup hroom ?_
            intro child hchild
            rcases List.mem_cons.mp (List.mem_reverse.mp hchild) with rfl | hmem
            · exact htree
            · exact hchildren child (List.mem_reverse.mpr hmem)
      · exact helements element (List.mem_cons_of_mem _ hold)

theorem Formed.openElement {name : Bytes} {pairs : List (Bytes × Bytes)}
    (hgrowth : growth.Formed maxAttributes) (hname : name.IsTagName)
    (hpairs : ∀ pair ∈ pairs, pair.1.IsAttributeName) (hroom : pairs.length ≤ maxAttributes) :
    (growth.openElement name pairs).Formed maxAttributes := by
  have hempty : (([] : List (Bytes × Bytes)).map Prod.fst).Nodup := List.nodup_nil
  obtain ⟨hnodup, hmem⟩ := names_putPairs hempty pairs
  refine ⟨hgrowth.grown, ?_⟩
  intro element helement
  rcases List.mem_cons.mp helement with rfl | hold
  · refine .element hname ?_ hnodup ?_ nofun
    · intro pair hpair
      rcases hmem pair.1 (List.mem_map_of_mem hpair) with hnone | hgiven
      · cases hnone
      · obtain ⟨given, hgiven, heq⟩ := List.mem_map.mp hgiven
        exact heq ▸ hpairs given hgiven
    · have hlength := length_putPairs_le [] pairs
      exact Nat.le_trans hlength (by simpa using hroom)
  · exact hgrowth.openElements element hold

theorem Formed.closeElement (hgrowth : growth.Formed maxAttributes) :
    growth.closeElement.Formed maxAttributes := by
  obtain ⟨grown, elements⟩ := growth
  cases elements with
  | nil => exact hgrowth
  | cons innermost rest =>
      have hrest : Formed maxAttributes ⟨grown, rest⟩ :=
        ⟨hgrowth.grown, fun element helement =>
          hgrowth.openElements element (List.mem_cons_of_mem _ helement)⟩
      exact hrest.put (hgrowth.openElements innermost List.mem_cons_self)

/-- An entity of its shape keeps everything in shape. -/
theorem Formed.add {entity : Entity} (hgrowth : growth.Formed maxAttributes)
    (hentity : entity.Shaped maxAttributes input) (whitespace : Whitespace) :
    (growth.add input whitespace entity).Formed maxAttributes := by
  obtain ⟨kind, span⟩ := entity
  match kind with
  | .opened name attributes selfClosing =>
      obtain ⟨hname, hpairs, hroom, -⟩ := hentity
      refine hgrowth.openElement hname ?_ (by simpa using hroom)
      intro pair hpair
      obtain ⟨given, hgiven, rfl⟩ := List.mem_map.mp hpair
      exact hpairs given hgiven
  | .closed _ _ => exact hgrowth.closeElement
  | .text =>
      simp only [Growth.add]
      split
      · exact hgrowth
      · exact hgrowth.put (.text hentity)
  | .enclosed kind content => exact hgrowth.put (.enclosed hentity.1)

theorem Formed.foldl_add {entities : List Entity} (hgrowth : growth.Formed maxAttributes)
    (hentities : ∀ entity ∈ entities, entity.Shaped maxAttributes input)
    (whitespace : Whitespace) :
    (entities.foldl (Growth.add input whitespace) growth).Formed maxAttributes := by
  induction entities generalizing growth with
  | nil => exact hgrowth
  | cons entity rest ih =>
      exact ih (hgrowth.add (hentities entity List.mem_cons_self) whitespace)
        fun other hother => hentities other (List.mem_cons_of_mem _ hother)

/-- Completing the open elements keeps everything in shape. -/
theorem Formed.trees (hgrowth : growth.Formed maxAttributes) :
    ∀ tree ∈ growth.trees, tree.Formed maxAttributes := by
  generalize hlength : growth.openElements.length = length
  induction length generalizing growth with
  | zero =>
      obtain ⟨grown, elements⟩ := growth
      cases List.eq_nil_of_length_eq_zero hlength
      intro tree htree
      exact hgrowth.grown tree (List.mem_reverse.mp htree)
  | succ length ih =>
      rw [← trees_closeElement]
      refine ih hgrowth.closeElement ?_
      rw [length_openElements_closeElement, hlength]
      rfl

/-! ## Bytes of strings -/

def weight (growth : Growth) : Nat :=
  Tree.weightAll growth.grown + (growth.openElements.map fun element => element.toTree.weight).sum

theorem weightAll_reverse (forest : List Tree) :
    Tree.weightAll forest.reverse = Tree.weightAll forest := by
  induction forest with
  | nil => rfl
  | cons tree rest ih =>
      rw [List.reverse_cons, Tree.weightAll_append, ih]
      simp only [Tree.weightAll]
      omega

theorem weight_put (growth : Growth) (tree : Tree) :
    (growth.put tree).weight = growth.weight + tree.weight := by
  obtain ⟨grown, elements⟩ := growth
  cases elements with
  | nil =>
      simp only [put, weight, Tree.weightAll]
      omega
  | cons element rest =>
      simp only [put, weight, List.map_cons, List.sum_cons, OpenElement.toTree, Tree.weight,
        weightAll_reverse, Tree.weightAll]
      omega

theorem weight_closeElement (growth : Growth) : growth.closeElement.weight = growth.weight := by
  obtain ⟨grown, elements⟩ := growth
  cases elements with
  | nil => rfl
  | cons element rest =>
      simp only [closeElement, weight_put]
      simp only [weight, List.map_cons, List.sum_cons]
      omega

theorem weightAll_trees (growth : Growth) : Tree.weightAll growth.trees = growth.weight := by
  generalize hlength : growth.openElements.length = length
  induction length generalizing growth with
  | zero =>
      obtain ⟨grown, elements⟩ := growth
      cases List.eq_nil_of_length_eq_zero hlength
      simp [trees, complete, weight, weightAll_reverse]
  | succ length ih =>
      rw [← trees_closeElement, ← weight_closeElement]
      refine ih growth.closeElement ?_
      rw [length_openElements_closeElement, hlength]
      rfl

/-- Giving names their values takes no more bytes than they have. -/
theorem sum_putPairs_le (known pairs : List (Bytes × Bytes)) :
    ((putPairs known pairs).map fun pair => pair.1.length + pair.2.length).sum ≤
      (known.map fun pair => pair.1.length + pair.2.length).sum +
        (pairs.map fun pair => pair.1.length + pair.2.length).sum := by
  have hput : ∀ name value : Bytes, ∀ known : List (Bytes × Bytes),
      ((putPair name value known).map fun pair => pair.1.length + pair.2.length).sum ≤
        (known.map fun pair => pair.1.length + pair.2.length).sum +
          (name.length + value.length) := by
    intro name value known
    induction known with
    | nil => simp [putPair]
    | cons pair rest ih =>
        rw [putPair]
        split
        · simp only [List.map_cons, List.sum_cons]
          omega
        · simp only [List.map_cons, List.sum_cons]
          omega
  induction pairs generalizing known with
  | nil => exact Nat.le_refl _
  | cons pair rest ih =>
      have hfirst := hput pair.1 pair.2 known
      have hrest := ih (putPair pair.1 pair.2 known)
      rw [putPairs, List.foldl_cons]
      simp only [List.map_cons, List.sum_cons, putPairs] at *
      omega

theorem weight_openElement_le (growth : Growth) (name : Bytes) (pairs : List (Bytes × Bytes)) :
    (growth.openElement name pairs).weight ≤ growth.weight + (name.length +
      (pairs.map fun pair => pair.1.length + pair.2.length).sum) := by
  have hpairs := sum_putPairs_le [] pairs
  simp only [openElement, weight, List.map_cons, List.sum_cons, OpenElement.toTree, Tree.weight,
    collectPairs_eq, List.reverse_nil, Tree.weightAll, List.map_nil, List.sum_nil] at *
  omega

/-- An entity brings no more bytes than its strings have. -/
theorem weight_add_le (growth : Growth) (input : Buffer) (whitespace : Whitespace)
    (entity : Entity) :
    (growth.add input whitespace entity).weight ≤
      growth.weight + ((entity.texts input whitespace).map List.length).sum := by
  obtain ⟨kind, span⟩ := entity
  match kind with
  | .opened name attributes selfClosing =>
      rw [Entity.length_texts_opened]
      exact weight_openElement_le _ _ _
  | .closed _ _ => exact Nat.le_of_eq (weight_closeElement growth)
  | .text =>
      simp only [Growth.add, Entity.texts]
      split
      · exact Nat.le_refl _
      · rw [weight_put]
        simp [Tree.weight]
  | .enclosed kind content =>
      rw [Growth.add, weight_put]
      simp [Tree.weight, Entity.texts]

theorem weight_foldl_add_le (growth : Growth) (input : Buffer) (whitespace : Whitespace)
    (entities : List Entity) :
    (entities.foldl (Growth.add input whitespace) growth).weight ≤
      growth.weight + Entity.totalLength input whitespace entities := by
  induction entities generalizing growth with
  | nil => exact Nat.le_refl _
  | cons entity rest ih =>
      have hfirst := weight_add_le growth input whitespace entity
      have hrest := ih (growth.add input whitespace entity)
      simp only [List.foldl_cons, Entity.totalLength, List.flatMap_cons, List.map_append,
        List.sum_append] at *
      omega

end Growth

/-- The trees of an input hold only what the scanner lets through, and no more bytes than the
input. -/
theorem Tree.formed_ofEntities {maxAttributes : Nat} {input : Buffer} {entities : List Entity}
    {failure : Option ScanError} (hscan : scan maxAttributes input = ⟨entities, failure⟩)
    (whitespace : Whitespace) :
    (∀ tree ∈ Tree.ofEntities input whitespace entities, tree.Formed maxAttributes) ∧
      Entity.totalLength input whitespace entities ≤ input.size ∧
      Tree.weightAll (Tree.ofEntities input whitespace entities) ≤
        Entity.totalLength input whitespace entities := by
  obtain ⟨hshaped, stop, htiles, hstop⟩ := scan_shaped maxAttributes input
  rw [hscan] at hshaped htiles
  have hempty : Growth.Formed maxAttributes {} := ⟨nofun, nofun⟩
  have hlength : 0 + Entity.totalLength input whitespace entities ≤ stop :=
    Entity.totalLength_le_of_tiles hshaped whitespace htiles
  have hweight := Growth.weight_foldl_add_le {} input whitespace entities
  refine ⟨(hempty.foldl_add hshaped whitespace).trees, by omega, ?_⟩
  rw [Tree.ofEntities, Growth.weightAll_trees]
  exact Nat.le_trans hweight (Nat.le_of_eq (Nat.zero_add _))

end VersionedXml
