import Mathlib.Algebra.GroupWithZero.Nat
import Mathlib.Data.List.Induction
import VersionedXml.Tree.Growth

/-!
# Growing and counting

A growing document has as many nodes as its complete trees will have.  Putting a tree into it adds
the nodes of the tree, opening an element adds the element with its attributes, and closing an
element adds nothing, so the nodes can be counted on the entities.  An element that is opened, filled
and closed is the same as the complete element put at once.
-/

namespace VersionedXml

/-! ## Pairs -/

/-- Giving a name a value makes room for it unless it is there. -/
theorem length_putPair (name value : Bytes) (pairs : List (Bytes × Bytes)) :
    (putPair name value pairs).length =
      if name ∈ pairs.map Prod.fst then pairs.length else pairs.length + 1 := by
  induction pairs with
  | nil => rfl
  | cons pair rest ih =>
      rw [putPair]
      by_cases hname : pair.1 = name
      · simp [hname]
      · have hother : ¬ name = pair.1 := fun heq => hname heq.symm
        simp only [if_neg hname, List.length_cons, ih, List.map_cons, List.mem_cons, hother,
          false_or]
        split <;> rfl

theorem map_fst_putPair (name value : Bytes) (pairs : List (Bytes × Bytes)) :
    (putPair name value pairs).map Prod.fst =
      if name ∈ pairs.map Prod.fst then pairs.map Prod.fst else pairs.map Prod.fst ++ [name] := by
  induction pairs with
  | nil => rfl
  | cons pair rest ih =>
      rw [putPair]
      by_cases hname : pair.1 = name
      · simp [hname]
      · have hother : ¬ name = pair.1 := fun heq => hname heq.symm
        simp only [if_neg hname, List.map_cons, ih, List.mem_cons, hother, false_or]
        split <;> rfl

theorem putPair_of_notMem {name value : Bytes} {pairs : List (Bytes × Bytes)}
    (hname : name ∉ pairs.map Prod.fst) : putPair name value pairs = pairs ++ [(name, value)] := by
  induction pairs with
  | nil => rfl
  | cons pair rest ih =>
      have hne : pair.1 ≠ name := fun heq => hname (by simp [← heq])
      have hrest : name ∉ rest.map Prod.fst := fun hmember => hname (List.mem_cons_of_mem _ hmember)
      rw [putPair, if_neg hne, ih hrest, List.cons_append]

theorem putPair_append_cons {name value old : Bytes} {left right : List (Bytes × Bytes)}
    (hname : name ∉ left.map Prod.fst) :
    putPair name value (left ++ (name, old) :: right) = left ++ (name, value) :: right := by
  induction left with
  | nil => simp [putPair]
  | cons pair rest ih =>
      have hne : pair.1 ≠ name := fun heq => hname (by simp [← heq])
      have hrest : name ∉ rest.map Prod.fst := fun hmember => hname (List.mem_cons_of_mem _ hmember)
      rw [List.cons_append, putPair, if_neg hne, ih hrest, List.cons_append]

def putPairs (known pairs : List (Bytes × Bytes)) : List (Bytes × Bytes) :=
  pairs.foldl (fun known pair => putPair pair.1 pair.2 known) known

theorem collectPairs_eq (pairs : List (Bytes × Bytes)) : collectPairs pairs = putPairs [] pairs :=
  rfl

theorem length_le_length_putPairs (known pairs : List (Bytes × Bytes)) :
    known.length ≤ (putPairs known pairs).length := by
  induction pairs generalizing known with
  | nil => exact Nat.le_refl _
  | cons pair rest ih =>
      refine Nat.le_trans ?_ (ih (putPair pair.1 pair.2 known))
      rw [length_putPair]
      split
      · exact Nat.le_refl _
      · exact Nat.le_succ _

theorem length_putPairs_le (known pairs : List (Bytes × Bytes)) :
    (putPairs known pairs).length ≤ known.length + pairs.length := by
  induction pairs generalizing known with
  | nil => exact Nat.le_refl _
  | cons pair rest ih =>
      have hrest := ih (putPair pair.1 pair.2 known)
      have hfirst : (putPair pair.1 pair.2 known).length ≤ known.length + 1 := by
        rw [length_putPair]
        split <;> omega
      rw [List.length_cons]
      exact Nat.le_trans hrest (by omega)

/-- The names that are collected are distinct, and each of them was given. -/
theorem names_putPairs {known : List (Bytes × Bytes)} (hnodup : (known.map Prod.fst).Nodup)
    (pairs : List (Bytes × Bytes)) :
    ((putPairs known pairs).map Prod.fst).Nodup ∧
      ∀ name ∈ (putPairs known pairs).map Prod.fst,
        name ∈ known.map Prod.fst ∨ name ∈ pairs.map Prod.fst := by
  induction pairs generalizing known with
  | nil => exact ⟨hnodup, fun name hname => .inl hname⟩
  | cons pair rest ih =>
      obtain ⟨name, value⟩ := pair
      have hnames := map_fst_putPair name value known
      have hfirst : ((putPair name value known).map Prod.fst).Nodup := by
        rw [hnames]
        split
        · exact hnodup
        · rename_i hnew
          refine List.nodup_append.mpr ⟨hnodup, List.pairwise_singleton _ _, ?_⟩
          intro left hleft right hright heq
          exact hnew (List.mem_singleton.mp hright ▸ heq ▸ hleft)
      obtain ⟨hrest, hmem⟩ := ih hfirst
      refine ⟨hrest, fun other hother => ?_⟩
      rcases hmem other hother with hknown | hlater
      · rw [hnames] at hknown
        split at hknown
        · exact .inl hknown
        · rcases List.mem_append.mp hknown with hold | hnew
          · exact .inl hold
          · exact .inr (List.mem_singleton.mp hnew ▸ List.mem_cons_self)
      · exact .inr (List.mem_cons_of_mem _ hlater)

theorem putPairs_of_nodup {known pairs : List (Bytes × Bytes)}
    (hnodup : ((known ++ pairs).map Prod.fst).Nodup) : putPairs known pairs = known ++ pairs := by
  induction pairs generalizing known with
  | nil => exact (List.append_nil known).symm
  | cons pair rest ih =>
      obtain ⟨name, value⟩ := pair
      have hname : name ∉ known.map Prod.fst := by
        rw [List.map_append, List.map_cons] at hnodup
        exact fun hmem => (List.nodup_append.mp hnodup).2.2 _ hmem _ List.mem_cons_self rfl
      have hassoc : known ++ (name, value) :: rest = known ++ [(name, value)] ++ rest := by simp
      rw [hassoc] at hnodup ⊢
      rw [← ih hnodup, putPairs, List.foldl_cons, putPair_of_notMem hname]
      rfl

theorem collectPairs_of_nodup {pairs : List (Bytes × Bytes)}
    (hnodup : (pairs.map Prod.fst).Nodup) : collectPairs pairs = pairs := by
  rw [collectPairs_eq, putPairs_of_nodup (by simpa using hnodup), List.nil_append]

theorem eraseDups_concat (texts : List Bytes) (text : Bytes) :
    (texts ++ [text]).eraseDups =
      if text ∈ texts then texts.eraseDups else texts.eraseDups ++ [text] := by
  rw [List.eraseDups_append, List.cons_removeAll]
  by_cases htext : text ∈ texts
  · simp [htext]
  · simp [htext, List.eraseDups_cons]

/-- Giving a name a value in a list of distinct names changes nothing but the value of the name. -/
theorem putPair_map {names : List Bytes} (hnodup : names.Nodup) (name value : Bytes)
    (valueOf : Bytes → Bytes) :
    putPair name value (names.map fun other => (other, valueOf other)) =
      (if name ∈ names then names else names ++ [name]).map fun other =>
        (other, if other = name then value else valueOf other) := by
  induction names with
  | nil => simp [putPair]
  | cons first rest ih =>
      obtain ⟨hfirst, hrest⟩ := List.nodup_cons.mp hnodup
      rw [List.map_cons, putPair]
      by_cases hname : first = name
      · have hothers : ∀ other ∈ rest, other ≠ name := by
          rintro other hother rfl
          exact hfirst (hname ▸ hother)
        simp only [hname, List.mem_cons, true_or, if_true, List.map_cons, List.cons.injEq, true_and]
        refine List.map_congr_left fun other hother => ?_
        rw [if_neg (hothers other hother)]
      · have hback : ¬ name = first := fun heq => hname heq.symm
        simp only [if_neg hname, ih hrest, List.mem_cons, hback, false_or]
        split
        · simp [hname]
        · simp [hname]

/-- Attributes are collected in the order in which their names are first seen, each with the value
that its name is given last. -/
theorem collectPairs_eq_map (pairs : List (Bytes × Bytes)) :
    collectPairs pairs = (pairs.map Prod.fst).eraseDups.map fun name =>
      (name, (pairs.reverse.lookup name).getD []) := by
  -- The last pair decides: its name is new, or it overrules the values before it.
  induction pairs using List.reverseRecOn with
  | nil => rfl
  | append_singleton pairs pair ih =>
      obtain ⟨name, value⟩ := pair
      have hnames : (collectPairs pairs).map Prod.fst = (pairs.map Prod.fst).eraseDups := by
        rw [ih, List.map_map]
        exact List.map_id _
      have hnodup : (pairs.map Prod.fst).eraseDups.Nodup := by
        have hempty : (([] : List (Bytes × Bytes)).map Prod.fst).Nodup := List.nodup_nil
        rw [← hnames, collectPairs_eq]
        exact (names_putPairs hempty pairs).1
      have hstep : collectPairs (pairs ++ [(name, value)]) =
          putPair name value (collectPairs pairs) := by
        simp only [collectPairs, List.foldl_append, List.foldl_cons, List.foldl_nil]
      rw [hstep, ih, putPair_map hnodup, List.map_append, List.map_cons, List.map_nil,
        eraseDups_concat, List.reverse_append]
      simp only [List.mem_eraseDups]
      refine List.map_congr_left fun other _ => ?_
      by_cases hother : other = name
      · simp [hother]
      · simp [hother, List.lookup_cons, beq_eq_false_iff_ne.mpr hother]

def Entity.texts (input : Buffer) (whitespace : Whitespace) (entity : Entity) : List Bytes :=
  match entity.kind with
  | .opened name attributes _ =>
      name.slice input :: attributes.flatMap fun pair => [pair.name.slice input, pair.value.slice input]
  | .closed _ _ => []
  | .text =>
      let text := entity.span.slice input
      if Outline.isDropped whitespace text then [] else [text]
  | .enclosed _ content => [content.slice input]

def Entity.totalLength (input : Buffer) (whitespace : Whitespace) (entities : List Entity) : Nat :=
  ((entities.flatMap (Entity.texts input whitespace)).map List.length).sum

theorem Entity.totalLength_append (input : Buffer) (whitespace : Whitespace) (left right : List Entity) :
    totalLength input whitespace (left ++ right) =
      totalLength input whitespace left + totalLength input whitespace right := by
  simp [totalLength]

/-- An opening tag has the strings of its name and of its attributes. -/
theorem Entity.length_texts_opened (input : Buffer) (whitespace : Whitespace) (name : Span)
    (attributes : List Attribute) (selfClosing : Bool) (span : Span) :
    (((⟨.opened name attributes selfClosing, span⟩ : Entity).texts input whitespace).map
      List.length).sum = (name.slice input).length +
        ((attributes.map fun pair => (pair.name.slice input, pair.value.slice input)).map fun pair =>
          pair.1.length + pair.2.length).sum := by
  simp only [texts, List.map_cons, List.sum_cons, List.map_map]
  congr 1
  induction attributes with
  | nil => rfl
  | cons pair attributes ih =>
      simp only [List.flatMap_cons, List.map_append, List.sum_append, ih, List.map_cons,
        List.sum_cons, List.map_nil, List.sum_nil, Function.comp_apply, Nat.add_zero]

namespace Entity

def nodeCount (input : Buffer) (whitespace : Whitespace) (entity : Entity) : Nat :=
  match entity.kind with
  | .opened _ attributes _ =>
      1 + (attributes.map fun pair => pair.name.slice input).eraseDups.length
  | .closed _ _ => 0
  | .text => if whitespace = .ignore ∧ (entity.span.slice input).isAllSpace then 0 else 1
  | .enclosed _ _ => 1

def nodeCountAll (input : Buffer) (whitespace : Whitespace) (entities : List Entity) : Nat :=
  (entities.map (nodeCount input whitespace)).sum

end Entity

namespace Tree

theorem nodeCountAll_reverse (forest : List Tree) :
    nodeCountAll forest.reverse = nodeCountAll forest := by
  induction forest with
  | nil => rfl
  | cons tree rest ih =>
      rw [List.reverse_cons, nodeCountAll_append, ih]
      simp only [nodeCountAll]
      omega

end Tree

def OpenElement.count (element : OpenElement) : Nat :=
  1 + element.attributes.length + Tree.nodeCountAll element.children

theorem OpenElement.nodeCount_toTree (element : OpenElement) :
    element.toTree.nodeCount = element.count := by
  simp [toTree, Tree.nodeCount, count, Tree.nodeCountAll_reverse]

namespace Growth

def count (growth : Growth) : Nat :=
  Tree.nodeCountAll growth.grown + (growth.openElements.map OpenElement.count).sum

theorem nodeCountAll_complete (grown : List Tree) (inner : Option Tree)
    (elements : List OpenElement) :
    Tree.nodeCountAll (complete grown inner elements) =
      Tree.nodeCountAll grown + Tree.nodeCountAll inner.toList +
        (elements.map OpenElement.count).sum := by
  induction elements generalizing inner with
  | nil =>
      simp only [complete, Tree.nodeCountAll_append, List.map_nil, List.sum_nil]
      omega
  | cons element rest ih =>
      simp only [complete, ih, Option.toList_some, Tree.nodeCountAll, OpenElement.nodeCount_toTree,
        List.map_cons, List.sum_cons]
      simp only [OpenElement.count, Tree.nodeCountAll_append]
      omega

theorem nodeCountAll_trees (growth : Growth) :
    Tree.nodeCountAll growth.trees = growth.count := by
  unfold trees count
  rw [Tree.nodeCountAll_reverse, nodeCountAll_complete]
  simp [Tree.nodeCountAll]

theorem count_put (growth : Growth) (tree : Tree) :
    (growth.put tree).count = growth.count + tree.nodeCount := by
  obtain ⟨grown, elements⟩ := growth
  cases elements with
  | nil =>
      simp only [put, count, Tree.nodeCountAll]
      omega
  | cons element rest =>
      simp only [put, count, List.map_cons, List.sum_cons, OpenElement.count, Tree.nodeCountAll]
      omega

theorem count_openElement (growth : Growth) (name : Bytes) (pairs : List (Bytes × Bytes)) :
    (growth.openElement name pairs).count = growth.count + 1 + (collectPairs pairs).length := by
  simp only [openElement, count, List.map_cons, List.sum_cons, OpenElement.count,
    Tree.nodeCountAll]
  omega

theorem count_closeElement (growth : Growth) : growth.closeElement.count = growth.count := by
  obtain ⟨grown, elements⟩ := growth
  cases elements with
  | nil => rfl
  | cons element rest =>
      simp only [closeElement, count_put, OpenElement.nodeCount_toTree]
      simp only [count, List.map_cons, List.sum_cons]
      omega

theorem count_add (input : Buffer) (whitespace : Whitespace) (growth : Growth) (entity : Entity) :
    (growth.add input whitespace entity).count =
      growth.count + entity.nodeCount input whitespace := by
  obtain ⟨kind, span⟩ := entity
  unfold add Entity.nodeCount
  match kind with
  | .opened name attributes _ =>
      simp only [count_openElement, collectPairs_eq_map, List.length_map, List.map_map]
      exact Nat.add_assoc _ _ _
  | .closed _ _ => exact count_closeElement growth
  | .text =>
      simp only [Outline.isDropped, Bool.and_eq_true, beq_iff_eq]
      split
      · rfl
      · rw [count_put]
        rfl
  | .enclosed kind content => simp [count_put, Tree.nodeCount]

theorem count_foldl_add (input : Buffer) (whitespace : Whitespace) (growth : Growth)
    (entities : List Entity) :
    (entities.foldl (add input whitespace) growth).count =
      growth.count + Entity.nodeCountAll input whitespace entities := by
  induction entities generalizing growth with
  | nil => rfl
  | cons entity rest ih =>
      rw [List.foldl_cons, ih, count_add, Entity.nodeCountAll, Entity.nodeCountAll, List.map_cons,
        List.sum_cons, Nat.add_assoc]

theorem count_le_count_foldl_add (input : Buffer) (whitespace : Whitespace) (growth : Growth)
    (entities : List Entity) :
    growth.count ≤ (entities.foldl (add input whitespace) growth).count := by
  rw [count_foldl_add]
  exact Nat.le_add_right _ _

/-! ## Completing elements -/

/-- Closing an element is the first step of completing all elements. -/
theorem trees_closeElement (growth : Growth) : growth.closeElement.trees = growth.trees := by
  obtain ⟨grown, elements⟩ := growth
  cases elements with
  | nil => rfl
  | cons element rest =>
      cases rest with
      | nil => rfl
      | cons outer rest => rfl

theorem length_openElements_closeElement (growth : Growth) :
    growth.closeElement.openElements.length = growth.openElements.length - 1 := by
  obtain ⟨grown, elements⟩ := growth
  cases elements with
  | nil => rfl
  | cons element rest =>
      cases rest with
      | nil => rfl
      | cons outer rest => rfl

def putAll (growth : Growth) (forest : List Tree) : Growth :=
  forest.foldl put growth

theorem putAll_append (growth : Growth) (left right : List Tree) :
    growth.putAll (left ++ right) = (growth.putAll left).putAll right :=
  List.foldl_append

theorem putAll_of_openElements {grown : List Tree} {innermost : OpenElement}
    {rest : List OpenElement} (forest : List Tree) :
    putAll ⟨grown, innermost :: rest⟩ forest =
      ⟨grown, { innermost with children := forest.reverse ++ innermost.children } :: rest⟩ := by
  induction forest generalizing innermost with
  | nil => rfl
  | cons tree forest ih =>
      rw [putAll, List.foldl_cons]
      refine ih.trans ?_
      simp

theorem closeElement_putAll (growth : Growth) (name : Bytes) (pairs : List (Bytes × Bytes))
    (forest : List Tree) :
    ((growth.openElement name pairs).putAll forest).closeElement =
      growth.put (.element name (collectPairs pairs) forest) := by
  obtain ⟨grown, elements⟩ := growth
  rw [openElement, putAll_of_openElements]
  simp [closeElement, OpenElement.toTree]

theorem trees_putAll_empty (forest : List Tree) : (putAll {} forest).trees = forest := by
  have hgrown : ∀ grown, putAll ⟨grown, []⟩ forest = ⟨forest.reverse ++ grown, []⟩ := by
    induction forest with
    | nil => exact fun grown => rfl
    | cons tree rest ih =>
        intro grown
        rw [putAll, List.foldl_cons]
        refine (ih (tree :: grown)).trans ?_
        simp
  rw [hgrown]
  simp [trees, complete]

end Growth

theorem Tree.nodeCountAll_ofEntities (input : Buffer) (whitespace : Whitespace)
    (entities : List Entity) :
    Tree.nodeCountAll (Tree.ofEntities input whitespace entities) =
      Entity.nodeCountAll input whitespace entities := by
  rw [ofEntities, Growth.nodeCountAll_trees, Growth.count_foldl_add]
  exact Nat.zero_add _

end VersionedXml
