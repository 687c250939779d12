import Mathlib
import VersionedXml.Path.Select
import VersionedXml.Proofs.Store.Consistency

/-!
# What a path selects

A path can be read in a naive way: go down from a node, depth first, and compare names and values
byte for byte at every child.  Selecting looks the strings up once, compares identifiers, goes down
level by level, and gives up early.  None of this changes the answer, since a pool tells its strings
apart by their identifiers and holds every string of every node.
-/

namespace VersionedXml.Store

/-! ## The naive reading -/

/-- An element has the name and the attribute that a step asks for. -/
def answers (store : Store) (step : PathStep) (id : NodeId) : Bool :=
  store.kind? id = some .element && store.name? id = some (Text.encode step.name) &&
    step.condition.all fun condition =>
      store.attribute? id (Text.encode condition.name) = some (Text.encode condition.value)

/-- The nodes that some steps lead to from a node, depth first. -/
def walk (store : Store) : List PathStep → NodeId → List NodeId
  | [], id => [id]
  | step :: rest, id =>
      ((store.children id).filter (store.answers step)).flatMap (store.walk rest)

variable {store : Store}

/-! ## Attributes by bytes and by identifiers -/

theorem pair?_eq_some_iff {id : NodeId} {name value : Bytes} :
    store.pair? id = some (name, value) ↔
      ∃ nameId valueId, store.isPair (nameId, valueId) id = true ∧
        store.pool.get? nameId = some name ∧ store.pool.get? valueId = some value := by
  unfold pair? name? nameId? value? isPair
  cases store.get? id with
  | none => simp
  | some node =>
      obtain ⟨parent, next, data⟩ := node
      match data with
      | .document _ => simp [Node.value?]
      | .element _ _ _ => simp [Node.value?]
      | .leaf _ _ => simp [Node.value?]
      | .attribute _ _ => simp [Node.name?, Node.value?, Option.bind_eq_some_iff]

theorem isMatch_eq (step : ResolvedStep) (id : NodeId) :
    store.isMatch step id = (store.kind? id = some .element && store.nameId? id = some step.name &&
      step.condition.all fun pair => (store.attributes id).any (store.isPair pair)) := by
  unfold isMatch kind? nameId?
  cases store.get? id with
  | none => rfl
  | some node =>
      obtain ⟨parent, next, data⟩ := node
      match data with
      | .document _ => rfl
      | .attribute _ _ => rfl
      | .leaf _ _ => rfl
      | .element name _ _ => simp [Node.kind, Node.name?, beq_eq_decide]

/-- No step leads anywhere from no node, so stopping there changes nothing. -/
theorem descend_cons (step : ResolvedStep) (rest : List ResolvedStep) (nodes : List NodeId) :
    store.descend (step :: rest) nodes =
      store.descend rest
        (nodes.flatMap fun id => (store.children id).filter (store.isMatch step)) := by
  cases nodes with
  | nil =>
      cases rest with
      | nil => rfl
      | cons second others => rfl
  | cons node more => rfl

namespace Sound

/-- No two attributes of an element have the same name, so the first with a name is the only one. -/
theorem find?_attributes (hstore : store.Sound) {element id : NodeId} {nameId : StrId}
    (hid : id ∈ store.attributes element) (hname : store.nameId? id = some nameId) :
    (store.attributes element).find? (fun x => store.nameId? x = some nameId) = some id := by
  cases hsearch : (store.attributes element).find? fun x => store.nameId? x = some nameId with
  | none =>
      have hnot := List.find?_eq_none.mp hsearch id hid
      exact absurd (decide_eq_true hname) hnot
  | some first =>
      have hfirst : store.nameId? first = some nameId := by simpa using List.find?_some hsearch
      have hmember := List.mem_of_find?_eq_some hsearch
      exact congrArg some (List.inj_on_of_nodup_map (hstore.names element) hmember hid
        (hfirst.trans hname.symm))

variable (hstore : store.Sound) (hsmall : store.pool.bytesUsed < UInt32.size)
include hstore hsmall

theorem find?_eq_some_iff {text : Bytes} {id : StrId} :
    store.pool.find? text = some id ↔ store.pool.get? id = some text := by
  obtain ⟨texts, hpool, -⟩ := hstore.serves hsmall
  exact hpool.findWith?_eq_some_iff

/-- The value of an attribute, looked up by its name, is the one that stands beside the name. -/
theorem attribute?_eq_some_iff {element : NodeId} {name value : Bytes} :
    store.attribute? element name = some value ↔ (name, value) ∈ store.attributePairs element := by
  unfold attribute? attributeNode? attributePairs
  rw [List.mem_filterMap]
  constructor
  · intro hattribute
    obtain ⟨id, hfound, hvalue⟩ := Option.bind_eq_some_iff.mp hattribute
    obtain ⟨nameId, hname, hsearch⟩ := Option.bind_eq_some_iff.mp hfound
    have hid : store.nameId? id = some nameId := by simpa using List.find?_some hsearch
    refine ⟨id, List.mem_of_find?_eq_some hsearch, ?_⟩
    unfold pair? name?
    rw [hid, Option.bind_some, (hstore.find?_eq_some_iff hsmall).mp hname, hvalue]
    rfl
  · rintro ⟨id, hid, hpair⟩
    obtain ⟨text, htext, hboth⟩ := Option.bind_eq_some_iff.mp hpair
    obtain ⟨held, hvalue, heq⟩ := Option.map_eq_some_iff.mp hboth
    cases heq
    obtain ⟨nameId, hname, hread⟩ := Option.bind_eq_some_iff.mp htext
    rw [(hstore.find?_eq_some_iff hsmall).mpr hread, Option.bind_some,
      hstore.find?_attributes hid hname]
    exact hvalue

/-- An element has an attribute with two identifiers if it has one with the strings that they
denote. -/
theorem any_isPair_iff {element : NodeId} {nameId valueId : StrId} {name value : Bytes}
    (hname : store.pool.get? nameId = some name) (hvalue : store.pool.get? valueId = some value) :
    (store.attributes element).any (store.isPair (nameId, valueId)) = true ↔
      store.attribute? element name = some value := by
  obtain ⟨texts, hpool, -⟩ := hstore.serves hsmall
  rw [hstore.attribute?_eq_some_iff hsmall, List.any_eq_true, attributePairs, List.mem_filterMap]
  refine exists_congr fun id => and_congr_right fun _ => ?_
  rw [pair?_eq_some_iff]
  constructor
  · intro hpair
    exact ⟨nameId, valueId, hpair, hname, hvalue⟩
  · rintro ⟨otherName, otherValue, hpair, hotherName, hotherValue⟩
    rw [hpool.get?_inj hname hotherName, hpool.get?_inj hvalue hotherValue]
    exact hpair

/-! ## One step -/

/-- A node has an identifier as its name if it has the string that the identifier denotes. -/
theorem name_eq_iff {id : NodeId} {nameId : StrId} {name : Bytes}
    (hname : store.pool.get? nameId = some name) :
    store.nameId? id = some nameId ↔ store.name? id = some name := by
  obtain ⟨texts, hpool, -⟩ := hstore.serves hsmall
  constructor
  · intro hid
    unfold name?
    rw [hid, Option.bind_some, hname]
  · intro hread
    obtain ⟨held, hheld, htext⟩ := Option.bind_eq_some_iff.mp hread
    rw [hheld, hpool.get?_inj htext hname]

/-- A condition whose strings are found holds of identifiers as it does of bytes. -/
theorem condition_of_resolve? {condition : Condition} {pair : StrId × StrId}
    (hresolved : condition.resolve? store.pool = some pair) (id : NodeId) :
    (store.attributes id).any (store.isPair pair) =
      decide (store.attribute? id (Text.encode condition.name) =
        some (Text.encode condition.value)) := by
  unfold Condition.resolve? at hresolved
  split at hresolved
  · rename_i nameId valueId hname hvalue
    cases hresolved
    rw [Bool.eq_iff_iff, decide_eq_true_iff]
    exact hstore.any_isPair_iff hsmall ((hstore.find?_eq_some_iff hsmall).mp hname)
      ((hstore.find?_eq_some_iff hsmall).mp hvalue)
  · cases hresolved

/-- A condition with a string that is not found holds of no element. -/
theorem condition_of_resolve?_eq_none {condition : Condition}
    (hnone : condition.resolve? store.pool = none) (id : NodeId) :
    store.attribute? id (Text.encode condition.name) ≠ some (Text.encode condition.value) := by
  intro hattribute
  have hmember := (hstore.attribute?_eq_some_iff hsmall).mp hattribute
  obtain ⟨attributeId, -, hpair⟩ := List.mem_filterMap.mp hmember
  obtain ⟨nameId, valueId, -, hname, hvalue⟩ := pair?_eq_some_iff.mp hpair
  unfold Condition.resolve? at hnone
  rw [(hstore.find?_eq_some_iff hsmall).mpr hname,
    (hstore.find?_eq_some_iff hsmall).mpr hvalue] at hnone
  cases hnone

/-- A step whose strings are found asks for the same elements by identifiers and by bytes. -/
theorem isMatch_of_resolve? {step : PathStep} {resolved : ResolvedStep}
    (hresolved : step.resolve? store.pool = some resolved) (id : NodeId) :
    store.isMatch resolved id = store.answers step id := by
  unfold PathStep.resolve? at hresolved
  split at hresolved
  · cases hresolved
  · rename_i nameId hfound
    have hname : store.nameId? id = some nameId ↔ store.name? id = some (Text.encode step.name) :=
      hstore.name_eq_iff hsmall ((hstore.find?_eq_some_iff hsmall).mp hfound)
    rw [isMatch_eq, answers]
    split at hresolved
    · rename_i hcondition
      cases hresolved
      simp [hcondition, hname]
    · rename_i condition hcondition
      obtain ⟨pair, hpair, rfl⟩ := Option.map_eq_some_iff.mp hresolved
      simp [hcondition, hname, hstore.condition_of_resolve? hsmall hpair id]

/-- A step with a string that is not found asks for no element. -/
theorem answers_of_resolve?_eq_none {step : PathStep} (hnone : step.resolve? store.pool = none)
    (id : NodeId) : store.answers step id = false := by
  unfold PathStep.resolve? at hnone
  rw [answers, Bool.eq_false_iff]
  intro hanswers
  simp only [Bool.and_eq_true, decide_eq_true_eq] at hanswers
  obtain ⟨⟨-, hname⟩, hcondition⟩ := hanswers
  obtain ⟨nameId, -, hread⟩ := Option.bind_eq_some_iff.mp hname
  rw [(hstore.find?_eq_some_iff hsmall).mpr hread] at hnone
  cases hasked : step.condition with
  | none => simp [hasked] at hnone
  | some condition =>
      simp only [hasked, Option.map_eq_none_iff] at hnone
      simp only [hasked, Option.all_some, decide_eq_true_eq] at hcondition
      exact hstore.condition_of_resolve?_eq_none hsmall hnone id hcondition

/-! ## All steps -/

/-- A path with a string that is not found leads nowhere. -/
theorem walk_of_mapM_eq_none {steps : List PathStep}
    (hnone : steps.mapM (PathStep.resolve? store.pool) = none) (id : NodeId) :
    store.walk steps id = [] := by
  induction steps generalizing id with
  | nil => cases hnone
  | cons step rest ih =>
      rw [List.mapM_cons] at hnone
      cases hstep : step.resolve? store.pool with
      | none =>
          have hno := hstore.answers_of_resolve?_eq_none hsmall hstep
          simp [walk, hno]
      | some resolved =>
          have hrest : rest.mapM (PathStep.resolve? store.pool) = none := by
            rw [hstep] at hnone
            cases hmapM : rest.mapM (PathStep.resolve? store.pool) with
            | none => rfl
            | some others => simp [hmapM] at hnone
          simp [walk, ih hrest]

/-- Going down level by level leads to the same nodes, in the same order, as going down from one
node after the other. -/
theorem descend_eq_flatMap_walk {steps : List PathStep} {resolved : List ResolvedStep}
    (hresolved : steps.mapM (PathStep.resolve? store.pool) = some resolved)
    (nodes : List NodeId) : store.descend resolved nodes = nodes.flatMap (store.walk steps) := by
  induction steps generalizing resolved nodes with
  | nil =>
      cases hresolved
      simp [descend, walk]
  | cons step rest ih =>
      rw [List.mapM_cons] at hresolved
      obtain ⟨first, hfirst, hothers⟩ := Option.bind_eq_some_iff.mp hresolved
      obtain ⟨others, hrest, heq⟩ := Option.bind_eq_some_iff.mp hothers
      cases heq
      -- The nodes that one level leaves are the starting points of the remaining walks.
      have hmatch : store.isMatch first = store.answers step :=
        funext (hstore.isMatch_of_resolve? hsmall hfirst)
      rw [descend_cons, ih hrest, List.flatMap_assoc, hmatch]
      rfl

end Sound

theorem isSome_links?_children_iff {id : NodeId} :
    (store.table.links? .children id).isSome = true ↔
      store.kind? id = some .document ∨ store.kind? id = some .element := by
  unfold kind? get?
  cases hnode : store.table.get? id with
  | none => simp [NodeTable.links?, hnode]
  | some node => simpa [NodeTable.links?, hnode] using! Node.canHaveChildren_iff node

/-- Selecting agrees with the naive reading of the path, from every node of every reachable store
whose strings fit into 32 bits. -/
theorem Reachable.select_eq_walk (hstore : store.Reachable)
    (hsmall : store.pool.bytesUsed < UInt32.size) (context : NodeId) (path : Path) :
    store.select context path =
      if store.kind? context = some .document ∨ store.kind? context = some .element then
        store.walk path.steps context
      else [] := by
  unfold select
  simp only [isSome_links?_children_iff]
  split
  · cases hresolved : path.steps.mapM (PathStep.resolve? store.pool) with
    | none => exact (hstore.sound.walk_of_mapM_eq_none hsmall hresolved context).symm
    | some resolved =>
        have hdescend := hstore.sound.descend_eq_flatMap_walk hsmall hresolved [context]
        simpa using hdescend
  · rfl

/-- Of two elements `a` with a child `b` each, the condition `k = "v"` tells the second. -/
theorem Reachable.select_eq_walk_condition :
    ∃ store : Store, store.Reachable ∧ store.pool.bytesUsed < UInt32.size ∧
      store.walk [⟨"a", none⟩, ⟨"b", none⟩] rootId = [3, 5] ∧
      store.walk [⟨"a", some ⟨"k", "v"⟩⟩, ⟨"b", none⟩] rootId = [5] ∧
      store.select rootId ⟨[⟨"a", some ⟨"k", "v"⟩⟩, ⟨"b", none⟩]⟩ = [5] := by
  obtain ⟨store, hcommit, hsmall, hkind, hboth, hsecond⟩ :
      ∃ store : Store, (Store.empty {}).commit
        [.create (.element [0x61]), .create (.element [0x62]), .create (.element [0x61]),
          .create (.element [0x62]), .insert .last (.node 1) (.created 0),
          .insert .last (.created 0) (.created 1), .insert .last (.node 1) (.created 2),
          .insert .last (.created 2) (.created 3), .setAttribute (.created 0) [0x6b] [0x62],
          .setAttribute (.created 2) [0x6b] [0x76]] = .ok store ∧
        store.pool.bytesUsed < UInt32.size ∧ store.kind? rootId = some .document ∧
        store.walk [⟨"a", none⟩, ⟨"b", none⟩] rootId = [3, 5] ∧
        store.walk [⟨"a", some ⟨"k", "v"⟩⟩, ⟨"b", none⟩] rootId = [5] :=
    ⟨_, by cbv, by decide, by decide, by decide, by cbv⟩
  have hstore : store.Reachable := .commit _ (.empty {}) hcommit
  refine ⟨store, hstore, hsmall, hboth, hsecond, ?_⟩
  rw [hstore.select_eq_walk hsmall, if_pos (.inl hkind)]
  exact hsecond

end VersionedXml.Store
