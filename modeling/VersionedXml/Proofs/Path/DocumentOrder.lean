import Mathlib.Data.List.Flatten
import VersionedXml.Proofs.Path.Rendering
import VersionedXml.Proofs.Path.Select
import VersionedXml.Proofs.Store.Descendants

/-!
# The order of what a path selects

A path goes down level by level, and yet its results come in document order, however the children of
a node have been moved about.  Going down from many nodes lists what is reached from each of them in
turn, and what is reached from a node is a part of the listing of all that lies below it.  No string
has to be looked up for this, so nothing is assumed about the pool.
-/

namespace VersionedXml.Store

variable {store : Store} {context x : NodeId} {step : ResolvedStep} {steps : List ResolvedStep}

/-- Going up from a node, link by link, leads to the other one after so many links. -/
def LiesBelow (store : Store) (levels : Nat) (context x : NodeId) : Prop :=
  ∃ ids, ids.length = levels ∧ Chain store.parent? (some x) ids (some context)

theorem LiesBelow.succ {levels : Nat} {child : NodeId} (hbelow : store.LiesBelow levels child x)
    (hparent : store.parent? child = some context) : store.LiesBelow (levels + 1) context x := by
  obtain ⟨ids, hlength, hids⟩ := hbelow
  refine ⟨ids ++ [child], by simp [hlength], Chain.append_iff.mpr ⟨some child, hids, rfl, ?_⟩⟩
  exact hparent

/-! ## Going down -/

/-- Going down from many nodes lists what is reached from each of them, one after the other. -/
theorem descend_eq_flatMap (steps : List ResolvedStep) (nodes : List NodeId) :
    store.descend steps nodes = nodes.flatMap fun id => store.descend steps [id] := by
  induction steps generalizing nodes with
  | nil => simp [descend]
  | cons step rest ih =>
      simp only [descend_cons, List.flatMap_singleton]
      rw [ih, List.flatMap_assoc]
      exact List.flatMap_congr fun id _ => (ih _).symm

/-- What is reached from a node is reached from those of its children that match the first step. -/
theorem descend_cons_singleton (step : ResolvedStep) (rest : List ResolvedStep) (id : NodeId) :
    store.descend (step :: rest) [id] =
      ((store.children id).filter (store.isMatch step)).flatMap fun child =>
        store.descend rest [child] := by
  rw [descend_cons, List.flatMap_singleton, descend_eq_flatMap]

/-- A last step goes down to children of what was reached before it. -/
theorem descend_concat (step : ResolvedStep) (steps : List ResolvedStep) (nodes : List NodeId) :
    store.descend (steps ++ [step]) nodes =
      (store.descend steps nodes).flatMap fun id =>
        (store.children id).filter (store.isMatch step) := by
  induction steps generalizing nodes with
  | nil => rw [List.nil_append, descend_cons, descend, descend]
  | cons first rest ih => rw [List.cons_append, descend_cons, descend_cons, ih]

theorem kind?_of_isMatch {id : NodeId} (hmatch : store.isMatch step id = true) :
    store.kind? id = some .element := by
  rw [isMatch_eq] at hmatch
  simp only [Bool.and_eq_true, decide_eq_true_eq] at hmatch
  exact hmatch.1.1

theorem kind?_of_mem_descend {nodes : List NodeId} (hne : steps ≠ [])
    (hx : x ∈ store.descend steps nodes) : store.kind? x = some .element := by
  obtain ⟨front, last, rfl⟩ := (List.eq_nil_or_concat' steps).resolve_left hne
  rw [descend_concat] at hx
  obtain ⟨id, -, hchild⟩ := List.mem_flatMap.mp hx
  exact kind?_of_isMatch (List.mem_filter.mp hchild).2

namespace Sound

variable (hstore : store.Sound)
include hstore

/-- If what is reached from the children comes in document order, so does what is reached from the
node. -/
theorem descend_cons_sublist {rest : List ResolvedStep} {id : NodeId}
    (hrest : ∀ child ∈ store.children id,
      (store.descend rest [child]).Sublist (child :: store.descendants child)) :
    (store.descend (step :: rest) [id]).Sublist (store.descendants id) := by
  have hlisting : store.descendants id =
      (store.children id).flatMap fun child => child :: store.descendants child :=
    hstore.wellFormed.preorder_eq_flatMap (hstore.wellFormed.preorder_descendants id)
  rw [descend_cons_singleton, hlisting]
  exact (List.filter_sublist.flatMap _).trans (List.Sublist.flatMap_right _ hrest)

/-- What is reached from a node is the node itself, or it is listed below the node. -/
theorem descend_sublist_cons (steps : List ResolvedStep) (id : NodeId) :
    (store.descend steps [id]).Sublist (id :: store.descendants id) := by
  induction steps generalizing id with
  | nil => exact List.singleton_sublist.mpr List.mem_cons_self
  | cons step rest ih => exact (hstore.descend_cons_sublist fun child _ => ih child).cons id

/-- What is reached from a node in one step or more comes in document order. -/
theorem descend_sublist (hne : steps ≠ []) (id : NodeId) :
    (store.descend steps [id]).Sublist (store.descendants id) := by
  obtain ⟨step, rest, rfl⟩ := List.exists_cons_of_ne_nil hne
  exact hstore.descend_cons_sublist fun child _ => hstore.descend_sublist_cons rest child

theorem liesBelow_of_mem_descend {id : NodeId} (hx : x ∈ store.descend steps [id]) :
    store.LiesBelow steps.length id x := by
  induction steps generalizing id with
  | nil =>
      cases List.mem_singleton.mp hx
      exact ⟨[], rfl, rfl⟩
  | cons step rest ih =>
      rw [descend_cons_singleton] at hx
      obtain ⟨child, hchild, hbelow⟩ := List.mem_flatMap.mp hx
      have hmember := (List.mem_filter.mp hchild).1
      exact (ih hbelow).succ (hstore.mem_children.mp hmember).2

end Sound

/-! ## Selecting -/

theorem length_of_mapM_resolve? {path : List PathStep} {pool : Pool}
    (hsteps : path.mapM (PathStep.resolve? pool) = some steps) : steps.length = path.length := by
  induction path generalizing steps with
  | nil =>
      cases hsteps
      rfl
  | cons step rest ih =>
      rw [List.mapM_cons] at hsteps
      obtain ⟨first, -, hothers⟩ := Option.bind_eq_some_iff.mp hsteps
      obtain ⟨others, hrest, heq⟩ := Option.bind_eq_some_iff.mp hothers
      cases heq
      rw [List.length_cons, List.length_cons, ih hrest]

/-- A path selects nothing, or its strings are found and it goes down from the context. -/
theorem select_cases (store : Store) (context : NodeId) (path : Path) :
    store.select context path = [] ∨ ∃ steps,
      (store.table.links? .children context).isSome = true ∧
        path.steps.mapM (PathStep.resolve? store.pool) = some steps ∧
        store.select context path = store.descend steps [context] := by
  unfold select
  by_cases hcontext : (store.table.links? .children context).isSome = true
  · rw [if_pos hcontext]
    cases path.steps.mapM (PathStep.resolve? store.pool) with
    | none => exact .inl rfl
    | some steps => exact .inr ⟨steps, hcontext, rfl, rfl⟩
  · exact .inl (if_neg hcontext)

/-- With one more step, a path selects children of what it has selected without it. -/
theorem exists_mem_select_of_concat {path : List PathStep} {last : PathStep}
    (hx : x ∈ store.select context ⟨path ++ [last]⟩) :
    ∃ id ∈ store.select context ⟨path⟩, x ∈ store.children id := by
  rcases select_cases store context ⟨path ++ [last]⟩ with hnone | ⟨all, hcontext, hall, hselect⟩
  · rw [hnone] at hx
    cases hx
  · rw [List.mapM_append] at hall
    obtain ⟨steps, hsteps, hlast⟩ := Option.bind_eq_some_iff.mp hall
    obtain ⟨lasts, hlasts, heq⟩ := Option.bind_eq_some_iff.mp hlast
    rw [List.mapM_cons] at hlasts
    obtain ⟨resolved, -, hresolved⟩ := Option.bind_eq_some_iff.mp hlasts
    cases hresolved
    cases heq
    have hfront : store.select context ⟨path⟩ = store.descend steps [context] := by
      rw [select, if_pos hcontext, hsteps]
    rw [hselect, List.reverse_nil, descend_concat] at hx
    obtain ⟨id, hid, hchild⟩ := List.mem_flatMap.mp hx
    exact ⟨id, hfront ▸ hid, (List.mem_filter.mp hchild).1⟩

/-- What a parsed path selects comes in document order and without repetition, wherever edits have
moved the nodes to: it is a part of the listing of all that lies below the context.  All results are
elements, as many levels below the context as the path has steps, and one step more leads to children
of them. -/
theorem Reachable.select_in_document_order (hstore : store.Reachable) (context : NodeId)
    {expression : String} {path : Path} (hpath : Path.parse expression = .ok path) :
    (store.select context path).Sublist (store.descendants context) ∧
      (store.select context path).Nodup ∧
      (∀ x ∈ store.select context path,
        store.kind? x = some .element ∧ store.LiesBelow path.depth context x) ∧
      ∀ (last : PathStep), ∀ x ∈ store.select context ⟨path.steps ++ [last]⟩,
        ∃ id ∈ store.select context path, x ∈ store.children id := by
  have hsound := hstore.sound
  have hpathSteps : path.steps ≠ [] := (Grammar.isPath_iff.mp (Path.parse_eq_ok_iff.mp hpath).2).1
  have hordered : (store.select context path).Sublist (store.descendants context) ∧
      ∀ x ∈ store.select context path,
        store.kind? x = some .element ∧ store.LiesBelow path.depth context x := by
    rcases select_cases store context path with hnone | ⟨steps, -, hsteps, hselect⟩
    · rw [hnone]
      exact ⟨List.nil_sublist _, fun x hx => absurd hx List.not_mem_nil⟩
    · have hlength : steps.length = path.depth := length_of_mapM_resolve? hsteps
      have hne : steps ≠ [] := by
        rw [← List.length_pos_iff, hlength]
        exact List.length_pos_iff.mpr hpathSteps
      rw [hselect, ← hlength]
      exact ⟨hsound.descend_sublist hne context, fun x hx =>
        ⟨kind?_of_mem_descend hne hx, hsound.liesBelow_of_mem_descend hx⟩⟩
  exact ⟨hordered.1, hordered.1.nodup (hsound.nodup_descendants context), hordered.2,
    fun last x hx => exists_mem_select_of_concat hx⟩

/-- The later of two elements, with two children of which the later was put first, is put before the
other one. -/
theorem Reachable.select_in_document_order_reordered :
    ∃ store : Store, store.Reachable ∧
      Path.parse "/a/b" = .ok ⟨[⟨"a", none⟩, ⟨"b", none⟩]⟩ ∧
      store.select rootId ⟨[⟨"a", none⟩, ⟨"b", none⟩]⟩ = [6, 5, 3] ∧
      [6, 5, 3].Sublist (store.descendants rootId) ∧ store.LiesBelow 2 rootId 6 := by
  obtain ⟨store, hcommit, hselect⟩ :
      ∃ store : Store, (Store.empty {}).commit
        [.create (.element [0x61]), .create (.element [0x62]), .create (.element [0x61]),
          .create (.element [0x62]), .create (.element [0x62]),
          .insert .last (.node 1) (.created 0), .insert .last (.created 0) (.created 1),
          .insert .first (.created 2) (.created 3), .insert .first (.created 2) (.created 4),
          .insert .first (.node 1) (.created 2)] = .ok store ∧
        store.select rootId ⟨[⟨"a", none⟩, ⟨"b", none⟩]⟩ = [6, 5, 3] :=
    ⟨_, by cbv, by cbv⟩
  have hstore : store.Reachable := .commit _ (.empty {}) hcommit
  have hparse : Path.parse "/a/b" = .ok ⟨[⟨"a", none⟩, ⟨"b", none⟩]⟩ := by decide +kernel
  obtain ⟨hsublist, -, hlevels, -⟩ := hstore.select_in_document_order rootId hparse
  rw [hselect] at hsublist hlevels
  exact ⟨store, hstore, hparse, hselect, hsublist, (hlevels 6 List.mem_cons_self).2⟩

end VersionedXml.Store
