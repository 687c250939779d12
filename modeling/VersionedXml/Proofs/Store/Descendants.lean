import VersionedXml.Proofs.NodeTable.Descent
import VersionedXml.Proofs.Store.Consistency

/-!
# Descendants

The descendants of a node are found by a walk with a stack.  In a reachable store this walk is the
recursive one, child by child, and it meets exactly the nodes from which the chain of parents leads
up to the node.  The text of an element or of a document is read off them.
-/

namespace VersionedXml.Store

open Relation (TransGen)

variable {store : Store} {id x : NodeId}

theorem kind_of_isChild (hchild : store.table.IsChild id x) :
    store.kind? id ≠ some .attribute := by
  obtain ⟨links, hlinks⟩ := NodeTable.exists_links?_of_mem hchild
  exact (NodeTable.family?_eq_children_iff.mp (NodeTable.family?_of_links?_children hlinks)).2

namespace Sound

variable (hstore : store.Sound)
include hstore

/-- The nodes below a node are those whose parents lead up to it, attributes excepted. -/
theorem transGen_isChild_iff : TransGen store.table.IsChild id x ↔
    store.kind? x ≠ some .attribute ∧
      TransGen (fun parent child => store.parent? child = some parent) id x := by
  constructor
  · intro hbelow
    obtain ⟨parent, -, hchild⟩ := TransGen.tail'_iff.mp hbelow
    have hparents : store.table.IsChild ≤ fun parent child => store.parent? child = some parent :=
      fun _ _ hchild => (hstore.mem_children.mp hchild).2
    exact ⟨(hstore.mem_children.mp hchild).1, TransGen.mono hparents _ _ hbelow⟩
  · rintro ⟨hkind, habove⟩
    induction habove with
    | single hparent => exact .single (hstore.mem_children.mpr ⟨hkind, hparent⟩)
    | tail _ hparent ih =>
        have hchild := hstore.mem_children.mpr ⟨hkind, hparent⟩
        exact (ih (kind_of_isChild hchild)).tail hchild

theorem mem_descendants : x ∈ store.descendants id ↔ TransGen store.table.IsChild id x :=
  (hstore.wellFormed.preorder_descendants id).mem_iff_transGen

theorem nodup_descendants (id : NodeId) : (store.descendants id).Nodup :=
  (hstore.wellFormed.preorder_descendants id).nodup hstore.wellFormed
    (hstore.wellFormed.pairwise_children id)

/-- What lies below a node is another node, and has another parent. -/
theorem parent?_ne_of_transGen (hbelow : TransGen store.table.IsChild id x) :
    x ≠ id ∧ store.parent? x ≠ none ∧ store.parent? x ≠ store.parent? id := by
  have hwf := hstore.wellFormed
  have hlevel := hwf.depth_lt_of_transGen hbelow
  obtain ⟨parent, -, hchild⟩ := TransGen.tail'_iff.mp hbelow
  have hparent : store.parent? x = some parent := hwf.parent?_of_isChild hchild
  refine ⟨?_, hparent ▸ Option.some_ne_none parent, fun hsame => ?_⟩
  · rintro rfl
    exact Nat.lt_irrefl _ hlevel
  · -- children of one parent lie on one level
    have hid : store.table.parent? id = some parent := hsame.symm.trans hparent
    rw [hwf.depth_of_isChild hchild, NodeTable.depth, hwf.lineage_eq_cons hid] at hlevel
    exact Nat.lt_irrefl _ hlevel

end Sound

def holdsText (store : Store) (id : NodeId) : Bool :=
  store.kind? id == some (.leaf .text) || store.kind? id == some (.leaf (.enclosed .cdata))

theorem ownText_eq (store : Store) (id : NodeId) :
    store.ownText id = if store.holdsText id then (store.content? id).getD [] else [] := by
  unfold ownText holdsText
  match store.kind? id with
  | none => rfl
  | some .document => rfl
  | some .element => rfl
  | some .attribute => rfl
  | some (.leaf .text) => rfl
  | some (.leaf (.enclosed .cdata)) => rfl
  | some (.leaf (.enclosed .comment)) => rfl
  | some (.leaf (.enclosed .instruction)) => rfl

theorem flatMap_ownText (store : Store) (ids : List NodeId) : ids.flatMap store.ownText =
    (ids.filter store.holdsText).flatMap fun id => (store.content? id).getD [] := by
  induction ids with
  | nil => rfl
  | cons id rest ih =>
      rw [List.flatMap_cons, List.filter_cons, ownText_eq, ih]
      split <;> rfl

/-- The walk from the first child of a node on comes to an end.  It visits each child, in the order
of siblings, and behind it the descendants of the child.  It meets no node twice, and it meets the
nodes, attributes excepted, that have the node among their proper ancestors; so neither the node nor
a sibling of it nor a detached node is met.  The text of a document or of an element is the text
held by the nodes that are met. -/
theorem Reachable.descendants_preorder (hstore : store.Reachable) (id : NodeId) :
    store.table.Visits (store.firstChild? id).toList (store.descendants id) ∧
      store.descendants id =
        (store.children id).flatMap (fun child => child :: store.descendants child) ∧
      (store.descendants id).Nodup ∧
      (∀ x, x ∈ store.descendants id ↔ store.kind? x ≠ some .attribute ∧
        TransGen (fun parent child => store.parent? child = some parent) id x) ∧
      (∀ x ∈ store.descendants id,
        x ≠ id ∧ store.parent? x ≠ none ∧ store.parent? x ≠ store.parent? id) ∧
      (store.kind? id = some .document ∨ store.kind? id = some .element →
        store.textContent id = ((store.descendants id).filter store.holdsText).flatMap
          fun x => (store.content? x).getD []) := by
  have hsound := hstore.sound
  have hwf := hsound.wellFormed
  have hlisting := hwf.preorder_descendants id
  refine ⟨hwf.visits_of_preorder hlisting, hwf.preorder_eq_flatMap hlisting,
    hlisting.nodup hwf (hwf.pairwise_children id), fun x => ?_, fun x hx => ?_, fun hkind => ?_⟩
  · exact hsound.mem_descendants.trans hsound.transGen_isChild_iff
  · exact hsound.parent?_ne_of_transGen (hsound.mem_descendants.mp hx)
  · rw [← flatMap_ownText, textContent]
    rcases hkind with hkind | hkind <;> rw [hkind]

/-- An element with a text, an element around character data, and an attribute, is walked through
in a store where another element is detached. -/
theorem Reachable.descendants_preorder_nested :
    ∃ store : Store, store.Reachable ∧ store.nodeCount = 7 ∧
      store.attributes 2 = [7] ∧ store.table.Visits [3] [3, 4, 5] ∧
      (∀ x, x ∈ [3, 4, 5] ↔ store.kind? x ≠ some .attribute ∧
        TransGen (fun parent child => store.parent? child = some parent) 2 x) ∧
      store.textContent 2 = [0x78, 0x79] := by
  obtain ⟨store, hcommit, hcount, hattributes, hkind, hfirst, hdescendants, htext⟩ :
      ∃ store : Store, (Store.empty {}).commit
        [.create (.element [0x61]), .create (.leaf .text [0x78]), .create (.element [0x62]),
          .create (.leaf (.enclosed .cdata) [0x79]), .create (.element [0x63]),
          .insert .last (.node 1) (.created 0), .insert .last (.created 0) (.created 1),
          .insert .last (.created 0) (.created 2), .insert .last (.created 2) (.created 3),
          .setAttribute (.created 0) [0x6b] [0x7a]] = .ok store ∧
        store.nodeCount = 7 ∧ store.attributes 2 = [7] ∧ store.kind? 2 = some .element ∧
        store.firstChild? 2 = some 3 ∧ store.descendants 2 = [3, 4, 5] ∧
        (([3, 4, 5] : List NodeId).filter store.holdsText).flatMap
          (fun x => (store.content? x).getD []) = [0x78, 0x79] :=
    ⟨_, by cbv, by decide, by decide, by decide, by decide, by decide, by decide⟩
  have hstore : store.Reachable := .commit _ (.empty {}) hcommit
  obtain ⟨hvisits, -, -, hmem, -, hcontent⟩ := hstore.descendants_preorder 2
  rw [hdescendants] at hvisits hmem hcontent
  rw [hfirst] at hvisits
  exact ⟨store, hstore, hcount, hattributes, hvisits, hmem, (hcontent (.inr hkind)).trans htext⟩

end VersionedXml.Store
