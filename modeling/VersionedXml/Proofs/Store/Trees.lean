import VersionedXml.Proofs.Store.Descendants
import VersionedXml.Proofs.Store.Numbering

/-!
# The trees of any store

Trees are read from a store to a bounded depth.  In a reachable store, whatever edits have made it,
the bound is never met: trees stand below every node, and they are the ones that are read.  So the
tree at an element has the trees below it as its children, the markup that the store writes is that
of its trees, and the text of a node is the text of the trees below it.
-/

namespace VersionedXml.Store

open VersionedXml.Tree

variable {store : Store} {forest : List Tree} {ids nodes listing : List NodeId} {id : NodeId}

theorem Stands.nodeCountAll_le (hstands : store.Stands forest ids listing) :
    nodeCountAll forest ≤ listing.length := by
  induction hstands with
  | nil => exact Nat.le_refl 0
  | leaf _ _ _ ih =>
      simp only [nodeCountAll, Tree.nodeCount, List.length_cons]
      omega
  | @element name pairs id inner rest ids below listing _ _ hpairs _ _ ihInner ihRest =>
      have hlength : pairs.length ≤ (store.attributes id).length :=
        hpairs ▸ List.length_filterMap_le _ _
      simp only [nodeCountAll, Tree.nodeCount, List.length_cons, List.length_append]
      omega

namespace Sound

variable (hstore : store.Sound)
include hstore

/-! ## Text -/

theorem flatMap_ownText_attributes (element : NodeId) :
    (store.attributes element).flatMap store.ownText = [] := by
  refine List.flatMap_eq_nil_iff.mpr fun id hid => ?_
  rw [ownText, (hstore.mem_attributes.mp hid).1]

theorem flatMap_ownText_withAttributes (ids : List NodeId) :
    (ids.flatMap store.withAttributes).flatMap store.ownText = ids.flatMap store.ownText := by
  rw [List.flatMap_assoc]
  refine List.flatMap_congr fun id _ => ?_
  rw [withAttributes, List.flatMap_cons, hstore.flatMap_ownText_attributes, List.append_nil]

theorem flatMap_ownText_of_stands (hstands : store.Stands forest ids listing) :
    listing.flatMap store.ownText = textAll forest := by
  induction hstands with
  | nil => rfl
  | leaf hkind hcontent _ ih =>
      rw [List.flatMap_cons, ih, ownText, hkind, textAll, Tree.text]
      simp only [hcontent]
  | element hkind _ _ _ _ ihInner ihRest =>
      rw [List.flatMap_cons, List.flatMap_append, List.flatMap_append,
        hstore.flatMap_ownText_attributes, ihInner, ihRest, ownText, hkind, textAll, Tree.text]
      rfl

/-! ## Trees stand everywhere -/

/-- At elements and leaves there stand trees. -/
theorem exists_stands (hnodes : store.table.Preorder ids nodes)
    (hkinds : ∀ id ∈ ids,
      store.kind? id = some .element ∨ ∃ kind, store.kind? id = some (.leaf kind)) :
    ∃ forest, store.Stands forest ids (nodes.flatMap store.withAttributes) := by
  induction hnodes with
  | nil => exact ⟨[], .nil⟩
  | @cons id rest inner behind hinner _ ihInner ihRest =>
      obtain ⟨others, hothers⟩ := ihRest fun other hother =>
        hkinds other (List.mem_cons_of_mem id hother)
      rw [List.flatMap_cons, List.flatMap_append, withAttributes, List.cons_append,
        ← List.append_assoc]
      rcases hkinds id List.mem_cons_self with helement | ⟨kind, hleaf⟩
      · obtain ⟨below, hbelow⟩ := ihInner fun child hchild => hstore.kind_of_mem_children hchild
        exact ⟨_, .element helement rfl rfl hbelow hothers⟩
      · have hnone := NodeTable.members_of_leaf (show store.table.kind? id = _ from hleaf)
        have hattributes : store.attributes id = [] := hnone .attributes
        rw [NodeTable.children, hnone] at hinner
        cases hinner
        rw [hattributes]
        exact ⟨_, .leaf hleaf rfl hothers⟩

/-- Nodes are listed with their attributes without repetition. -/
theorem nodup_flatMap_withAttributes (hids : ids.Nodup)
    (hkinds : ∀ id ∈ ids, store.kind? id ≠ some .attribute) :
    (ids.flatMap store.withAttributes).Nodup := by
  refine List.nodup_flatMap.mpr ⟨fun id hid => ?_, hids.pairwise_of_forall_ne ?_⟩
  · have hself : id ∉ store.attributes id :=
      fun hattribute => hkinds id hid (hstore.mem_attributes.mp hattribute).1
    exact List.nodup_cons.mpr ⟨hself, hstore.wellFormed.nodup_members .attributes id⟩
  · intro first hfirst second hsecond hne x hx hagain
    rcases List.mem_cons.mp hx with rfl | hx
    · rcases List.mem_cons.mp hagain with rfl | hagain
      · exact hne rfl
      · exact hkinds x hfirst (hstore.mem_attributes.mp hagain).1
    · obtain ⟨hkind, hparent⟩ := hstore.mem_attributes.mp hx
      rcases List.mem_cons.mp hagain with rfl | hagain
      · exact hkinds x hsecond hkind
      · have hother := (hstore.mem_attributes.mp hagain).2
        exact hne (Option.some.inj (hparent.symm.trans hother))

section

variable (hkind : store.kind? id = some .document ∨ store.kind? id = some .element)
include hkind

/-- A store has more nodes than lie below one node. -/
theorem length_withAttributes_lt :
    ((store.descendants id).flatMap store.withAttributes).length < store.nodeCount := by
  obtain ⟨links, hlinks⟩ := NodeTable.exists_links?_children hkind
  have hself : id ∉ store.descendants id := fun hbelow =>
    (hstore.parent?_ne_of_transGen (hstore.mem_descendants.mp hbelow)).1 rfl
  have hkinds : ∀ x ∈ id :: store.descendants id, store.kind? x ≠ some .attribute := by
    intro x hx
    rcases List.mem_cons.mp hx with rfl | hbelow
    · rcases hkind with hkind | hkind <;> rw [hkind] <;> nofun
    · exact (hstore.transGen_isChild_iff.mp (hstore.mem_descendants.mp hbelow)).1
  have hnodup := hstore.nodup_flatMap_withAttributes
    (List.nodup_cons.mpr ⟨hself, hstore.nodup_descendants id⟩) hkinds
  have hlive : ∀ x ∈ (id :: store.descendants id).flatMap store.withAttributes,
      store.table.contains x = true := by
    intro x hx
    obtain ⟨owner, howner, hx⟩ := List.mem_flatMap.mp hx
    rcases List.mem_cons.mp hx with rfl | hattribute
    · rcases List.mem_cons.mp howner with rfl | hbelow
      · exact NodeTable.contains_of_links? hlinks
      · obtain ⟨parent, -, hchild⟩ :=
          Relation.TransGen.tail'_iff.mp (hstore.mem_descendants.mp hbelow)
        exact hstore.wellFormed.contains_of_mem hchild
    · exact hstore.wellFormed.contains_of_mem hattribute
  have hlength : _ ≤ store.nodeCount := NodeTable.length_le_size hnodup hlive
  rw [List.flatMap_cons, withAttributes, List.length_append, List.length_cons] at hlength
  omega

theorem trees_stand : store.Stands (store.trees id) (store.children id)
    ((store.descendants id).flatMap store.withAttributes) := by
  obtain ⟨forest, hforest⟩ := hstore.exists_stands (hstore.wellFormed.preorder_descendants id)
    fun _ => hstore.kind_of_mem_children
  rwa [hforest.trees_eq (Nat.le_of_lt (hstore.length_withAttributes_lt hkind))]

end

end Sound

namespace Reachable

variable (hstore : store.Reachable)
include hstore

/-- The tree at an element has the trees below the element as its children, at whatever depth. -/
theorem tree?_of_element (hkind : store.kind? id = some .element) :
    store.tree? id = some (.element ((store.name? id).getD []) (store.attributePairs id)
      (store.trees id)) := by
  have hlength := hstore.sound.length_withAttributes_lt (.inr hkind)
  have hstands := hstore.sound.trees_stand (.inr hkind)
  obtain ⟨depth, hdepth⟩ := Nat.exists_eq_succ_of_ne_zero (Nat.ne_zero_of_lt hlength)
  rw [hdepth] at hlength
  rw [tree?, hdepth, treeTo?, hkind]
  simp only [hstands.filterMap_treeTo? (Nat.le_of_lt_succ hlength)]

/-- A store writes the markup of its trees, which have no more nodes than the store. -/
theorem render_eq_renderAll_trees :
    store.render = (renderAll (store.trees rootId)).toArray ∧
      nodeCountAll (store.trees rootId) < store.nodeCount := by
  have hroot : store.kind? rootId = some .document := hstore.sound.wellFormed.root
  have hstands := hstore.sound.trees_stand (.inl hroot)
  exact ⟨hstands.render_eq hstore.sound, Nat.lt_of_le_of_lt hstands.nodeCountAll_le
    (hstore.sound.length_withAttributes_lt (.inl hroot))⟩

/-- The text of a document or of an element is that of the trees below it. -/
theorem textContent_eq_textAll_trees
    (hkind : store.kind? id = some .document ∨ store.kind? id = some .element) :
    store.textContent id = textAll (store.trees id) := by
  have hwalk : store.textContent id = (store.descendants id).flatMap store.ownText := by
    rw [textContent]
    rcases hkind with hkind | hkind <;> rw [hkind]
  rw [hwalk, ← hstore.sound.flatMap_ownText_withAttributes]
  exact hstore.sound.flatMap_ownText_of_stands (hstore.sound.trees_stand hkind)

end Reachable

end VersionedXml.Store
