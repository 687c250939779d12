import VersionedXml.Proofs.Path.DocumentOrder
import VersionedXml.Proofs.Store.Normalization

/-!
# The numbers of a parsed document

Reading a document creates its nodes in the order in which they stand there: an element when its tag
opens, its attributes right behind it, and then what lies inside.  So the listing of all that lies
below the root, with its attributes beside each element, is counted through without a gap, and no
node stands outside of it.  Whatever is listed in document order has increasing numbers.
-/

namespace VersionedXml

namespace NodeTable

variable {table : NodeTable} {id x : NodeId} {ids listing : List NodeId}

theorem members_of_leaf {kind : LeafKind} (hkind : table.kind? id = some (.leaf kind))
    (family : Family) : table.members family id = [] := by
  refine members_of_links?_eq_none ?_
  obtain ⟨node, hnode, hleaf⟩ := Option.map_eq_some_iff.mp hkind
  rw [links?, hnode]
  obtain ⟨parent, next, data⟩ := node
  cases data with
  | leaf => cases family <;> rfl
  | _ => cases hleaf

/-- The subtree of a listed node is a part of the listing. -/
theorem Preorder.sublist_of_mem (hwf : table.WellFormed) (hlisting : table.Preorder ids listing)
    (hx : x ∈ listing) : (x :: table.descendants x).Sublist listing := by
  induction hlisting with
  | nil => cases hx
  | @cons id rest inner behind hinner hrest ihInner ihRest =>
      rcases List.mem_cons.mp hx with rfl | hx
      · rw [hwf.descendants_eq hinner]
        exact (List.sublist_append_left inner behind).cons_cons x
      · refine List.Sublist.cons id ?_
        rcases List.mem_append.mp hx with hx | hx
        · exact (ihInner hx).trans (List.sublist_append_left inner behind)
        · exact (ihRest hx).trans (List.sublist_append_right inner behind)

end NodeTable

namespace Store

open VersionedXml.Tree

variable {store : Store} {forest : List Tree} {ids listing : List NodeId} {id x : NodeId}

def withAttributes (store : Store) (id : NodeId) : List NodeId :=
  id :: store.attributes id

theorem sublist_flatMap_withAttributes (store : Store) (ids : List NodeId) :
    ids.Sublist (ids.flatMap store.withAttributes) := by
  induction ids with
  | nil => exact List.nil_sublist _
  | cons id rest ih =>
      rw [List.flatMap_cons, withAttributes, List.cons_append]
      exact (ih.trans (List.sublist_append_right _ _)).cons_cons id

/-- The nodes of standing trees are listed from each node to those below it, with its attributes
beside each of them. -/
theorem Stands.exists_preorder (hstands : store.Stands forest ids listing) :
    ∃ nodes, store.table.Preorder ids nodes ∧ listing = nodes.flatMap store.withAttributes := by
  induction hstands with
  | nil => exact ⟨[], .nil, rfl⟩
  | @leaf kind content id rest ids listing hkind hcontent hrest ih =>
      obtain ⟨nodes, hnodes, rfl⟩ := ih
      have hnone := NodeTable.members_of_leaf (show store.table.kind? id = _ from hkind)
      have hinner : store.table.Preorder (store.table.children id) [] := by
        rw [NodeTable.children, hnone]
        exact .nil
      refine ⟨id :: ([] ++ nodes), .cons hinner hnodes, ?_⟩
      rw [List.nil_append, List.flatMap_cons, withAttributes, attributes, NodeTable.attributes,
        hnone]
      rfl
  | @element name pairs id inner rest ids below listing hkind hname hpairs hinner hrest ihInner
      ihRest =>
      obtain ⟨inside, hinside, rfl⟩ := ihInner
      obtain ⟨behind, hbehind, rfl⟩ := ihRest
      refine ⟨id :: (inside ++ behind), .cons hinside hbehind, ?_⟩
      rw [List.flatMap_cons, List.flatMap_append, withAttributes]
      simp

namespace Numbered

variable (hnumbered : store.Numbered forest listing)
include hnumbered

theorem flatMap_descendants :
    (store.descendants rootId).flatMap store.withAttributes = listing := by
  obtain ⟨nodes, hnodes, rfl⟩ := hnumbered.stands.exists_preorder
  rw [descendants, hnumbered.sound.wellFormed.descendants_eq hnodes]

theorem map_toNat : (rootId :: listing).map UInt32.toNat = List.range' 1 store.nodeCount := by
  rw [hnumbered.nodeCount]
  exact map_toNat_cons_rootId hnumbered.listing_eq

theorem pairwise_listing : (rootId :: listing).Pairwise (· < ·) := by
  have hincreasing : (List.range' 1 store.nodeCount).Pairwise (· < ·) := List.pairwise_lt_range' 1
  rw [← hnumbered.map_toNat, List.pairwise_map] at hincreasing
  exact hincreasing.imp UInt32.lt_iff_toNat_lt.mpr

theorem mem_listing_of_contains (hid : store.contains id = true) : id ∈ rootId :: listing := by
  obtain ⟨hne, hle⟩ := NodeTable.contains_iff.mp hid
  have hpos : id.toNat ≠ 0 := fun hzero => hne (UInt32.toNat_inj.mp hzero)
  have hmember : id.toNat ∈ (rootId :: listing).map UInt32.toNat := by
    rw [hnumbered.map_toNat]
    exact List.mem_range'_1.mpr ⟨Nat.pos_of_ne_zero hpos, Nat.lt_one_add_iff.mpr hle⟩
  obtain ⟨x, hx, hsame⟩ := List.mem_map.mp hmember
  exact UInt32.toNat_inj.mp hsame ▸ hx

theorem mem_descendants_or_attributes (hid : store.contains id = true) :
    id ∈ rootId :: store.descendants rootId ∨ ∃ element, id ∈ store.attributes element := by
  rcases List.mem_cons.mp (hnumbered.mem_listing_of_contains hid) with rfl | hlisted
  · exact .inl List.mem_cons_self
  · rw [← hnumbered.flatMap_descendants] at hlisted
    obtain ⟨x, hx, hmember⟩ := List.mem_flatMap.mp hlisted
    rcases List.mem_cons.mp hmember with rfl | hattribute
    · exact .inl (List.mem_cons_of_mem _ hx)
    · exact .inr ⟨x, hattribute⟩

theorem exists_parent? (hid : store.contains id = true) (hne : id ≠ rootId) :
    ∃ parent, store.parent? id = some parent := by
  rcases hnumbered.mem_descendants_or_attributes hid with hbelow | ⟨element, hattribute⟩
  · have hbelow := hnumbered.sound.mem_descendants.mp ((List.mem_cons.mp hbelow).resolve_left hne)
    exact Option.ne_none_iff_exists'.mp (hnumbered.sound.parent?_ne_of_transGen hbelow).2.1
  · exact ⟨element, (hnumbered.sound.mem_attributes.mp hattribute).2⟩

/-- The subtree of a document or an element is a part of the listing. -/
theorem sublist_listing (hkind : store.kind? id = some .document ∨ store.kind? id = some .element) :
    (id :: store.descendants id).Sublist (rootId :: listing) := by
  have hwf := hnumbered.sound.wellFormed
  have hroot : (store.descendants rootId).Sublist listing := by
    rw [← hnumbered.flatMap_descendants]
    exact sublist_flatMap_withAttributes store _
  obtain ⟨links, hlinks⟩ := NodeTable.exists_links?_children hkind
  have hid : store.contains id = true := NodeTable.contains_of_links? hlinks
  rcases hnumbered.mem_descendants_or_attributes hid with hlisted | ⟨element, hattribute⟩
  · rcases List.mem_cons.mp hlisted with rfl | hbelow
    · exact hroot.cons_cons rootId
    · have hsubtree := (hwf.preorder_descendants rootId).sublist_of_mem hwf hbelow
      exact (hsubtree.trans hroot).cons rootId
  · have hattributeKind := (hnumbered.sound.mem_attributes.mp hattribute).1
    rw [hattributeKind] at hkind
    rcases hkind with hkind | hkind <;> cases hkind

theorem pairwise_select (context : NodeId) (path : Path) :
    (store.select context path).Pairwise (· < ·) := by
  rcases select_cases store context path with hnone | ⟨steps, hcontext, -, hselect⟩
  · rw [hnone]
    exact .nil
  · rw [hselect]
    have hbelow := hnumbered.sublist_listing (isSome_links?_children_iff.mp hcontext)
    exact hnumbered.pairwise_listing.sublist
      ((hnumbered.sound.descend_sublist_cons steps context).trans hbelow)

end Numbered

/-- The store of a parsed document is numbered. -/
theorem numbered_of_parse {options : Options} {input : Buffer} (hsize : input.size < 2 ^ 32)
    (hparse : parse options input = .ok store) :
    ∃ forest listing, store.Numbered forest listing := by
  obtain ⟨entities, hscan, -, -⟩ := holds_of_parse hsize hparse
  obtain ⟨-, hlength, -⟩ := formed_ofEntities hscan options.whitespace
  have hpool := bytesUsed_internAll_texts_lt (Nat.lt_of_le_of_lt hlength hsize)
  have hresult : (scan options.limits.maxAttributes input).result = .ok entities := by
    rw [hscan]
    rfl
  rw [parse, hresult] at hparse
  rcases commit_outline_numbered options.limits input options.whitespace entities hpool with
    ⟨-, found, hfound, listing, hnumbered⟩ | ⟨-, herror⟩
  · simp only [hfound] at hparse
    cases hparse
    exact ⟨_, listing, hnumbered⟩
  · simp only [herror] at hparse
    cases hparse

/-- A parsed document is numbered in the order in which it is written.  The nodes below the root,
with the attributes of each element right behind it, have the identifiers from 2 up to the number of
nodes, one after the other.  So no node is left over, the nodes below the root are listed with
increasing identifiers, and so are the results of every query, whatever its context. -/
theorem parse_numbers {options : Options} {input : Buffer} (hsize : input.size < 2 ^ 32)
    (hparse : parse options input = .ok store) :
    ((store.descendants rootId).flatMap fun id => id :: store.attributes id).map UInt32.toNat =
        List.range' 2 (store.nodeCount - 1) ∧
      (∀ id, store.contains id = true → id ≠ rootId → ∃ parent, store.parent? id = some parent) ∧
      (store.descendants rootId).Pairwise (· < ·) ∧
      ∀ context expression ids, store.query context expression = .ok ids →
        ids.Pairwise (· < ·) := by
  obtain ⟨forest, listing, hnumbered⟩ := numbered_of_parse hsize hparse
  have hroot : store.kind? rootId = some .document := hnumbered.sound.wellFormed.root
  refine ⟨?_, fun id => hnumbered.exists_parent?, ?_, fun context expression ids hids => ?_⟩
  · have hlisting := hnumbered.flatMap_descendants
    unfold withAttributes at hlisting
    rw [hlisting, hnumbered.listing_eq, hnumbered.nodeCount, Nat.add_sub_cancel]
  · exact (hnumbered.pairwise_listing.sublist (hnumbered.sublist_listing (.inl hroot))).tail
  · cases hpath : Path.parse expression with
    | error failure =>
        rw [query, hpath] at hids
        cases hids
    | ok path =>
        rw [query, hpath] at hids
        cases hids
        exact hnumbered.pairwise_select context path

/-- The input `<a k='v' k='w' f><b c>t</a>u`, in which an attribute is repeated, the closing tag has
another name, and an element is never closed. -/
def unbalanced : Buffer :=
  #[0x3c, 0x61, 0x20, 0x6b, 0x3d, 0x27, 0x76, 0x27, 0x20, 0x6b, 0x3d, 0x27, 0x77, 0x27, 0x20, 0x66,
    0x3e, 0x3c, 0x62, 0x20, 0x63, 0x3e, 0x74, 0x3c, 0x2f, 0x61, 0x3e, 0x75]

theorem parse_numbers_unbalanced :
    ∃ store : Store, parse {} unbalanced = .ok store ∧
      store.trees rootId = [.element [0x61] [([0x6b], [0x77]), ([0x66], [])]
        [.element [0x62] [([0x63], [])] [.leaf .text [0x74]], .leaf .text [0x75]]] ∧
      ((store.descendants rootId).flatMap fun id => id :: store.attributes id).map UInt32.toNat =
        [2, 3, 4, 5, 6, 7, 8] ∧
      ∀ context expression ids, store.query context expression = .ok ids →
        ids.Pairwise (· < ·) := by
  obtain ⟨entities, hscan, htrees⟩ : ∃ entities, scan 4096 unbalanced = ⟨entities, none⟩ ∧
      Tree.ofEntities unbalanced .preserve entities =
        [.element [0x61] [([0x6b], [0x77]), ([0x66], [])]
          [.element [0x62] [([0x63], [])] [.leaf .text [0x74]], .leaf .text [0x75]]] :=
    ⟨_, by cbv, by cbv⟩
  obtain ⟨store, hparse, hholds⟩ : ∃ store, parse {} unbalanced = .ok store ∧
      store.Holds (Tree.ofEntities unbalanced .preserve entities) :=
    parse_eq_ok_of_scan hscan (by decide) (by rw [htrees]; decide)
  rw [htrees] at hholds
  obtain ⟨hnumbers, -, -, hquery⟩ := parse_numbers (by decide) hparse
  refine ⟨store, hparse, hholds.trees, hnumbers.trans ?_, hquery⟩
  rw [hholds.nodeCount]
  decide

end Store

end VersionedXml
