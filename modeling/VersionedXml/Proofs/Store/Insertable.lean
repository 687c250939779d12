import VersionedXml.Proofs.NodeTable.Descent
import VersionedXml.Proofs.NodeTable.Extensionality
import VersionedXml.Proofs.Store.Applied

/-!
# Insertable children

A node may be inserted below another one if it is detached and the other one does not lie below it.
Here it is said what becomes of this condition when a child is attached or detached.  Attaching a
child puts the ancestors of its parent above all nodes of its subtree, and leaves the ancestors of
all others alone; that is all of the table that a later insertion looks at.
-/

namespace VersionedXml

namespace NodeTable

variable {table after : NodeTable} {parent child other sibling x y : NodeId}

/-! ## What the checks ask for -/

/-- A node that stands in lists of children, and is no document, may be a child. -/
theorem exists_canBeChild (hfamily : table.family? child = some .children)
    (hkind : table.kind? child ≠ some .document) :
    ∃ node, table.get? child = some node ∧ node.canBeChild = true := by
  obtain ⟨node, hnode, hnodeFamily⟩ := Option.map_eq_some_iff.mp hfamily
  refine ⟨node, hnode, (Node.canBeChild_iff node).mpr ⟨?_, ?_⟩⟩
  · intro hdocument
    exact hkind (by rw [kind?, hnode, Option.map_some, hdocument])
  · intro hattribute
    rw [Node.family, if_pos hattribute] at hnodeFamily
    cases hnodeFamily

theorem checkKinds_of_links? {node : Node} (hchild : table.get? child = some node)
    (hcan : node.canBeChild = true) (hlinks : ∃ links, table.links? .children parent = some links) :
    table.checkKinds parent child = .ok node := by
  obtain ⟨links, hlinks⟩ := hlinks
  obtain ⟨parentNode, hparent, hparentLinks⟩ := Option.bind_eq_some_iff.mp hlinks
  have howns : parentNode.canHaveChildren = true := by
    rw [Node.canHaveChildren, hparentLinks]
    rfl
  simp [checkKinds, find, hparent, hchild, hcan, howns]

/-- The check of an insertion asks for exactly what makes a node insertable. -/
theorem checkInsert_eq_ok_iff :
    table.checkInsert parent child = .ok () ↔ table.Insertable parent child := by
  refine ⟨insertable_of_checkInsert, fun hinsert => ?_⟩
  obtain ⟨node, hnode, hcan⟩ := exists_canBeChild hinsert.family hinsert.kind
  have hdetached : node.parent = none := by
    simpa [parent?, hnode] using hinsert.detached
  simp [checkInsert, checkKinds_of_links? hnode hcan hinsert.links, hdetached, hinsert.above]

theorem WellFormed.checkRemove_eq_ok_iff (hwf : table.WellFormed) :
    table.checkRemove parent child = .ok () ↔ child ∈ table.children parent := by
  refine ⟨mem_children_of_checkRemove, fun hchild => ?_⟩
  obtain ⟨hfamily, hparent⟩ := hwf.mem_members.mp hchild
  have hkind : table.kind? child ≠ some .document := fun hdocument => by
    cases (hwf.document hdocument).symm.trans hparent
  obtain ⟨node, hnode, hcan⟩ := exists_canBeChild hfamily hkind
  simp [checkRemove, checkKinds_of_links? hnode hcan (exists_links?_of_mem hchild), hchild]

/-! ## Lineages -/

theorem Relinked.lineage_eq {family : Family} {owner id : NodeId} {place : Option NodeId}
    {ids : List NodeId} (hmoved : Relinked table after family owner id place ids)
    (hwf : table.WellFormed) (hafter : after.WellFormed) (hx : table.contains x = true)
    (hnot : id ∉ table.lineage x) : after.lineage x = table.lineage x := by
  have hchain : Chain after.parent? (some x) (table.lineage x) none := by
    refine (hwf.lineage_chain hx).congr fun member hmember => ?_
    rw [hmoved.parent?, if_neg fun heq : member = id => hnot (heq ▸ hmember)]
  exact (hafter.lineage_chain ((hmoved.contains x).trans hx)).unique hchain

/-- A detached node is the topmost of those that it is above. -/
theorem WellFormed.lineage_eq_concat (hwf : table.WellFormed) (hx : table.contains x = true)
    (hdetached : table.parent? child = none) (hchild : child ∈ table.lineage x) :
    ∃ below, table.lineage x = below ++ [child] ∧ child ∉ below := by
  have hchain := hwf.lineage_chain hx
  obtain ⟨below, above, hsplit, hnot⟩ := List.eq_append_cons_of_mem hchild
  rw [hsplit] at hchain
  obtain ⟨middle, -, -, habove⟩ := Chain.append_iff.mp hchain
  rw [hdetached] at habove
  refine ⟨below, ?_, hnot⟩
  cases above with
  | nil => exact hsplit
  | cons first rest => cases habove.1

theorem WellFormed.notMem_lineage_of_mem_children (hwf : table.WellFormed)
    (hchild : child ∈ table.children parent) : child ∉ table.lineage parent := by
  have hlineage := hwf.lineage_eq_cons (hwf.parent?_of_isChild hchild)
  have hnodup := (hwf.lineage_chain (hwf.contains_of_mem hchild)).nodup
  rw [hlineage] at hnodup
  exact (List.nodup_cons.mp hnodup).1

/-! ## Attaching an insertable child -/

namespace Insertable

variable (hwf : table.WellFormed) (hinsert : table.Insertable parent child) (place : Place)
include hwf hinsert

theorem relinked : Relinked table (table.attach place .children parent child) .children parent child
    (some parent) (place.extend child (table.children parent)) := by
  obtain ⟨links, hlinks⟩ := hinsert.links
  exact attach_relinked hwf place hlinks (contains_of_family? hinsert.family) hinsert.detached

theorem wellFormed : (table.attach place .children parent child).WellFormed := by
  obtain ⟨links, hlinks⟩ := hinsert.links
  exact (attach_wellFormed hwf place hlinks hinsert.family hinsert.kind hinsert.detached
    hinsert.above).1

theorem members_eq (family : Family) (owner : NodeId) :
    (table.attach place .children parent child).members family owner =
      if family = .children ∧ owner = parent then place.extend child (table.children parent)
      else table.members family owner := by
  obtain ⟨links, hlinks⟩ := hinsert.links
  exact (attach_wellFormed hwf place hlinks hinsert.family hinsert.kind hinsert.detached
    hinsert.above).2 family owner

theorem children_eq : (table.attach place .children parent child).children parent =
    place.extend child (table.children parent) :=
  (hinsert.members_eq hwf place .children parent).trans (if_pos ⟨rfl, rfl⟩)

theorem mem_children : child ∈ (table.attach place .children parent child).children parent := by
  rw [hinsert.children_eq hwf place]
  exact Place.mem_extend.mpr (.inl rfl)

/-- Above the nodes of the child's subtree, the ancestors of the parent are added. -/
theorem lineage_eq_append (hx : table.contains x = true) (hchild : child ∈ table.lineage x) :
    (table.attach place .children parent child).lineage x =
      table.lineage x ++ table.lineage parent := by
  have hmoved := hinsert.relinked hwf place
  have hafter := hinsert.wellFormed hwf place
  obtain ⟨links, hlinks⟩ := hinsert.links
  have hparent := contains_of_links? hlinks
  obtain ⟨below, hlineage, hnot⟩ := hwf.lineage_eq_concat hx hinsert.detached hchild
  have hbefore := hwf.lineage_chain hx
  rw [hlineage] at hbefore
  obtain ⟨middle, hbelow, hmiddle, -⟩ := Chain.append_iff.mp hbefore
  subst hmiddle
  have haway : ∀ {ids : List NodeId}, child ∉ ids → ∀ member ∈ ids,
      (table.attach place .children parent child).parent? member = table.parent? member :=
    fun hnot member hmember => by
      rw [hmoved.parent?, if_neg fun heq : member = child => hnot (heq ▸ hmember)]
  -- the way up reaches the child as before, and goes on from there to the parent
  have hchain : Chain (table.attach place .children parent child).parent? (some x)
      (below ++ child :: table.lineage parent) none := by
    refine Chain.append_iff.mpr ⟨some child, hbelow.congr (haway hnot), rfl, ?_⟩
    rw [hmoved.parent?, if_pos rfl]
    exact (hwf.lineage_chain hparent).congr (haway hinsert.above)
  rw [hlineage, List.append_assoc]
  exact (hafter.lineage_chain ((hmoved.contains x).trans hx)).unique hchain

theorem mem_lineage_attach (hx : table.contains x = true) :
    y ∈ (table.attach place .children parent child).lineage x ↔
      y ∈ table.lineage x ∨ child ∈ table.lineage x ∧ y ∈ table.lineage parent := by
  by_cases hchild : child ∈ table.lineage x
  · rw [hinsert.lineage_eq_append hwf place hx hchild, List.mem_append, and_iff_right hchild]
  · rw [(hinsert.relinked hwf place).lineage_eq hwf (hinsert.wellFormed hwf place) hx hchild]
    simp [hchild]

/-- After an insertion, another node may be inserted if it could be before, unless each of the two
lies above the parent of the other, so that both insertions together would close a cycle. -/
theorem attach_iff (hne : sibling ≠ child) :
    (table.attach place .children parent child).Insertable other sibling ↔
      table.Insertable other sibling ∧
        ¬ (child ∈ table.lineage other ∧ sibling ∈ table.lineage parent) := by
  have hmoved := hinsert.relinked hwf place
  have hlinks : (∃ links, (table.attach place .children parent child).links? .children other =
      some links) ↔ ∃ links, table.links? .children other = some links := by
    by_cases hother : other = parent
    · obtain ⟨links, hlinks, -⟩ := hmoved.isList
      rw [hother]
      exact iff_of_true ⟨links, hlinks⟩ hinsert.links
    · rw [hmoved.links? .children other fun heq => hother heq.2]
  have hdetached : (table.attach place .children parent child).parent? sibling =
      table.parent? sibling := (hmoved.parent? sibling).trans (if_neg hne)
  have habove : ∀ links, table.links? .children other = some links →
      (sibling ∈ (table.attach place .children parent child).lineage other ↔
        sibling ∈ table.lineage other ∨
          child ∈ table.lineage other ∧ sibling ∈ table.lineage parent) :=
    fun links hlinks => hinsert.mem_lineage_attach hwf place (contains_of_links? hlinks)
  constructor
  · intro hsecond
    obtain ⟨links, howner⟩ := hlinks.mp hsecond.links
    have hnot := hsecond.above
    rw [habove links howner, not_or] at hnot
    exact ⟨⟨⟨links, howner⟩, hmoved.family? sibling ▸ hsecond.family,
      hmoved.kind? sibling ▸ hsecond.kind, hdetached ▸ hsecond.detached, hnot.1⟩, hnot.2⟩
  · rintro ⟨hsecond, hopen⟩
    obtain ⟨links, howner⟩ := hsecond.links
    refine ⟨hlinks.mpr hsecond.links, (hmoved.family? sibling).trans hsecond.family,
      hmoved.kind? sibling ▸ hsecond.kind, hdetached.trans hsecond.detached, ?_⟩
    rw [habove links howner, not_or]
    exact ⟨hsecond.above, hopen⟩

end Insertable

/-! ## Detaching a child -/

/-- A child that has been detached may be inserted again. -/
theorem WellFormed.insertable_detach (hwf : table.WellFormed)
    (hchild : child ∈ table.children parent) :
    (table.detach .children parent child).Insertable parent child := by
  have hmoved := detach_relinked hwf hchild
  have hafter := (detach_wellFormed hwf hchild).1
  obtain ⟨hfamily, hparent⟩ := hwf.mem_members.mp hchild
  obtain ⟨links, hlinks, -⟩ := hmoved.isList
  have habove := hwf.notMem_lineage_of_mem_children hchild
  refine ⟨⟨links, hlinks⟩, (hmoved.family? child).trans hfamily, ?_,
    (hmoved.parent? child).trans (if_pos rfl), ?_⟩
  · rw [hmoved.kind?]
    intro hdocument
    cases (hwf.document hdocument).symm.trans hparent
  · rw [hmoved.lineage_eq hwf hafter (hwf.contains_of_parent? hparent) habove]
    exact habove

end NodeTable

/-! ## Edits of children -/

def Edit.insertNode (place : Place) (parent child : NodeId) : Edit :=
  .insert place (.node parent) (.node child)

def Edit.removeNode (parent child : NodeId) : Edit :=
  .remove (.node parent) (.node child)

namespace Store

variable {store next : Store} {place : Place} {parent child : NodeId}

structure SameRecords (store next : Store) : Prop where
  table : next.table = store.table
  pool : next.pool = store.pool

def moved (store : Store) (edits : List Edit) (table : NodeTable) : Store :=
  { store.next with table := table, history := store.history ++ [edits] }

theorem bind_eq_ok_iff {α β : Type} {first : Except StoreError α} {next : α → Except StoreError β}
    {result : β} :
    first >>= next = .ok result ↔ ∃ middle, first = .ok middle ∧ next middle = .ok result := by
  refine ⟨bind_eq_ok, ?_⟩
  rintro ⟨middle, hfirst, hnext⟩
  rw [hfirst]
  exact hnext

/-- An insertion succeeds exactly if the child is insertable, and it changes the table only. -/
theorem apply_insertNode_eq_ok_iff :
    store.apply (.insertNode place parent child) = .ok next ↔
      store.table.Insertable parent child ∧
        { store with table := store.table.attach place .children parent child } = next := by
  have happly : store.apply (.insertNode place parent child) =
      store.insert place parent child := rfl
  rw [happly, insert, ← NodeTable.checkInsert_eq_ok_iff]
  cases store.table.checkInsert parent child <;> simp

/-- A removal succeeds exactly if the child is one, and it changes the table only. -/
theorem apply_removeNode_eq_ok_iff (hwf : store.table.WellFormed) :
    store.apply (.removeNode parent child) = .ok next ↔
      child ∈ store.table.children parent ∧
        { store with table := store.table.detach .children parent child } = next := by
  have happly : store.apply (.removeNode parent child) = store.remove parent child := rfl
  rw [happly, remove, ← hwf.checkRemove_eq_ok_iff]
  cases store.table.checkRemove parent child <;> simp

theorem commit_insertNode_eq_ok_iff :
    store.commit [.insertNode place parent child] = .ok next ↔
      store.table.Insertable parent child ∧
        store.moved [.insertNode place parent child]
          (store.table.attach place .children parent child) = next := by
  simp [commit, bind_eq_ok_iff, apply_insertNode_eq_ok_iff, moved, Store.next, pure, Except.pure]

end Store

end VersionedXml
