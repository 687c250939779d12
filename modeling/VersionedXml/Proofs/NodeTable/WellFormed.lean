import VersionedXml.Proofs.NodeTable.Views

/-!
# Well-formed tables

In a well-formed table every list is a chain of next siblings, a node stands in a list exactly if
its parent owns the list, and the parents of a node lead out of every tree.  All changes of lists
are of one kind: one node moves, and one list changes.  Such a change keeps a table well-formed, and
the lists of all other owners are what they were.
-/

namespace VersionedXml.NodeTable

/-- The list with the given ends and length consists of `ids`. -/
structure IsList (table : NodeTable) (links : Links) (ids : List NodeId) : Prop where
  chain : Chain table.next? links.first ids none
  last : links.last = ids.getLast?
  count : links.count.toNat = ids.length

/-- The representation invariant of tables. -/
structure WellFormed (table : NodeTable) : Prop where
  root : table.kind? rootId = some .document
  size_lt : table.size < UInt32.size
  /-- Every list runs from its first to its last member and is as long as it says. -/
  isList : ∀ {family : Family} {owner : NodeId} {links : Links},
    table.links? family owner = some links → table.IsList links (table.members family owner)
  /-- A node stands in a list exactly if the owner is its parent and the family is its own. -/
  mem_members : ∀ {family : Family} {owner id : NodeId},
    id ∈ table.members family owner ↔ table.family? id = some family ∧ table.parent? id = some owner
  document : ∀ {id : NodeId}, table.kind? id = some .document → table.parent? id = none
  detached : ∀ {id : NodeId}, table.parent? id = none → table.next? id = none
  /-- The parents of a node come to an end. -/
  acyclic : ∀ id : NodeId, ∃ ids, Chain table.parent? (some id) ids none

theorem members_of_links?_eq_none {table : NodeTable} {family : Family} {owner : NodeId}
    (hlinks : table.links? family owner = none) : table.members family owner = [] := by
  simp [members, hlinks]

theorem exists_links?_of_mem {table : NodeTable} {family : Family} {owner id : NodeId}
    (hid : id ∈ table.members family owner) :
    ∃ links, table.links? family owner = some links := by
  cases hlinks : table.links? family owner with
  | none =>
      rw [members_of_links?_eq_none hlinks] at hid
      cases hid
  | some links => exact ⟨links, rfl⟩

/-- A list whose members are nodes of the table is what a walk through it meets. -/
theorem members_eq {table : NodeTable} {family : Family} {owner : NodeId} {links : Links}
    {ids : List NodeId} (hlinks : table.links? family owner = some links)
    (hids : table.IsList links ids) (hlive : ∀ id ∈ ids, table.contains id = true) :
    table.members family owner = ids := by
  unfold members
  rw [hlinks]
  exact follow_eq hids.chain (length_le_size hids.chain.nodup hlive)

namespace WellFormed

variable {table after : NodeTable} {family : Family} {owner id : NodeId}

theorem contains_of_mem (hwf : table.WellFormed) (hid : id ∈ table.members family owner) :
    table.contains id = true :=
  contains_of_family? (hwf.mem_members.mp hid).1

theorem nodup_members (hwf : table.WellFormed) (family : Family) (owner : NodeId) :
    (table.members family owner).Nodup := by
  cases hlinks : table.links? family owner with
  | none =>
      rw [members_of_links?_eq_none hlinks]
      exact List.nodup_nil
  | some links => exact (hwf.isList hlinks).chain.nodup

theorem contains_of_parent? (hwf : table.WellFormed) (hparent : table.parent? id = some owner) :
    table.contains owner = true := by
  cases hnode : table.get? id with
  | none => simp [parent?, hnode] at hparent
  | some node =>
      have hid : id ∈ table.members node.family owner :=
        hwf.mem_members.mpr ⟨by simp [family?, hnode], hparent⟩
      obtain ⟨links, hlinks⟩ := exists_links?_of_mem hid
      exact contains_of_links? hlinks

theorem contains_of_chain (hwf : table.WellFormed) {start : Option NodeId} {ids : List NodeId}
    (hids : Chain table.parent? start ids none)
    (hstart : ∀ x, start = some x → table.contains x = true) :
    ∀ x ∈ ids, table.contains x = true := by
  induction ids generalizing start with
  | nil => exact fun x hx => absurd hx List.not_mem_nil
  | cons first rest ih =>
      obtain ⟨hfirst, hrest⟩ := hids
      intro x hx
      rcases List.mem_cons.mp hx with rfl | hx
      · exact hstart x hfirst
      · exact ih hrest (fun _ hparent => hwf.contains_of_parent? hparent) x hx

theorem lineage_chain (hwf : table.WellFormed) (hid : table.contains id = true) :
    Chain table.parent? (some id) (table.lineage id) none := by
  obtain ⟨ids, hids⟩ := hwf.acyclic id
  have hlength : ids.length ≤ table.size := by
    refine length_le_size hids.nodup (hwf.contains_of_chain hids ?_)
    intro x hx
    exact Option.some.inj hx ▸ hid
  have heq : table.lineage id = ids := follow_eq hids hlength
  exact heq ▸ hids

theorem contains_of_mem_lineage (hwf : table.WellFormed) (hid : table.contains id = true)
    {x : NodeId} (hx : x ∈ table.lineage id) : table.contains x = true := by
  refine hwf.contains_of_chain (hwf.lineage_chain hid) ?_ x hx
  intro y hy
  exact Option.some.inj hy ▸ hid

/-- Nothing depends on anything but the views. -/
theorem of_views (hwf : table.WellFormed) (hsize : after.size = table.size)
    (hkind : ∀ x, after.kind? x = table.kind? x)
    (hparent : ∀ x, after.parent? x = table.parent? x)
    (hnext : ∀ x, after.next? x = table.next? x)
    (hlinks : ∀ asked x, after.links? asked x = table.links? asked x) :
    after.WellFormed ∧ ∀ asked x, after.members asked x = table.members asked x := by
  have hfamily : ∀ x, after.family? x = table.family? x := by
    intro x
    rw [family?_eq_kind?, family?_eq_kind?, hkind]
  have hlist : ∀ {links : Links} {ids : List NodeId}, table.IsList links ids →
      after.IsList links ids := by
    intro links ids hids
    exact ⟨hids.chain.congr fun member _ => hnext member, hids.last, hids.count⟩
  have hmembers : ∀ asked x, after.members asked x = table.members asked x := by
    intro asked x
    cases hasked : table.links? asked x with
    | none =>
        rw [members_of_links?_eq_none hasked,
          members_of_links?_eq_none ((hlinks asked x).trans hasked)]
    | some links =>
        refine members_eq ((hlinks asked x).trans hasked) (hlist (hwf.isList hasked)) ?_
        intro member hmember
        rw [contains_eq_kind?, hkind, ← contains_eq_kind?]
        exact hwf.contains_of_mem hmember
  refine ⟨⟨(hkind rootId).trans hwf.root, hsize ▸ hwf.size_lt, ?_, ?_, ?_, ?_, ?_⟩, hmembers⟩
  · intro asked x links hasked
    rw [hmembers]
    exact hlist (hwf.isList ((hlinks asked x).symm.trans hasked))
  · intro asked x member
    rw [hmembers, hfamily, hparent]
    exact hwf.mem_members
  · intro x hx
    rw [hparent]
    exact hwf.document ((hkind x).symm.trans hx)
  · intro x hx
    rw [hnext]
    exact hwf.detached ((hparent x).symm.trans hx)
  · intro x
    obtain ⟨ids, hids⟩ := hwf.acyclic x
    exact ⟨ids, hids.congr fun member _ => hparent member⟩

end WellFormed

/-! ## Moving one node -/

/-- One node, `id`, has moved to `parent`, and one list, which is `ids` now, has changed. -/
structure Relinked (table after : NodeTable) (family : Family) (owner id : NodeId)
    (parent : Option NodeId) (ids : List NodeId) : Prop where
  size : after.size = table.size
  label? : ∀ x, after.label? x = table.label? x
  parent? : ∀ x, after.parent? x = if x = id then parent else table.parent? x
  next? : ∀ x, x ≠ id → x ∉ table.members family owner → after.next? x = table.next? x
  links? : ∀ asked x, ¬ (asked = family ∧ x = owner) →
    after.links? asked x = table.links? asked x
  isList : ∃ links, after.links? family owner = some links ∧ after.IsList links ids

/-- Cutting one node off its parent, or giving it one that does not lie below it, leaves no node
among its own ancestors. -/
theorem exists_chain_of_moved {link other : NodeId → Option NodeId} {id : NodeId}
    {lineage : List NodeId} (hlink : ∀ x, ∃ ids, Chain link (some x) ids none)
    (hsame : ∀ x, x ≠ id → other x = link x) (hlineage : Chain link (other id) lineage none)
    (hid : id ∉ lineage) (x : NodeId) : ∃ ids, Chain other (some x) ids none := by
  have haway : ∀ {ids : List NodeId}, id ∉ ids → ∀ member ∈ ids, other member = link member :=
    fun hnot member hmember => hsame member fun heq => hnot (heq ▸ hmember)
  obtain ⟨ids, hids⟩ := hlink x
  by_cases hmember : id ∈ ids
  · obtain ⟨left, right, rfl, hleft⟩ := List.eq_append_cons_of_mem hmember
    obtain ⟨middle, hbegin, hmiddle, -⟩ := Chain.append_iff.mp hids
    subst hmiddle
    refine ⟨left ++ id :: lineage, Chain.append_iff.mpr ⟨some id, ?_, rfl, ?_⟩⟩
    · exact hbegin.congr (haway hleft)
    · exact hlineage.congr (haway hid)
  · exact ⟨ids, hids.congr (haway hmember)⟩

namespace Relinked

variable {table after : NodeTable} {family : Family} {owner id : NodeId}
  {parent : Option NodeId} {ids : List NodeId}

theorem kind? (hmoved : Relinked table after family owner id parent ids) (x : NodeId) :
    after.kind? x = table.kind? x := by
  rw [kind?_eq_label?, kind?_eq_label?, hmoved.label?]

theorem family? (hmoved : Relinked table after family owner id parent ids) (x : NodeId) :
    after.family? x = table.family? x := by
  rw [family?_eq_kind?, family?_eq_kind?, hmoved.kind?]

theorem contains (hmoved : Relinked table after family owner id parent ids) (x : NodeId) :
    after.contains x = table.contains x := by
  rw [contains_eq_kind?, contains_eq_kind?, hmoved.kind?]

section Kept

variable (hmoved : Relinked table after family owner id parent ids) (hwf : table.WellFormed)
  (hfamily : table.family? id = some family)
  (hfrom : table.parent? id = none ∨ table.parent? id = some owner)
include hmoved hwf hfamily hfrom

/-- A list other than the changed one is a chain of nodes whose links have not changed. -/
theorem isList_of_ne {asked : Family} {x : NodeId} {links : Links}
    (hne : ¬ (asked = family ∧ x = owner)) (hlinks : table.links? asked x = some links) :
    after.IsList links (table.members asked x) := by
  have hlist := hwf.isList hlinks
  refine ⟨hlist.chain.congr ?_, hlist.last, hlist.count⟩
  intro member hmember
  obtain ⟨hasked, hx⟩ := hwf.mem_members.mp hmember
  refine hmoved.next? member ?_ ?_
  · rintro rfl
    have heq : asked = family := Option.some.inj (hasked.symm.trans hfamily)
    rcases hfrom with hnone | howner
    · cases hx.symm.trans hnone
    · exact hne ⟨heq, Option.some.inj (hx.symm.trans howner)⟩
  · intro hagain
    obtain ⟨hfamily', howner⟩ := hwf.mem_members.mp hagain
    exact hne ⟨Option.some.inj (hasked.symm.trans hfamily'),
      Option.some.inj (hx.symm.trans howner)⟩

variable (hids : ∀ x, x ∈ ids ↔
  (x = id ∧ parent = some owner) ∨ (x ≠ id ∧ x ∈ table.members family owner))
include hids

/-- Moving a node between its owner's list and nowhere changes that list, and no other list. -/
theorem members_eq (asked : Family) (x : NodeId) :
    after.members asked x =
      if asked = family ∧ x = owner then ids else table.members asked x := by
  split
  · rename_i heq
    obtain ⟨rfl, rfl⟩ := heq
    obtain ⟨links, hlinks, hlist⟩ := hmoved.isList
    refine NodeTable.members_eq hlinks hlist ?_
    intro member hmember
    rw [hmoved.contains]
    rcases (hids member).mp hmember with ⟨rfl, -⟩ | ⟨-, hold⟩
    · exact contains_of_family? hfamily
    · exact hwf.contains_of_mem hold
  · rename_i hne
    cases hlinks : table.links? asked x with
    | none =>
        rw [members_of_links?_eq_none hlinks,
          members_of_links?_eq_none ((hmoved.links? asked x hne).trans hlinks)]
    | some links =>
        refine NodeTable.members_eq ((hmoved.links? asked x hne).trans hlinks)
          (hmoved.isList_of_ne hwf hfamily hfrom hne hlinks) ?_
        intro member hmember
        rw [hmoved.contains]
        exact hwf.contains_of_mem hmember

variable (hto : parent = none ∨ parent = some owner)
include hto

/-- The moved node stands in the changed list or nowhere, and all others stand where they stood. -/
theorem mem_members {asked : Family} {x member : NodeId} :
    member ∈ after.members asked x ↔
      after.family? member = some asked ∧ after.parent? member = some x := by
  rw [hmoved.members_eq hwf hfamily hfrom hids, hmoved.family?, hmoved.parent?]
  by_cases hmember : member = id
  · subst hmember
    rw [if_pos rfl, hfamily]
    split
    · rename_i heq
      obtain ⟨rfl, rfl⟩ := heq
      simp [hids]
    · -- neither before nor after does the moved node stand in another list
      rename_i hne
      have haway : ∀ {other : Option NodeId}, other = none ∨ other = some owner →
          ¬ (some family = some asked ∧ other = some x) := by
        rintro other (rfl | rfl) ⟨hasked, hx⟩
        · cases hx
        · exact hne ⟨(Option.some.inj hasked).symm, (Option.some.inj hx).symm⟩
      rw [hwf.mem_members, hfamily]
      exact iff_of_false (haway hfrom) (haway hto)
  · rw [if_neg hmember, ← hwf.mem_members]
    split
    · rename_i heq
      obtain ⟨rfl, rfl⟩ := heq
      simp [hids, hmember]
    · exact Iff.rfl

/-- Moving a node between its owner's list and nowhere keeps a table well-formed. -/
theorem wellFormed (hkind : table.kind? id ≠ some .document)
    (hnext : parent = none → after.next? id = none)
    {lineage : List NodeId} (hlineage : Chain table.parent? parent lineage none)
    (hid : id ∉ lineage) : after.WellFormed := by
  refine ⟨(hmoved.kind? rootId).trans hwf.root, hmoved.size ▸ hwf.size_lt, ?_,
    hmoved.mem_members hwf hfamily hfrom hids hto, ?_, ?_, ?_⟩
  · intro asked x links hlinks
    rw [hmoved.members_eq hwf hfamily hfrom hids]
    split
    · rename_i heq
      obtain ⟨rfl, rfl⟩ := heq
      obtain ⟨found, hfound, hlist⟩ := hmoved.isList
      cases hfound.symm.trans hlinks
      exact hlist
    · rename_i hne
      exact hmoved.isList_of_ne hwf hfamily hfrom hne ((hmoved.links? asked x hne).symm.trans hlinks)
  · intro x hx
    rw [hmoved.kind?] at hx
    rw [hmoved.parent?]
    split
    · rename_i heq
      exact absurd (heq ▸ hx) hkind
    · exact hwf.document hx
  · intro x hx
    rw [hmoved.parent?] at hx
    split at hx
    · rename_i heq
      exact heq ▸ hnext hx
    · rename_i hne
      rw [hmoved.next? x hne, hwf.detached hx]
      intro hmember
      cases hx.symm.trans (hwf.mem_members.mp hmember).2
  · refine exists_chain_of_moved hwf.acyclic ?_ ?_ hid
    · intro x hx
      rw [hmoved.parent?, if_neg hx]
    · rw [hmoved.parent?, if_pos rfl]
      exact hlineage

end Kept

end Relinked

end VersionedXml.NodeTable
