import VersionedXml.Proofs.NodeTable.WellFormed

/-!
# Tables with the same lists

The links of a well-formed table carry nothing that its lists do not tell.  A parent owns the list
in which its child stands, the node behind a node comes next in that list, and the ends and the
count are those of the list.  Two well-formed tables with the same labels and the same lists are
therefore equal, record for record, with no stale link left in any of them.
-/

namespace VersionedXml

namespace Node

theorem eq_of_views {node other : Node} (hlabel : other.label = node.label)
    (hparent : other.parent = node.parent) (hnext : other.next = node.next)
    (hlinks : ∀ family, other.links? family = node.links? family) : other = node := by
  obtain ⟨parent, next, data⟩ := node
  obtain ⟨otherParent, otherNext, otherData⟩ := other
  cases hparent
  cases hnext
  have hchildren := hlinks .children
  have hattributes := hlinks .attributes
  cases data <;> cases otherData <;> simp_all [label, kind, name?, value?, content?, links?]

theorem isSome_links?_of_kind {node other : Node} (hkind : other.kind = node.kind)
    (family : Family) : (other.links? family).isSome = (node.links? family).isSome := by
  obtain ⟨parent, next, data⟩ := node
  obtain ⟨otherParent, otherNext, otherData⟩ := other
  cases family <;> cases data <;> cases otherData <;> first | rfl | cases hkind

end Node

/-- What a member is linked to comes right behind it in the chain, and so two chains with the same
members link them alike. -/
theorem Chain.link_eq {link other : NodeId → Option NodeId} {start otherStart : Option NodeId}
    {ids : List NodeId} (hids : Chain link start ids none) (hother : Chain other otherStart ids none) :
    ∀ id ∈ ids, other id = link id := by
  induction ids generalizing start otherStart with
  | nil => exact fun id hid => absurd hid List.not_mem_nil
  | cons first rest ih =>
      obtain ⟨-, hrest⟩ := hids
      obtain ⟨-, hotherRest⟩ := hother
      intro id hid
      rcases List.mem_cons.mp hid with rfl | hid
      · exact hotherRest.head?_eq.symm.trans hrest.head?_eq
      · exact ih hrest hotherRest id hid

namespace NodeTable

variable {table after : NodeTable}

/-- Tables of the same size with the same nodes are equal. -/
theorem eq_of_get? (hsize : after.size = table.size) (hlt : table.size < UInt32.size)
    (hget : ∀ id, after.get? id = table.get? id) : after = table := by
  obtain ⟨nodes⟩ := table
  obtain ⟨afterNodes⟩ := after
  refine congrArg NodeTable.mk (Array.ext hsize fun index hafter hindex => ?_)
  have hnumber : (index + 1).toUInt32.toNat = index + 1 :=
    UInt32.toNat_ofNat_of_lt' (Nat.lt_of_le_of_lt hindex hlt)
  have hne : (index + 1).toUInt32 ≠ 0 := by
    intro hzero
    rw [hzero] at hnumber
    exact Nat.succ_ne_zero index hnumber.symm
  have hnode := hget (index + 1).toUInt32
  simp only [get?, if_neg hne, hnumber, Nat.add_sub_cancel] at hnode
  rw [Array.getElem?_eq_getElem hafter, Array.getElem?_eq_getElem hindex] at hnode
  exact Option.some.inj hnode

/-- Tables of the same size with the same views are equal. -/
theorem eq_of_views (hsize : after.size = table.size) (hlt : table.size < UInt32.size)
    (hlabel : ∀ id, after.label? id = table.label? id)
    (hparent : ∀ id, after.parent? id = table.parent? id)
    (hnext : ∀ id, after.next? id = table.next? id)
    (hlinks : ∀ family id, after.links? family id = table.links? family id) : after = table := by
  refine eq_of_get? hsize hlt fun id => ?_
  have hlabel := hlabel id
  have hparent := hparent id
  have hnext := hnext id
  have hlinks := fun family => hlinks family id
  unfold label? at hlabel
  unfold parent? at hparent
  unfold next? at hnext
  unfold links? at hlinks
  cases hnode : table.get? id with
  | none =>
      rw [hnode] at hlabel
      exact Option.map_eq_none_iff.mp hlabel
  | some node =>
      rw [hnode] at hlabel hparent hnext hlinks
      obtain ⟨other, hother, hsame⟩ := Option.map_eq_some_iff.mp hlabel
      rw [hother] at hparent hnext hlinks ⊢
      exact congrArg some (Node.eq_of_views hsame hparent hnext hlinks)

theorem IsList.eq {links others : Links} {ids : List NodeId} (hlist : table.IsList links ids)
    (hothers : after.IsList others ids) : others = links := by
  obtain ⟨first, last, count⟩ := links
  obtain ⟨otherFirst, otherLast, otherCount⟩ := others
  have hfirst : otherFirst = first := hothers.chain.head?_eq.symm.trans hlist.chain.head?_eq
  have hlast : otherLast = last := hothers.last.trans hlist.last.symm
  have hcount : otherCount = count :=
    UInt32.toNat_inj.mp (hothers.count.trans hlist.count.symm)
  rw [hfirst, hlast, hcount]

namespace WellFormed

section Lists

variable (hwf : table.WellFormed) (hafter : after.WellFormed)
  (hkind : ∀ id, after.kind? id = table.kind? id)
  (hmembers : ∀ family owner, after.members family owner = table.members family owner)
include hwf hafter hkind hmembers

/-- The parent of a node is the owner of the list in which it stands. -/
theorem parent?_eq_of_members (id : NodeId) : after.parent? id = table.parent? id := by
  have hfamily : after.family? id = table.family? id := by
    rw [family?_eq_kind?, family?_eq_kind?, hkind]
  cases hnode : table.family? id with
  | none =>
      have hnone : ∀ {other : NodeTable}, other.family? id = none → other.parent? id = none :=
        fun h => by rw [parent?, Option.map_eq_none_iff.mp h]; rfl
      rw [hnone hnode, hnone (hfamily.trans hnode)]
  | some family =>
      refine Option.ext fun owner => ?_
      have hbefore : id ∈ table.members family owner ↔ table.parent? id = some owner :=
        hwf.mem_members.trans (and_iff_right hnode)
      have hbehind : id ∈ after.members family owner ↔ after.parent? id = some owner :=
        hafter.mem_members.trans (and_iff_right (hfamily.trans hnode))
      rw [← hbehind, hmembers, hbefore]

/-- The node behind a node comes next in the list in which it stands. -/
theorem next?_eq_of_members (id : NodeId) : after.next? id = table.next? id := by
  have hparent := parent?_eq_of_members hwf hafter hkind hmembers id
  cases howner : table.parent? id with
  | none => rw [hwf.detached howner, hafter.detached (hparent.trans howner)]
  | some owner =>
      obtain ⟨node, hnode, -⟩ := Option.bind_eq_some_iff.mp howner
      have hfamily : table.family? id = some node.family := by rw [family?, hnode]; rfl
      have hmember := hwf.mem_members.mpr ⟨hfamily, howner⟩
      obtain ⟨links, hlinks⟩ := exists_links?_of_mem hmember
      obtain ⟨others, hothers⟩ := exists_links?_of_mem (hmembers node.family owner ▸ hmember)
      have hlist := hafter.isList hothers
      rw [hmembers] at hlist
      exact (hwf.isList hlinks).chain.link_eq hlist.chain id hmember

/-- The ends and the count are those of the list. -/
theorem links?_eq_of_members (family : Family) (owner : NodeId) :
    after.links? family owner = table.links? family owner := by
  have howns : (after.links? family owner).isSome = (table.links? family owner).isSome := by
    have hkind := hkind owner
    unfold kind? at hkind
    unfold links?
    cases hnode : table.get? owner with
    | none =>
        rw [hnode] at hkind
        rw [Option.map_eq_none_iff.mp hkind]
    | some node =>
        rw [hnode] at hkind
        obtain ⟨other, hother, hsame⟩ := Option.map_eq_some_iff.mp hkind
        rw [hother]
        exact Node.isSome_links?_of_kind hsame family
  cases hlinks : table.links? family owner with
  | none =>
      rw [hlinks] at howns
      exact Option.isNone_iff_eq_none.mp (Option.isSome_eq_false_iff.mp howns)
  | some links =>
      rw [hlinks] at howns
      obtain ⟨others, hothers⟩ := Option.isSome_iff_exists.mp howns
      have hlist := hafter.isList hothers
      rw [hmembers] at hlist
      rw [hothers, (hwf.isList hlinks).eq hlist]

end Lists

/-- A well-formed table is known by its labels and its lists. -/
theorem eq_of_members (hwf : table.WellFormed) (hafter : after.WellFormed)
    (hsize : after.size = table.size) (hlabel : ∀ id, after.label? id = table.label? id)
    (hmembers : ∀ family owner, after.members family owner = table.members family owner) :
    after = table := by
  have hkind : ∀ id, after.kind? id = table.kind? id := fun id => by
    rw [kind?_eq_label?, kind?_eq_label?, hlabel]
  exact eq_of_views hsize hwf.size_lt hlabel
    (parent?_eq_of_members hwf hafter hkind hmembers)
    (next?_eq_of_members hwf hafter hkind hmembers)
    (links?_eq_of_members hwf hafter hkind hmembers)

end WellFormed

end NodeTable

end VersionedXml
