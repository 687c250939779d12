import VersionedXml.Proofs.NodeTable.WellFormed

/-!
# Changes keep tables well-formed

Attaching a node at either end of a list and detaching one from any place move one node and change
one list.  What becomes of the list is said by the library: it is appended to, preceded by, or
erased from.
-/

namespace VersionedXml

/-- A list with one more member at the end that the place names. -/
def Place.extend (place : Place) (id : NodeId) (ids : List NodeId) : List NodeId :=
  match place with
  | .first => id :: ids
  | .last => ids ++ [id]

theorem Place.mem_extend {place : Place} {id x : NodeId} {ids : List NodeId} :
    x ∈ place.extend id ids ↔ x = id ∨ x ∈ ids := by
  cases place <;> simp [extend, or_comm]

namespace NodeTable

variable {table : NodeTable} {family : Family} {owner id : NodeId} {links : Links}

/-! ## Attaching -/

theorem WellFormed.notMem_members (hwf : table.WellFormed) (hdetached : table.parent? id = none) :
    id ∉ table.members family owner := by
  intro hmember
  cases hdetached.symm.trans (hwf.mem_members.mp hmember).2

/-- The root stands in no list, so every list has fewer members than there are nodes. -/
theorem WellFormed.length_members_lt_size (hwf : table.WellFormed) (family : Family)
    (owner : NodeId) : (table.members family owner).length < table.size := by
  have hroot : table.contains rootId = true := by
    rw [contains_eq_kind?, hwf.root]
    rfl
  have hnodup : (rootId :: table.members family owner).Nodup :=
    List.nodup_cons.mpr
      ⟨hwf.notMem_members (hwf.document hwf.root), hwf.nodup_members family owner⟩
  refine length_le_size hnodup ?_
  intro member hmember
  rcases List.mem_cons.mp hmember with rfl | hold
  · exact hroot
  · exact hwf.contains_of_mem hold

theorem WellFormed.count_lt_size (hwf : table.WellFormed)
    (hlinks : table.links? family owner = some links) : links.count.toNat < table.size := by
  rw [(hwf.isList hlinks).count]
  exact hwf.length_members_lt_size family owner

theorem WellFormed.toNat_count_succ (hwf : table.WellFormed)
    (hlinks : table.links? family owner = some links) :
    (links.count + 1).toNat = links.count.toNat + 1 := by
  have hcount := hwf.count_lt_size hlinks
  have hsize := hwf.size_lt
  rw [UInt32.toNat_add]
  exact Nat.mod_eq_of_lt (Nat.lt_of_le_of_lt hcount hsize)

theorem next?_attachLast (hwf : table.WellFormed)
    (hlinks : table.links? family owner = some links) (hid : table.contains id = true)
    (x : NodeId) :
    (table.attachLast family owner id).next? x =
      if x = id then none
      else if (table.members family owner).getLast? = some x then some id
      else table.next? x := by
  have hlast : (table.links? family owner).bind Links.last =
      (table.members family owner).getLast? := by
    rw [hlinks]
    exact (hwf.isList hlinks).last
  unfold attachLast
  simp only [hlast]
  rw [next?_modify_place _ _ _ (by simpa using hid), next?_modify?_setNext]
  · rw [next?_modify table owner _ (fun node => Node.next_mapLinks family _ node)]
  · intro member hmember
    rw [contains_modify]
    exact hwf.contains_of_mem (List.mem_of_getLast? hmember)

/-- Attaching a node last appends it to its list. -/
theorem attachLast_relinked (hwf : table.WellFormed)
    (hlinks : table.links? family owner = some links) (hid : table.contains id = true)
    (hdetached : table.parent? id = none) :
    Relinked table (table.attachLast family owner id) family owner id (some owner)
      (table.members family owner ++ [id]) := by
  have hlist := hwf.isList hlinks
  have hnot : id ∉ table.members family owner := hwf.notMem_members hdetached
  have hnext := next?_attachLast hwf hlinks hid
  refine ⟨by simp [attachLast], ?_, ?_, ?_, ?_, ⟨links.addLast id, ?_, ?_, ?_, ?_⟩⟩
  · intro x
    unfold attachLast
    rw [label?_modify _ _ _ (Node.label_place _ _), label?_modify?_setNext,
      label?_modify _ _ _ (Node.label_mapLinks _ _)]
  · intro x
    unfold attachLast
    rw [parent?_modify_place _ _ _ (by simpa using hid), parent?_modify?_setNext,
      parent?_modify _ _ _ (Node.parent_mapLinks _ _)]
  · intro x hx hmember
    rw [hnext, if_neg hx, if_neg fun hlast => hmember (List.mem_of_getLast? hlast)]
  · intro asked x hne
    unfold attachLast
    rw [links?_modify _ _ _ _ (Node.links?_place _ _ _), links?_modify?_setNext,
      links?_modify_mapLinks, if_neg hne]
  · unfold attachLast
    rw [links?_modify _ _ _ _ (Node.links?_place _ _ _), links?_modify?_setNext,
      links?_modify_mapLinks, if_pos ⟨rfl, rfl⟩, hlinks]
    rfl
  · refine hlist.chain.addLast ?_ ?_ ?_
    · intro last hlast
      have hne : last ≠ id := fun heq => hnot (heq ▸ List.mem_of_getLast? hlast)
      rw [hnext, if_neg hne, if_pos hlast]
    · intro member hmember hlast
      have hne : member ≠ id := fun heq => hnot (heq ▸ hmember)
      rw [hnext, if_neg hne, if_neg hlast]
    · rw [hnext, if_pos rfl]
  · simp [Links.addLast]
  · rw [List.length_append, ← hlist.count]
    exact hwf.toNat_count_succ hlinks

theorem next?_attachFirst (hlinks : table.links? family owner = some links)
    (hid : table.contains id = true) (x : NodeId) :
    (table.attachFirst family owner id).next? x =
      if x = id then links.first else table.next? x := by
  unfold attachFirst
  rw [next?_modify_place _ _ _ (by simpa using hid),
    next?_modify table owner _ (Node.next_mapLinks _ _), hlinks]
  rfl

/-- Attaching a node first puts it before its list. -/
theorem attachFirst_relinked (hwf : table.WellFormed)
    (hlinks : table.links? family owner = some links) (hid : table.contains id = true)
    (hdetached : table.parent? id = none) :
    Relinked table (table.attachFirst family owner id) family owner id (some owner)
      (id :: table.members family owner) := by
  have hlist := hwf.isList hlinks
  have hnot : id ∉ table.members family owner := hwf.notMem_members hdetached
  have hnext := next?_attachFirst hlinks hid
  refine ⟨by simp [attachFirst], ?_, ?_, ?_, ?_, ⟨links.addFirst id, ?_, ?_, ?_, ?_⟩⟩
  · intro x
    unfold attachFirst
    rw [label?_modify _ _ _ (Node.label_place _ _), label?_modify _ _ _ (Node.label_mapLinks _ _)]
  · intro x
    unfold attachFirst
    rw [parent?_modify_place _ _ _ (by simpa using hid),
      parent?_modify _ _ _ (Node.parent_mapLinks _ _)]
  · intro x hx _
    rw [hnext, if_neg hx]
  · intro asked x hne
    unfold attachFirst
    rw [links?_modify _ _ _ _ (Node.links?_place _ _ _), links?_modify_mapLinks, if_neg hne]
  · unfold attachFirst
    rw [links?_modify _ _ _ _ (Node.links?_place _ _ _), links?_modify_mapLinks,
      if_pos ⟨rfl, rfl⟩, hlinks]
    rfl
  · refine hlist.chain.addFirst ?_ ?_
    · rw [hnext, if_pos rfl]
    · intro member hmember
      have hne : member ≠ id := fun heq => hnot (heq ▸ hmember)
      rw [hnext, if_neg hne]
  · cases hmembers : table.members family owner with
    | nil => simp [Links.addFirst, hlist.last, hmembers]
    | cons first rest =>
        rw [List.getLast?_cons_cons]
        simp only [Links.addFirst, hlist.last, hmembers]
        cases hlast : (first :: rest).getLast? with
        | none => simp at hlast
        | some last => rfl
  · rw [List.length_cons, ← hlist.count]
    exact hwf.toNat_count_succ hlinks

/-- Attaching a node puts it at the end of its list that the place names. -/
theorem attach_relinked (hwf : table.WellFormed) (place : Place)
    (hlinks : table.links? family owner = some links) (hid : table.contains id = true)
    (hdetached : table.parent? id = none) :
    Relinked table (table.attach place family owner id) family owner id (some owner)
      (place.extend id (table.members family owner)) := by
  cases place with
  | first => exact attachFirst_relinked hwf hlinks hid hdetached
  | last => exact attachLast_relinked hwf hlinks hid hdetached

/-- Attaching a detached node to an owner that does not lie below it keeps a table well-formed, and
changes one list only. -/
theorem attach_wellFormed (hwf : table.WellFormed) (place : Place)
    (hlinks : table.links? family owner = some links) (hfamily : table.family? id = some family)
    (hkind : table.kind? id ≠ some .document) (hdetached : table.parent? id = none)
    (habove : id ∉ table.lineage owner) :
    (table.attach place family owner id).WellFormed ∧
      ∀ asked x, (table.attach place family owner id).members asked x =
        if asked = family ∧ x = owner then place.extend id (table.members family owner)
        else table.members asked x := by
  have hmoved := attach_relinked hwf place hlinks (contains_of_family? hfamily) hdetached
  have hnot : id ∉ table.members family owner := hwf.notMem_members hdetached
  have hids : ∀ x, x ∈ place.extend id (table.members family owner) ↔
      (x = id ∧ some owner = some owner) ∨ (x ≠ id ∧ x ∈ table.members family owner) := by
    intro x
    rw [Place.mem_extend]
    by_cases hx : x = id
    · simp [hx]
    · simp [hx]
  have hlineage := hwf.lineage_chain (contains_of_links? hlinks)
  exact ⟨hmoved.wellFormed hwf hfamily (.inl hdetached) hids (.inr rfl) hkind
      (fun hnone => by cases hnone) hlineage habove,
    hmoved.members_eq hwf hfamily (.inl hdetached) hids⟩

/-! ## Detaching -/

theorem next?_detach (hwf : table.WellFormed) (hid : id ∈ table.members family owner)
    (x : NodeId) :
    (table.detach family owner id).next? x =
      if x = id then none
      else if before? id (table.members family owner) = some x then table.next? id
      else table.next? x := by
  unfold detach
  rw [next?_modify_place _ _ _ (by simpa using hwf.contains_of_mem hid),
    next?_modify _ _ _ (Node.next_mapLinks _ _), next?_modify?_setNext]
  · rfl
  · intro previous hprevious
    exact hwf.contains_of_mem (mem_of_before? hid hprevious).1

/-- The last member of a list from which one node has been erased. -/
theorem getLast?_erase {ids : List NodeId} (hnodup : ids.Nodup) (hid : id ∈ ids) :
    (ids.erase id).getLast? =
      if ids.getLast? = some id then before? id ids else ids.getLast? := by
  obtain ⟨left, right, rfl, hleft⟩ := List.eq_append_cons_of_mem hid
  have hright : id ∉ right := (List.nodup_cons.mp (List.nodup_append.mp hnodup).2.1).1
  rw [List.erase_append_right _ hleft, List.erase_cons_head, before?_append hleft]
  rcases List.eq_nil_or_concat right with rfl | ⟨front, last, rfl⟩
  · simp
  · have hne : last ≠ id := by
      rintro rfl
      exact hright (by simp)
    have hlast : (left ++ id :: front.concat last).getLast? = some last := by
      rw [List.concat_eq_append, ← List.cons_append, ← List.append_assoc, List.getLast?_concat]
    rw [hlast, if_neg fun heq => hne (Option.some.inj heq), List.concat_eq_append,
      ← List.append_assoc, List.getLast?_concat]

/-- Detaching a node erases it from its list. -/
theorem detach_relinked (hwf : table.WellFormed) (hid : id ∈ table.members family owner) :
    Relinked table (table.detach family owner id) family owner id none
      ((table.members family owner).erase id) := by
  obtain ⟨links, hlinks⟩ := exists_links?_of_mem hid
  have hlist := hwf.isList hlinks
  have hnext := next?_detach hwf hid
  have hlive := hwf.contains_of_mem hid
  refine ⟨by simp [detach], ?_, ?_, ?_, ?_,
    ⟨links.drop id (before? id (table.members family owner)) (table.next? id), ?_, ?_, ?_, ?_⟩⟩
  · intro x
    unfold detach
    rw [label?_modify _ _ _ (Node.label_place _ _), label?_modify _ _ _ (Node.label_mapLinks _ _),
      label?_modify?_setNext]
  · intro x
    unfold detach
    rw [parent?_modify_place _ _ _ (by simpa using hlive),
      parent?_modify _ _ _ (Node.parent_mapLinks _ _), parent?_modify?_setNext]
  · intro x hx hmember
    rw [hnext, if_neg hx, if_neg]
    exact fun hbefore => hmember (mem_of_before? hid hbefore).1
  · intro asked x hne
    unfold detach
    rw [links?_modify _ _ _ _ (Node.links?_place _ _ _), links?_modify_mapLinks, if_neg hne,
      links?_modify?_setNext]
  · unfold detach
    rw [links?_modify _ _ _ _ (Node.links?_place _ _ _), links?_modify_mapLinks,
      if_pos ⟨rfl, rfl⟩, links?_modify?_setNext, hlinks]
    rfl
  · refine hlist.chain.erase hid ?_ ?_
    · intro previous hprevious
      rw [hnext, if_neg (mem_of_before? hid hprevious).2, if_pos hprevious]
    · intro member _ hne hbefore
      rw [hnext, if_neg hne, if_neg hbefore]
  · rw [getLast?_erase hlist.chain.nodup hid, ← hlist.last]
    rfl
  · have hcount := hlist.count
    have hpos := List.length_pos_of_mem hid
    have hle : (1 : UInt32) ≤ links.count := by
      rw [UInt32.le_iff_toNat_le, hcount]
      exact hpos
    rw [List.length_erase_of_mem hid, ← hcount]
    exact UInt32.toNat_sub_of_le _ _ hle

/-- Detaching a node keeps a table well-formed, and changes one list only. -/
theorem detach_wellFormed (hwf : table.WellFormed) (hid : id ∈ table.members family owner) :
    (table.detach family owner id).WellFormed ∧
      ∀ asked x, (table.detach family owner id).members asked x =
        if asked = family ∧ x = owner then (table.members family owner).erase id
        else table.members asked x := by
  have hmoved := detach_relinked hwf hid
  obtain ⟨hfamily, hparent⟩ := hwf.mem_members.mp hid
  have hkind : table.kind? id ≠ some .document := by
    intro hdocument
    cases (hwf.document hdocument).symm.trans hparent
  have hids : ∀ x, x ∈ (table.members family owner).erase id ↔
      (x = id ∧ none = some owner) ∨ (x ≠ id ∧ x ∈ table.members family owner) := by
    intro x
    rw [(hwf.nodup_members family owner).mem_erase_iff]
    simp
  have hnext : (table.detach family owner id).next? id = none := by
    rw [next?_detach hwf hid, if_pos rfl]
  exact ⟨hmoved.wellFormed hwf hfamily (.inr hparent) hids (.inl rfl) hkind (fun _ => hnext)
      (show Chain table.parent? none [] none from rfl) List.not_mem_nil,
    hmoved.members_eq hwf hfamily (.inr hparent) hids⟩

/-! ## Other changes -/

theorem setValue_wellFormed (hwf : table.WellFormed) (id : NodeId) (value : StrId) :
    (table.modify id (Node.setValue value)).WellFormed ∧
      ∀ asked x, (table.modify id (Node.setValue value)).members asked x =
        table.members asked x :=
  hwf.of_views (size_modify table id _) (kind?_modify table id _ (Node.kind_setValue value))
    (parent?_modify table id _ (Node.parent_setValue value))
    (next?_modify table id _ (Node.next_setValue value))
    fun asked => links?_modify table id _ asked (Node.links?_setValue asked value)

/-- A node as it is created: it has no place, and its lists are empty. -/
structure IsFresh (node : Node) : Prop where
  parent : node.parent = none
  next : node.next = none
  links : ∀ {family : Family} {links : Links}, node.links? family = some links → links = {}

theorem isList_empty (table : NodeTable) : table.IsList {} [] :=
  ⟨rfl, rfl, rfl⟩

theorem isList_push {node : Node} (hfresh : IsFresh node) (hsize : table.size + 1 < UInt32.size)
    {ids : List NodeId} (hids : table.IsList links ids) : (table.push node).IsList links ids :=
  ⟨hids.chain.congr fun member _ => next?_push hsize hfresh.next member, hids.last, hids.count⟩

section Push

variable {node : Node} (hwf : table.WellFormed) (hfresh : IsFresh node)
  (hsize : table.size + 1 < UInt32.size)
include hwf hfresh hsize

/-- A new node changes no list, and its own lists are empty. -/
theorem members_push (asked : Family) (x : NodeId) :
    (table.push node).members asked x = table.members asked x := by
  have hlinks := links?_push hsize node asked x
  by_cases hx : x = table.freshId
  · rw [if_pos hx] at hlinks
    have hnone : table.links? asked x = none := by
      rw [hx, links?, get?_freshId hsize]
      rfl
    rw [members_of_links?_eq_none hnone]
    cases hnode : node.links? asked with
    | none => exact members_of_links?_eq_none (hlinks.trans hnode)
    | some links =>
        cases hfresh.links hnode
        exact members_eq (hlinks.trans hnode) (isList_empty _)
          fun _ hmember => absurd hmember List.not_mem_nil
  · rw [if_neg hx] at hlinks
    cases hold : table.links? asked x with
    | none => rw [members_of_links?_eq_none hold, members_of_links?_eq_none (hlinks.trans hold)]
    | some links =>
        refine members_eq (hlinks.trans hold) (isList_push hfresh hsize (hwf.isList hold)) ?_
        intro member hmember
        have hlive := hwf.contains_of_mem hmember
        rw [contains_eq_kind?, kind?_push hsize, if_neg (ne_freshId hsize hlive),
          ← contains_eq_kind?]
        exact hlive

/-- A new node, which stands nowhere, keeps a table well-formed. -/
theorem push_wellFormed : (table.push node).WellFormed := by
  have hmembers := members_push hwf hfresh hsize
  have hparent := parent?_push hsize hfresh.parent
  have hnone : table.parent? table.freshId = none := by
    rw [parent?, get?_freshId hsize]
    rfl
  refine ⟨?_, by simpa using hsize, ?_, ?_, ?_, ?_, ?_⟩
  · have hroot : table.contains rootId = true := by
      rw [contains_eq_kind?, hwf.root]
      rfl
    rw [kind?_push hsize, if_neg (ne_freshId hsize hroot)]
    exact hwf.root
  · intro asked x found hfound
    rw [hmembers]
    rw [links?_push hsize] at hfound
    split at hfound
    · rename_i hx
      have hnolinks : table.links? asked x = none := by
        rw [hx, links?, get?_freshId hsize]
        rfl
      rw [hfresh.links hfound, members_of_links?_eq_none hnolinks]
      exact isList_empty _
    · exact isList_push hfresh hsize (hwf.isList hfound)
  · intro asked x member
    rw [hmembers, hparent, hwf.mem_members]
    by_cases hmember : member = table.freshId
    · simp [hmember, hnone]
    · rw [family?_eq_kind?, family?_eq_kind?, kind?_push hsize, if_neg hmember]
  · intro x hx
    rw [hparent]
    rw [kind?_push hsize] at hx
    split at hx
    · rename_i heq
      exact heq ▸ hnone
    · exact hwf.document hx
  · intro x hx
    rw [next?_push hsize hfresh.next]
    exact hwf.detached ((hparent x).symm.trans hx)
  · intro x
    obtain ⟨ids, hids⟩ := hwf.acyclic x
    exact ⟨ids, hids.congr fun member _ => hparent member⟩

theorem freshId_notMem_lineage {id : NodeId} (hid : table.contains id = true) :
    table.freshId ∉ (table.push node).lineage id := by
  have hlive : (table.push node).contains id = true := by
    rw [contains_eq_kind?, kind?_push hsize, if_neg (ne_freshId hsize hid), ← contains_eq_kind?]
    exact hid
  have hchain : Chain table.parent? (some id) ((table.push node).lineage id) none :=
    ((push_wellFormed hwf hfresh hsize).lineage_chain hlive).congr
      fun member _ => (parent?_push hsize hfresh.parent member).symm
  rw [hchain.unique (hwf.lineage_chain hid)]
  intro hmember
  exact ne_freshId hsize (hwf.contains_of_mem_lineage hid hmember) rfl

end Push

/-! ## The initial table -/

/-- The root is the only node of the initial table. -/
theorem get?_initial (x : NodeId) :
    initial.get? x = if x = rootId then some { data := .document {} } else none := by
  unfold get? initial sized rootId
  by_cases hzero : x = 0
  · simp [hzero]
  · have hpos : x.toNat ≠ 0 := fun h => hzero (UInt32.toNat_inj.mp (by simpa using h))
    by_cases hone : x = 1
    · simp [hone]
    · have hgreater : x.toNat - 1 ≠ 0 := by
        intro h
        exact hone (UInt32.toNat_inj.mp (by simpa using (by omega : x.toNat = 1)))
      simp only [hzero, hone, if_false]
      rw [Array.getElem?_eq_none_iff, Array.size_push]
      simp only [Array.emptyWithCapacity_eq, List.size_toArray, List.length_nil]
      omega

theorem links?_initial {asked : Family} {x : NodeId} (h : initial.links? asked x = some links) :
    links = {} := by
  rw [links?, get?_initial] at h
  split at h
  · cases asked
    · exact (Option.some.inj h).symm
    · cases h
  · cases h

theorem members_initial (asked : Family) (x : NodeId) : initial.members asked x = [] := by
  cases h : initial.links? asked x with
  | none => exact members_of_links?_eq_none h
  | some links =>
      cases links?_initial h
      exact members_eq h (isList_empty initial) fun _ hmember => absurd hmember List.not_mem_nil

/-- The table of an empty store is well-formed. -/
theorem initial_wellFormed : initial.WellFormed := by
  have hparent : ∀ x, initial.parent? x = none := by
    intro x
    rw [parent?, get?_initial]
    split <;> rfl
  refine ⟨rfl, by decide, ?_, ?_, ?_, ?_, ?_⟩
  · intro asked x links h
    rw [members_initial, links?_initial h]
    exact isList_empty initial
  · intro asked x member
    simp [members_initial, hparent]
  · exact fun _ => hparent _
  · intro x _
    rw [next?, get?_initial]
    split <;> rfl
  · intro x
    exact ⟨[x], rfl, hparent x⟩

end NodeTable

end VersionedXml
