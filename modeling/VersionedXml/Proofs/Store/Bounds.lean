import VersionedXml.Proofs.Store.Consistency

/-!
# Stores stay in bounds

Nodes and the members of lists are counted in 32 bits, and links are followed without asking whether
they lead anywhere.  The limit of a store keeps one number spare, and the members of a list are
nodes other than the root.  So no count wraps, whatever has been committed before and whatever the
batch in progress has done, and no link that is followed leads out of the table.
-/

namespace VersionedXml

namespace NodeTable

variable {table : NodeTable} {family : Family} {owner id : NodeId} {links : Links}

def WalksThrough (table : NodeTable) (link : NodeId → Option NodeId) (start : Option NodeId)
    (ids : List NodeId) : Prop :=
  Chain link start ids none ∧ ∀ id ∈ ids, table.contains id = true

/-- A list can do without a member: it counts at least one, so that it counts one less without it,
and its owner, the member, and what stands right before the member are nodes. -/
structure Detachable (table : NodeTable) (family : Family) (owner id : NodeId) : Prop where
  count : ∃ links, table.links? family owner = some links ∧ 1 ≤ links.count.toNat ∧
    ∀ previous next, (links.drop id previous next).count.toNat = links.count.toNat - 1
  contains_owner : table.contains owner = true
  contains_member : table.contains id = true
  contains_before : ∀ previous, before? id (table.members family owner) = some previous →
    table.contains previous = true

theorem WellFormed.detachable (hwf : table.WellFormed) (hid : id ∈ table.members family owner) :
    table.Detachable family owner id := by
  obtain ⟨links, hlinks⟩ := exists_links?_of_mem hid
  have hpos : 1 ≤ links.count.toNat := by
    rw [(hwf.isList hlinks).count]
    exact List.length_pos_of_mem hid
  refine ⟨⟨links, hlinks, hpos, fun _ _ => ?_⟩, contains_of_links? hlinks,
    hwf.contains_of_mem hid, ?_⟩
  · exact UInt32.toNat_sub_of_le _ _ (UInt32.le_iff_toNat_le.mpr hpos)
  · intro previous hbefore
    exact hwf.contains_of_mem (mem_of_before? hid hbefore).1

end NodeTable

namespace Store

/-- No number of a store wraps in 32 bits, and no link that is followed leads out of its table. -/
structure InBounds (store : Store) : Prop where
  /-- The limit bounds the nodes, of which the root is always one, and it leaves a number spare. -/
  nodeCount : store.nodeCount ≤ max 1 store.limits.maxNodes ∧
    max 1 store.limits.maxNodes ≤ UInt32.size - 2
  /-- Neither the identifier of a node nor the next one changes when it is narrowed. -/
  narrowed : ∀ number ≤ store.nodeCount + 1, number.toUInt32.toNat = number
  /-- The identifier of a node that is added is the next number, and no node has it yet. -/
  added : ∀ node table id, store.table.add store.limits node = .ok (table, id) →
    id.toNat = store.nodeCount + 1 ∧ id ≠ 0 ∧ store.contains id = false
  /-- A list counts its members, which are fewer than the nodes, and it can count one more at either
  end. -/
  counted : ∀ family owner links, store.table.links? family owner = some links →
    links.count.toNat = (store.table.members family owner).length ∧
      links.count.toNat < store.nodeCount ∧
      ∀ id, (links.addFirst id).count.toNat = links.count.toNat + 1 ∧
        (links.addLast id).count.toNat = links.count.toNat + 1
  /-- Going up from a node to look for a cycle stays among nodes. -/
  lineage : ∀ id, store.contains id = true →
    store.table.WalksThrough store.parent? (some id) (store.table.lineage id)
  /-- Going along a list to look for a member or for a name stays among nodes, and so does looking
  at its last member. -/
  members : ∀ family owner links, store.table.links? family owner = some links →
    store.table.WalksThrough store.nextSibling? links.first (store.table.members family owner) ∧
      ∀ last, links.last = some last → store.contains last = true
  /-- Only members are removed. -/
  removed : ∀ parent child, store.table.checkRemove parent child = .ok () →
    store.table.Detachable .children parent child
  /-- Only members are taken off. -/
  unset : ∀ element name id,
    store.table.findNamed name (store.attributes element) = .ok (some id) →
      store.table.Detachable .attributes element id

namespace Sound

variable {store : Store}

theorem toNat_toUInt32 (hstore : store.Sound) {number : Nat}
    (hnumber : number ≤ store.nodeCount + 1) : number.toUInt32.toNat = number := by
  have hsize : store.nodeCount ≤ max 1 store.limits.maxNodes := hstore.size_le
  have hceiling := store.limits.maxNodes_le
  unfold nodeCeiling at hceiling
  have hwidth : UInt32.size = 4294967296 := rfl
  exact UInt32.toNat_ofNat_of_lt' (by omega)

theorem inBounds (hstore : store.Sound) : store.InBounds where
  nodeCount := by
    have hceiling := store.limits.maxNodes_le
    unfold nodeCeiling at hceiling
    have hwidth : UInt32.size = 4294967296 := rfl
    exact ⟨hstore.size_le, by omega⟩
  narrowed _ hnumber := hstore.toNat_toUInt32 hnumber
  added node table id hadded := by
    obtain ⟨hroom, heq⟩ := NodeTable.add_eq_ok hadded
    cases heq
    have hsize := size_lt_of_room store hroom
    have hid := NodeTable.toNat_freshId hsize
    refine ⟨hid, ?_, ?_⟩
    · intro hzero
      rw [hzero] at hid
      cases hid
    · rw [contains, NodeTable.contains, NodeTable.get?_freshId hsize]
      rfl
  counted family owner links hlinks := by
    have hsucc := hstore.wellFormed.toNat_count_succ hlinks
    exact ⟨(hstore.wellFormed.isList hlinks).count, hstore.wellFormed.count_lt_size hlinks,
      fun _ => ⟨hsucc, hsucc⟩⟩
  lineage id hid :=
    ⟨hstore.wellFormed.lineage_chain hid,
      fun _ hx => hstore.wellFormed.contains_of_mem_lineage hid hx⟩
  members family owner links hlinks := by
    have hlist := hstore.wellFormed.isList hlinks
    refine ⟨⟨hlist.chain, fun _ hid => hstore.wellFormed.contains_of_mem hid⟩, ?_⟩
    intro last hlast
    exact hstore.wellFormed.contains_of_mem
      (List.mem_of_getLast? (hlist.last.symm.trans hlast))
  removed _ _ hcheck :=
    hstore.wellFormed.detachable (NodeTable.mem_children_of_checkRemove hcheck)
  unset _ _ _ hfound := hstore.wellFormed.detachable (NodeTable.findNamed_eq_ok hfound).1

end Sound

/-- Every reachable store is in bounds, and it stays so behind each edit of a batch. -/
theorem Reachable.staysInBounds {store here : Store} {edits : List Edit} (hstore : store.Reachable)
    (hhere : edits.foldlM apply store.next = .ok here) : store.InBounds ∧ here.InBounds :=
  ⟨hstore.sound.inBounds, (hstore.sound.of_next.of_foldlM_apply hhere).inBounds⟩

/-- A store that is full, in the middle of a batch that has taken an attribute off an element. -/
theorem Reachable.staysInBounds_full :
    ∃ store here : Store, store.Reachable ∧
      [.unsetAttribute (.node 2) []].foldlM apply store.next = .ok here ∧
      store.nodeCount = 3 ∧ store.limits.maxNodes = 3 ∧ store.attributeCount 2 = 1 ∧
      here.attributeCount 2 = 0 ∧ store.InBounds ∧ here.InBounds := by
  obtain ⟨store, here, hcommit, hhere, hcount, hlimit, hbefore, hafter⟩ :
      ∃ store here : Store, (Store.empty (({} : Limits).withMaxNodes 3)).commit
        [.create (.element []), .insert .last (.node 1) (.created 0),
          .setAttribute (.created 0) [] []] = .ok store ∧
        [.unsetAttribute (.node 2) []].foldlM apply store.next = .ok here ∧
        store.nodeCount = 3 ∧ store.limits.maxNodes = 3 ∧ store.attributeCount 2 = 1 ∧
        here.attributeCount 2 = 0 :=
    ⟨_, _, by cbv, rfl, by decide, by decide, by decide, by decide⟩
  have hstore : store.Reachable := .commit _ (.empty _) hcommit
  exact ⟨store, here, hstore, hhere, hcount, hlimit, hbefore, hafter, hstore.staysInBounds hhere⟩

end Store

end VersionedXml
