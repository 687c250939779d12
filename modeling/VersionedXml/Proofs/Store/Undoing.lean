import VersionedXml.Proofs.Store.Forest
import VersionedXml.Proofs.Store.Insertable

/-!
# Insertions and removals undo each other

Attaching a child at an end of a list and detaching it again, or detaching the child at an end and
attaching it there again, leaves every list as it was.  A well-formed table is known by its lists,
and so all records are as they were, with the links of the neighbours, the ends and the counts.
-/

namespace VersionedXml

namespace Place

variable {id : NodeId} {ids : List NodeId}

def member? (place : Place) (ids : List NodeId) : Option NodeId :=
  match place with
  | .first => ids.head?
  | .last => ids.getLast?

theorem mem_of_member? {place : Place} (hid : place.member? ids = some id) : id ∈ ids := by
  cases place with
  | first => exact List.mem_of_mem_head? hid
  | last => exact List.mem_of_getLast? hid

theorem erase_extend (place : Place) (hid : id ∉ ids) : (place.extend id ids).erase id = ids := by
  cases place with
  | first => exact List.erase_cons_head ..
  | last =>
      rw [extend, List.erase_append_right _ hid, List.erase_cons_head, List.append_nil]

theorem extend_erase {place : Place} (hnodup : ids.Nodup) (hid : place.member? ids = some id) :
    place.extend id (ids.erase id) = ids := by
  cases place with
  | first =>
      obtain ⟨rest, rfl⟩ := List.head?_eq_some_iff.mp hid
      rw [List.erase_cons_head, extend]
  | last =>
      obtain ⟨front, rfl⟩ := List.getLast?_eq_some_iff.mp hid
      have hnot : id ∉ front := fun hmember =>
        (List.nodup_append.mp hnodup).2.2 id hmember id List.mem_cons_self rfl
      rw [List.erase_append_right _ hnot, List.erase_cons_head, List.append_nil, extend]

end Place

namespace NodeTable

variable {table : NodeTable} {parent child : NodeId}

/-- A child that has been attached is detached again without a trace. -/
theorem Insertable.detach_attach (hinsert : table.Insertable parent child)
    (hwf : table.WellFormed) (place : Place) :
    (table.attach place .children parent child).detach .children parent child = table := by
  have hattached := hinsert.wellFormed hwf place
  have hmember := hinsert.mem_children hwf place
  have hin := hinsert.relinked hwf place
  have hout := detach_relinked hattached hmember
  obtain ⟨hdetached, herased⟩ := detach_wellFormed hattached hmember
  refine hwf.eq_of_members hdetached (hout.size.trans hin.size)
    (fun id => (hout.label? id).trans (hin.label? id)) fun family owner => ?_
  rw [herased]
  split
  · rename_i heq
    obtain ⟨rfl, rfl⟩ := heq
    have hchildren : (table.attach place .children owner child).members .children owner =
        place.extend child (table.members .children owner) := hinsert.children_eq hwf place
    rw [hchildren]
    exact place.erase_extend (hwf.notMem_members hinsert.detached)
  · rename_i hne
    exact (hinsert.members_eq hwf place family owner).trans (if_neg hne)

/-- The child at an end of a list is attached again where it was. -/
theorem WellFormed.attach_detach (hwf : table.WellFormed) {place : Place}
    (hchild : place.member? (table.children parent) = some child) :
    (table.detach .children parent child).attach place .children parent child = table := by
  have hmember : child ∈ table.members .children parent := Place.mem_of_member? hchild
  have hout := detach_relinked hwf hmember
  obtain ⟨hdetached, herased⟩ := detach_wellFormed hwf hmember
  have hinsert := hwf.insertable_detach hmember
  have hin := hinsert.relinked hdetached place
  refine hwf.eq_of_members (hinsert.wellFormed hdetached place) (hin.size.trans hout.size)
    (fun id => (hin.label? id).trans (hout.label? id)) fun family owner => ?_
  rw [hinsert.members_eq hdetached place]
  split
  · rename_i heq
    obtain ⟨rfl, rfl⟩ := heq
    rw [children, (herased .children owner).trans (if_pos ⟨rfl, rfl⟩)]
    exact Place.extend_erase (hwf.nodup_members .children owner) hchild
  · rename_i hne
    exact (herased family owner).trans (if_neg hne)

end NodeTable

/-- Wherever it is applied to the table `before`, the edit makes it `after` and leaves all else
alone. -/
def Edit.Turns (edit : Edit) (before after : NodeTable) : Prop :=
  ∀ store : Store, store.table = before → store.apply edit = .ok { store with table := after }

namespace NodeTable

variable {table : NodeTable} {parent child : NodeId}

theorem Insertable.turns (hinsert : table.Insertable parent child) (place : Place) :
    (Edit.insertNode place parent child).Turns table
      (table.attach place .children parent child) := by
  rintro store rfl
  exact Store.apply_insertNode_eq_ok_iff.mpr ⟨hinsert, rfl⟩

theorem WellFormed.turns (hwf : table.WellFormed) (hchild : child ∈ table.children parent) :
    (Edit.removeNode parent child).Turns table (table.detach .children parent child) := by
  rintro store rfl
  exact (Store.apply_removeNode_eq_ok_iff hwf).mpr ⟨hchild, rfl⟩

end NodeTable

namespace Store

variable {store : Store} {first second : Edit} {after : NodeTable}

/-- The second edit undoes the first one, in a batch of its own as well as in the same batch, and
neither of them touches the strings. -/
structure Undone (store : Store) (first second : Edit) : Prop where
  apart : ∃ middle next, store.commit [first] = .ok middle ∧ middle.commit [second] = .ok next ∧
    middle.pool = store.pool ∧ store.SameRecords next
  together : ∃ next, store.commit [first, second] = .ok next ∧ store.SameRecords next

theorem commit_of_turns (hfirst : first.Turns store.table after) :
    store.commit [first] = .ok (store.moved [first] after) := by
  refine bind_eq_ok_iff.mpr ⟨{ store.next with table := after }, ?_, rfl⟩
  exact bind_eq_ok_iff.mpr ⟨_, hfirst store.next rfl, rfl⟩

theorem undone_of_turns (hfirst : first.Turns store.table after)
    (hsecond : second.Turns after store.table) : store.Undone first second := by
  refine ⟨⟨store.moved [first] after, _, commit_of_turns hfirst, commit_of_turns hsecond, rfl,
    rfl, rfl⟩, store.moved [first, second] store.table, ?_, rfl, rfl⟩
  refine bind_eq_ok_iff.mpr ⟨{ store.next with table := store.table }, ?_, rfl⟩
  rw [List.foldlM_cons]
  refine bind_eq_ok_iff.mpr ⟨{ store.next with table := after }, hfirst store.next rfl, ?_⟩
  exact bind_eq_ok_iff.mpr ⟨_, hsecond _ rfl, rfl⟩

/-- The first and the last child are the ends of the list of children. -/
theorem Sound.member?_children (hstore : store.Sound) (place : Place) (id : NodeId) :
    place.member? (store.children id) = match place with
      | .first => store.firstChild? id
      | .last => store.lastChild? id := by
  unfold firstChild? lastChild? children NodeTable.children
  cases hlinks : store.table.links? .children id with
  | none =>
      rw [NodeTable.members_of_links?_eq_none hlinks]
      cases place <;> rfl
  | some links =>
      have hlist := hstore.wellFormed.isList hlinks
      cases place with
      | first => exact hlist.chain.head?_eq
      | last => exact hlist.last.symm

theorem Sound.undone_insert (hstore : store.Sound) (place : Place) {parent child : NodeId}
    (hinsert : store.table.Insertable parent child) :
    store.Undone (.insertNode place parent child) (.removeNode parent child) := by
  have hwf := hstore.wellFormed
  have hback := (hinsert.wellFormed hwf place).turns (hinsert.mem_children hwf place)
  rw [hinsert.detach_attach hwf place] at hback
  exact undone_of_turns (hinsert.turns place) hback

/-- Removing the child at an end is undone by inserting it there again. -/
theorem Sound.undone_remove (hstore : store.Sound) (place : Place) {parent child : NodeId}
    (hchild : place.member? (store.children parent) = some child) :
    store.Undone (.removeNode parent child) (.insertNode place parent child) := by
  have hwf := hstore.wellFormed
  have hmember : child ∈ store.table.children parent := Place.mem_of_member? hchild
  have hback := (hwf.insertable_detach hmember).turns place
  rw [hwf.attach_detach hchild] at hback
  exact undone_of_turns (hwf.turns hmember) hback

/-- An insertion that succeeds is undone by a removal, and the removal of the last or the first
child by an insertion at that end: no record of any node differs, and neither does the pool. -/
theorem Reachable.move_undone (hstore : store.Reachable) (parent child : NodeId) :
    (∀ place next, store.commit [.insertNode place parent child] = .ok next →
      store.Undone (.insertNode place parent child) (.removeNode parent child)) ∧
    (store.lastChild? parent = some child →
      store.Undone (.removeNode parent child) (.insertNode .last parent child)) ∧
    (store.firstChild? parent = some child →
      store.Undone (.removeNode parent child) (.insertNode .first parent child)) := by
  have hsound := hstore.sound
  refine ⟨fun place next hnext => ?_, fun hlast => ?_, fun hfirst => ?_⟩
  · exact hsound.undone_insert place (commit_insertNode_eq_ok_iff.mp hnext).1
  · exact hsound.undone_remove .last ((hsound.member?_children .last parent).trans hlast)
  · exact hsound.undone_remove .first ((hsound.member?_children .first parent).trans hfirst)

/-- A detached element, with an attribute and a child, goes to either end of a list of three texts,
and the texts at the ends are taken off it. -/
theorem Reachable.move_undone_three :
    ∃ store next : Store, store.Reachable ∧ store.children rootId = [2, 3, 4] ∧
      store.children 5 = [7] ∧ store.attributes 5 = [6] ∧
      store.commit [.insertNode .first 1 5] = .ok next ∧
      next.children rootId = [5, 2, 3, 4] ∧
      store.Undone (.insertNode .first 1 5) (.removeNode 1 5) ∧
      store.Undone (.removeNode 1 4) (.insertNode .last 1 4) ∧
      store.Undone (.removeNode 1 2) (.insertNode .first 1 2) := by
  obtain ⟨store, next, hcommit, hinsert, hchildren, hinner, hattributes, hafter, hlast, hfirst⟩ :
      ∃ store next : Store, (Store.empty {}).commit
        [.create (.leaf .text []), .create (.leaf .text []), .create (.leaf .text []),
          .insert .last (.node 1) (.created 0), .insert .last (.node 1) (.created 1),
          .insert .last (.node 1) (.created 2), .create (.element [0x61]),
          .setAttribute (.created 3) [0x6b] [0x76], .create (.leaf .text []),
          .insert .last (.created 3) (.created 4)] = .ok store ∧
      store.commit [.insertNode .first 1 5] = .ok next ∧
      store.children rootId = [2, 3, 4] ∧ store.children 5 = [7] ∧ store.attributes 5 = [6] ∧
      next.children rootId = [5, 2, 3, 4] ∧ store.lastChild? rootId = some 4 ∧
      store.firstChild? rootId = some 2 :=
    ⟨_, _, by cbv, by cbv, by decide, by decide, by decide, by decide, by decide, by decide⟩
  have hstore : store.Reachable := .commit _ (.empty {}) hcommit
  exact ⟨store, next, hstore, hchildren, hinner, hattributes, hinsert, hafter,
    (hstore.move_undone 1 5).1 .first next hinsert, (hstore.move_undone 1 4).2.1 hlast,
    (hstore.move_undone 1 2).2.2 hfirst⟩

end Store

end VersionedXml
