import VersionedXml.Proofs.Store.Forest
import VersionedXml.Proofs.Store.Insertable

/-!
# Insertions commute

Two insertions of different children below different parents change different lists, and so it does
not matter for the table which one comes first.  Whether both succeed does not depend on the order
either: each has to be possible alone, and the two edges together must not close a cycle.
-/

namespace VersionedXml

namespace NodeTable

variable {table : NodeTable} {parent child other sibling : NodeId}

structure Compatible (table : NodeTable) (parent child other sibling : NodeId) : Prop where
  first : table.Insertable parent child
  second : table.Insertable other sibling
  noCycle : ¬ (child ∈ table.lineage other ∧ sibling ∈ table.lineage parent)

theorem Compatible.symm (hboth : table.Compatible parent child other sibling) :
    table.Compatible other sibling parent child :=
  ⟨hboth.second, hboth.first, fun hcycle => hboth.noCycle hcycle.symm⟩

/-- One insertion can be made behind the other one exactly if the two are compatible. -/
theorem compatible_iff (hwf : table.WellFormed) (hne : child ≠ sibling) (place : Place) :
    table.Compatible parent child other sibling ↔ table.Insertable parent child ∧
      (table.attach place .children parent child).Insertable other sibling := by
  constructor
  · rintro ⟨hfirst, hsecond, hopen⟩
    exact ⟨hfirst, (hfirst.attach_iff hwf place hne.symm).mpr ⟨hsecond, hopen⟩⟩
  · rintro ⟨hfirst, hbehind⟩
    obtain ⟨hsecond, hopen⟩ := (hfirst.attach_iff hwf place hne.symm).mp hbehind
    exact ⟨hfirst, hsecond, hopen⟩

/-- Two compatible insertions below different parents make the same table in either order. -/
theorem Compatible.attach_comm (hboth : table.Compatible parent child other sibling)
    (hwf : table.WellFormed) (hparents : parent ≠ other) (hne : child ≠ sibling)
    (place behind : Place) :
    (table.attach place .children parent child).attach behind .children other sibling =
      (table.attach behind .children other sibling).attach place .children parent child := by
  obtain ⟨hfirst, hlater⟩ := (compatible_iff hwf hne place).mp hboth
  obtain ⟨hsecond, hearlier⟩ := (compatible_iff hwf hne.symm behind).mp hboth.symm
  have hone := hfirst.wellFormed hwf place
  have htwo := hsecond.wellFormed hwf behind
  have hfirstMove := hfirst.relinked hwf place
  have hlaterMove := hlater.relinked hone behind
  have hsecondMove := hsecond.relinked hwf behind
  have hearlierMove := hearlier.relinked htwo place
  refine (hearlier.wellFormed htwo place).eq_of_members (hlater.wellFormed hone behind) ?_ ?_ ?_
  · rw [hlaterMove.size, hfirstMove.size, hearlierMove.size, hsecondMove.size]
  · intro id
    rw [hlaterMove.label?, hfirstMove.label?, hearlierMove.label?, hsecondMove.label?]
  · -- each of the two lists is changed by one of the insertions and left alone by the other one
    intro family owner
    have hothers : (table.attach place .children parent child).children other =
        table.children other :=
      (hfirst.members_eq hwf place .children other).trans (if_neg fun heq => hparents heq.2.symm)
    have hparent : (table.attach behind .children other sibling).children parent =
        table.children parent :=
      (hsecond.members_eq hwf behind .children parent).trans (if_neg fun heq => hparents heq.2)
    rw [hlater.members_eq hone, hearlier.members_eq htwo, hfirst.members_eq hwf,
      hsecond.members_eq hwf, hothers, hparent]
    split_ifs with hlast hfirst
    · exact absurd (hfirst.2.symm.trans hlast.2) hparents
    · rfl
    · rfl
    · rfl

end NodeTable

namespace Store

variable {store : Store} {place behind : Place} {parent child other sibling : NodeId}

structure Agree (left right : Except StoreError Store) : Prop where
  accepted : (∃ one, left = .ok one) ↔ ∃ other, right = .ok other
  records : ∀ one other, left = .ok one → right = .ok other → one.SameRecords other

/-- Attempts agree if they succeed under the same condition, and make the same records then. -/
theorem agree_of_iff {left right : Except StoreError Store} {accepted : Prop} {one other : Store}
    (hleft : ∀ next, left = .ok next ↔ accepted ∧ one = next)
    (hright : ∀ next, right = .ok next ↔ accepted ∧ other = next)
    (hsame : accepted → one.SameRecords other) : Agree left right := by
  refine ⟨⟨?_, ?_⟩, ?_⟩
  · rintro ⟨next, hnext⟩
    exact ⟨other, (hright other).mpr ⟨((hleft next).mp hnext).1, rfl⟩⟩
  · rintro ⟨next, hnext⟩
    exact ⟨one, (hleft one).mpr ⟨((hright next).mp hnext).1, rfl⟩⟩
  · intro first second hfirst hsecond
    obtain ⟨haccepted, rfl⟩ := (hleft first).mp hfirst
    obtain ⟨-, rfl⟩ := (hright second).mp hsecond
    exact hsame haccepted

/-- Two edits commute, in two batches as well as in one. -/
structure Commute (store : Store) (first second : Edit) : Prop where
  apart : Agree ([[first], [second]].foldlM commit store) ([[second], [first]].foldlM commit store)
  together : Agree (store.commit [first, second]) (store.commit [second, first])

section Pair

variable (hwf : store.table.WellFormed) (hne : child ≠ sibling)
include hwf hne

/-- Two insertions in a batch succeed exactly if they are compatible. -/
theorem commit_insertNodes_eq_ok_iff (next : Store) :
    store.commit [.insertNode place parent child, .insertNode behind other sibling] = .ok next ↔
      store.table.Compatible parent child other sibling ∧
        store.moved [.insertNode place parent child, .insertNode behind other sibling]
          ((store.table.attach place .children parent child).attach behind .children other
            sibling) = next := by
  rw [NodeTable.compatible_iff hwf hne place]
  simp [commit, bind_eq_ok_iff, apply_insertNode_eq_ok_iff, moved, Store.next, pure, Except.pure,
    and_assoc]

theorem commit_each_insertNode_eq_ok_iff (next : Store) :
    [[Edit.insertNode place parent child], [.insertNode behind other sibling]].foldlM commit store =
        .ok next ↔
      store.table.Compatible parent child other sibling ∧
        (store.moved [.insertNode place parent child]
          (store.table.attach place .children parent child)).moved
            [.insertNode behind other sibling]
            ((store.table.attach place .children parent child).attach behind .children other
              sibling) = next := by
  rw [NodeTable.compatible_iff hwf hne place]
  simp [bind_eq_ok_iff, commit_insertNode_eq_ok_iff, moved, pure, Except.pure, and_assoc]

end Pair

/-- Insertions of different children below different parents commute.  Both succeed, in either order,
exactly if each of them does alone, unless the child of each lies at or above the parent of the
other, so that the two edges together would close a cycle. -/
theorem Reachable.insertions_commute (hstore : store.Reachable) (place behind : Place)
    (hparents : parent ≠ other) (hchildren : child ≠ sibling) :
    store.Commute (.insertNode place parent child) (.insertNode behind other sibling) ∧
    ((∃ next, store.commit [.insertNode place parent child, .insertNode behind other sibling] =
        .ok next) ↔
      (∃ next, store.commit [.insertNode place parent child] = .ok next) ∧
      (∃ next, store.commit [.insertNode behind other sibling] = .ok next) ∧
      ¬ (child ∈ store.table.lineage other ∧ sibling ∈ store.table.lineage parent)) := by
  have hwf := hstore.sound.wellFormed
  have hsymm : store.table.Compatible other sibling parent child ↔
      store.table.Compatible parent child other sibling :=
    ⟨NodeTable.Compatible.symm, NodeTable.Compatible.symm⟩
  have hsame := fun hboth : store.table.Compatible parent child other sibling =>
    hboth.attach_comm hwf hparents hchildren place behind
  refine ⟨⟨?_, ?_⟩, ?_⟩
  · refine agree_of_iff (commit_each_insertNode_eq_ok_iff hwf hchildren)
      (fun next => (commit_each_insertNode_eq_ok_iff hwf hchildren.symm next).trans
        (and_congr_left' hsymm)) fun hboth => ⟨(hsame hboth).symm, rfl⟩
  · refine agree_of_iff (commit_insertNodes_eq_ok_iff hwf hchildren)
      (fun next => (commit_insertNodes_eq_ok_iff hwf hchildren.symm next).trans
        (and_congr_left' hsymm)) fun hboth => ⟨(hsame hboth).symm, rfl⟩
  · simp only [commit_insertNodes_eq_ok_iff hwf hchildren, commit_insertNode_eq_ok_iff,
      exists_and_left, exists_eq', and_true]
    exact ⟨fun hboth => ⟨hboth.first, hboth.second, hboth.noCycle⟩,
      fun ⟨hfirst, hsecond, hopen⟩ => ⟨hfirst, hsecond, hopen⟩⟩

/-- Of three detached elements, the third one goes below the second one and the second one below the
first one, in either order.  Two of them do not go below each other, although each of them goes
below the other one. -/
theorem Reachable.insertions_commute_chain :
    ∃ store next : Store, store.Reachable ∧
      store.commit [.insertNode .last 2 3, .insertNode .first 3 4] = .ok next ∧
      next.descendants 2 = [3, 4] ∧
      store.Commute (.insertNode .last 2 3) (.insertNode .first 3 4) ∧
      (∃ one, store.commit [.insertNode .last 2 3] = .ok one) ∧
      (∃ other, store.commit [.insertNode .last 3 2] = .ok other) ∧
      store.Commute (.insertNode .last 2 3) (.insertNode .last 3 2) ∧
      ¬ ∃ both, store.commit [.insertNode .last 2 3, .insertNode .last 3 2] = .ok both := by
  obtain ⟨store, next, one, other, hcommit, hnext, hlisting, hone, hother, hbelow, habove⟩ :
      ∃ store next one other : Store, (Store.empty {}).commit
        [.create (.element [0x61]), .create (.element [0x62]), .create (.element [0x63])] =
          .ok store ∧
      store.commit [.insertNode .last 2 3, .insertNode .first 3 4] = .ok next ∧
      next.descendants 2 = [3, 4] ∧ store.commit [.insertNode .last 2 3] = .ok one ∧
      store.commit [.insertNode .last 3 2] = .ok other ∧ 3 ∈ store.table.lineage 3 ∧
      2 ∈ store.table.lineage 2 :=
    ⟨_, _, _, _, by cbv, by cbv, by decide, by cbv, by cbv, by decide, by decide⟩
  have hstore : store.Reachable := .commit _ (.empty {}) hcommit
  have hcycle := hstore.insertions_commute .last .last (by decide : (2 : NodeId) ≠ 3)
    (by decide : (3 : NodeId) ≠ 2)
  exact ⟨store, next, hstore, hnext, hlisting,
    (hstore.insertions_commute .last .first (by decide) (by decide)).1, ⟨one, hone⟩,
    ⟨other, hother⟩, hcycle.1, fun hboth => (hcycle.2.mp hboth).2.2 ⟨hbelow, habove⟩⟩

end Store

end VersionedXml
