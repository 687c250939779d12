import VersionedXml.Store.Reading
import VersionedXml.Tree

/-!
# The trees of a store

The nodes below a node, as nested values.  A branch of a tree has no more nodes than the store, so
their number bounds the depth to which the links are followed.
-/

namespace VersionedXml.Store

def treeTo? (store : Store) : Nat → NodeId → Option Tree
  | 0, _ => none
  | depth + 1, id =>
      match store.kind? id with
      | some .element =>
          some (.element ((store.name? id).getD []) (store.attributePairs id)
            ((store.children id).filterMap (store.treeTo? depth)))
      | some (.leaf kind) => some (.leaf kind ((store.content? id).getD []))
      | _ => none

def tree? (store : Store) (id : NodeId) : Option Tree :=
  store.treeTo? store.nodeCount id

def trees (store : Store) (id : NodeId) : List Tree :=
  (store.children id).filterMap store.tree?

/-! ## Reachable stores -/

/-- The stores that committing batches makes from a new one, whatever room was set aside for it. -/
inductive Reachable : Store → Prop where
  | sized (limits : Limits) (nodes strings bytes : Nat) :
      Reachable (Store.sized limits nodes strings bytes)
  | commit {store next : Store} (edits : List Edit) (hstore : Reachable store)
      (hnext : store.commit edits = .ok next) : Reachable next

theorem Reachable.empty (limits : Limits) : Reachable (Store.empty limits) :=
  .sized limits 64 256 4096

end VersionedXml.Store
