import VersionedXml.Edit

/-!
# Stores

A store is one version of a document.  Applying a batch of edits makes the next version and leaves
the old one as it is; a batch of which one edit fails makes no version at all.
-/

namespace VersionedXml

/-- One version of a document. -/
structure Store where
  table : NodeTable
  pool : Pool
  /-- The batches that led from the empty store to this version, oldest first. -/
  history : List (List Edit)
  /-- The nodes that the last batch created, in order. -/
  created : Array NodeId
  version : Nat
  limits : Limits

namespace Store

def sized (limits : Limits) (nodes strings bytes : Nat) : Store :=
  ⟨NodeTable.sized nodes, Pool.sized strings bytes, [], #[], 0, limits⟩

def empty (limits : Limits) : Store :=
  sized limits 64 256 4096

/-- The node that an edit is about.  An identifier is taken as it is. -/
def target (store : Store) : Target → Except StoreError NodeId
  | .node id => .ok id
  | .created index =>
      match store.created[index]? with
      | some id => .ok id
      | none => .error (.neverCreated index)

def create (store : Store) (seed : Seed) : Except StoreError Store :=
  match store with
  | ⟨table, pool, history, created, version, limits⟩ =>
      let planted := seed.plant pool
      match table.add limits planted.2 with
      | .error failure => .error failure
      | .ok added =>
          .ok ⟨added.1, planted.1, history, created.push added.2, version, limits⟩

def insert (store : Store) (place : Place) (parent child : NodeId) : Except StoreError Store :=
  match store.table.checkInsert parent child with
  | .error failure => .error failure
  | .ok _ => .ok { store with table := store.table.attach place .children parent child }

def remove (store : Store) (parent child : NodeId) : Except StoreError Store :=
  match store.table.checkRemove parent child with
  | .error failure => .error failure
  | .ok _ => .ok { store with table := store.table.detach .children parent child }

def setAttribute (store : Store) (element : NodeId) (name value : Bytes) :
    Except StoreError Store :=
  match store.table.checkElement element with
  | .error failure => .error failure
  | .ok _ =>
      match store with
      | ⟨table, pool, history, created, version, limits⟩ =>
          let named := pool.intern name
          let valued := named.1.intern value
          match table.findNamed named.2 (table.attributes element) with
          | .error failure => .error failure
          | .ok (some id) =>
              .ok ⟨table.modify id (Node.setValue valued.2), valued.1, history, created, version,
                limits⟩
          | .ok none =>
              match table.add limits { data := .attribute named.2 valued.2 } with
              | .error failure => .error failure
              | .ok added =>
                  .ok ⟨added.1.attachLast .attributes element added.2, valued.1, history, created,
                    version, limits⟩

def unsetAttribute (store : Store) (element : NodeId) (name : Bytes) : Except StoreError Store :=
  match store.table.checkElement element with
  | .error failure => .error failure
  | .ok _ =>
      match store.pool.find? name with
      | none => .ok store
      | some nameId =>
          match store.table.findNamed nameId (store.table.attributes element) with
          | .error failure => .error failure
          | .ok none => .ok store
          | .ok (some id) =>
              .ok { store with table := store.table.detach .attributes element id }

def apply (store : Store) (edit : Edit) : Except StoreError Store :=
  match edit with
  | .create seed => store.create seed
  | .insert place parent child => do
      let parent ← store.target parent
      let child ← store.target child
      store.insert place parent child
  | .remove parent child => do
      let parent ← store.target parent
      let child ← store.target child
      store.remove parent child
  | .setAttribute element name value => do
      let element ← store.target element
      store.setAttribute element name value
  | .unsetAttribute element name => do
      let element ← store.target element
      store.unsetAttribute element name

/-- The store to which the edits of a batch are applied: it has created nothing yet. -/
def next (store : Store) : Store :=
  { store with created := #[], version := store.version + 1 }

/-- Makes the next version, unless one of the edits fails. -/
def commit (store : Store) (edits : List Edit) : Except StoreError Store := do
  let applied ← edits.foldlM apply store.next
  return { applied with history := applied.history ++ [edits] }

/-- Makes the version again by committing all batches of its history to an empty store with the room
that this one takes. -/
def rebuild (store : Store) : Except StoreError Store :=
  store.history.foldlM commit
    (sized store.limits store.table.size store.pool.size store.pool.bytesUsed)

/-- The node that a reference of the last batch denotes in this version. -/
def resolve? (store : Store) : Target → Option NodeId
  | .node id => if store.table.contains id then some id else none
  | .created index => store.created[index]?

end Store

end VersionedXml
