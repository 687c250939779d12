import VersionedXml.Proofs.Store.Refusals

/-!
# Splitting a batch

Two batches may be committed one after the other, or as one batch.  In the joint batch the second
part counts the nodes that it creates behind those of the first part, so its references are shifted
by their number.  Nothing else makes a difference: the nodes, the strings and the failures are the
same on both ways, in the same order.
-/

namespace VersionedXml

/-! ## Shifted references -/

def Target.shift (count : Nat) : Target → Target
  | .node id => .node id
  | .created index => .created (index + count)

def Edit.shift (count : Nat) : Edit → Edit
  | .create seed => .create seed
  | .insert place parent child => .insert place (parent.shift count) (child.shift count)
  | .remove parent child => .remove (parent.shift count) (child.shift count)
  | .setAttribute element name value => .setAttribute (element.shift count) name value
  | .unsetAttribute element name => .unsetAttribute (element.shift count) name

/-- Two batches as one: the references of the second count behind the nodes that the first creates. -/
def Edit.join (first second : List Edit) : List Edit :=
  first ++ second.map (shift (first.countP isCreation))

def StoreError.shift (count : Nat) : StoreError → StoreError
  | .neverCreated index => .neverCreated (index + count)
  | failure => failure

/-! ## Failures of nodes

Only references lead to failures that speak of them. -/

namespace NodeTable

variable {table : NodeTable} {parent child id : NodeId} {failure : StoreError} (count : Nat)

theorem shift_of_find (hfind : table.find id = .error failure) :
    failure.shift count = failure := by
  unfold find at hfind
  split at hfind
  · cases hfind
  · cases hfind
    rfl

theorem shift_of_checkKinds (hcheck : table.checkKinds parent child = .error failure) :
    failure.shift count = failure := by
  unfold checkKinds at hcheck
  split at hcheck
  · rename_i hparent
    cases hcheck
    exact shift_of_find count hparent
  · rename_i hchild _
    cases hcheck
    exact shift_of_find count hchild
  · split at hcheck
    · cases hcheck
      rfl
    · split at hcheck
      · cases hcheck
        rfl
      · cases hcheck

theorem shift_of_checkInsert (hcheck : table.checkInsert parent child = .error failure) :
    failure.shift count = failure := by
  unfold checkInsert at hcheck
  split at hcheck
  · rename_i hkinds
    cases hcheck
    exact shift_of_checkKinds count hkinds
  · split at hcheck
    · cases hcheck
      rfl
    · split at hcheck
      · cases hcheck
        rfl
      · cases hcheck

theorem shift_of_checkRemove (hcheck : table.checkRemove parent child = .error failure) :
    failure.shift count = failure := by
  unfold checkRemove at hcheck
  split at hcheck
  · rename_i hkinds
    cases hcheck
    exact shift_of_checkKinds count hkinds
  · split at hcheck
    · cases hcheck
    · cases hcheck
      rfl

theorem shift_of_checkElement (hcheck : table.checkElement id = .error failure) :
    failure.shift count = failure := by
  unfold checkElement at hcheck
  split at hcheck
  · rename_i hfind
    cases hcheck
    exact shift_of_find count hfind
  · split at hcheck
    · cases hcheck
    · cases hcheck
      rfl

theorem shift_of_findNamed {name : StrId} {ids : List NodeId}
    (hfound : table.findNamed name ids = .error failure) : failure.shift count = failure := by
  induction ids with
  | nil => cases hfound
  | cons first rest ih =>
      rw [findNamed] at hfound
      split at hfound
      · split at hfound
        · cases hfound
        · exact ih hfound
      · cases hfound
        rfl

theorem shift_of_add {limits : Limits} {node : Node}
    (hadded : table.add limits node = .error failure) : failure.shift count = failure := by
  simp only [add] at hadded
  split at hadded
  · cases hadded
  · cases hadded
    rfl

end NodeTable

namespace Store

/-! ## One edit in two batches -/

/-- The store as it is in the batch that `base` has begun: the nodes that it has created count
behind those of `base`. -/
def behind (base store : Store) : Store :=
  { store with
    history := base.history
    created := base.created ++ store.created
    version := base.version }

def resultBehind (base : Store) : Except StoreError Store → Except StoreError Store
  | .ok store => .ok (base.behind store)
  | .error failure => .error (failure.shift base.created.size)

variable {base store : Store}

theorem target_behind (base store : Store) (target : Target) :
    (base.behind store).target (target.shift base.created.size) =
      match store.target target with
      | .ok id => .ok id
      | .error failure => .error (failure.shift base.created.size) := by
  cases target with
  | node id => rfl
  | created index =>
      have hlookup : (base.created ++ store.created)[index + base.created.size]? =
          store.created[index]? := by
        rw [Array.getElem?_append_right (Nat.le_add_left _ _), Nat.add_sub_cancel]
      simp only [target, Target.shift, behind, hlookup]
      cases store.created[index]? <;> rfl

/-- What is done with the node that a reference denotes is done in the joint batch too. -/
theorem bind_target_behind {target : Target} {alone joint : NodeId → Except StoreError Store}
    (hjoint : ∀ id, joint id = base.resultBehind (alone id)) :
    ((base.behind store).target (target.shift base.created.size) >>= joint) =
      base.resultBehind (store.target target >>= alone) := by
  rw [target_behind]
  cases store.target target with
  | ok id => exact hjoint id
  | error failure => rfl

theorem create_behind (base store : Store) (seed : Seed) :
    (base.behind store).create seed = base.resultBehind (store.create seed) := by
  simp only [create, behind]
  split
  · rename_i hadded
    rw [resultBehind, NodeTable.shift_of_add _ hadded]
  · simp only [resultBehind, behind, Array.push_append]

theorem insert_behind (base store : Store) (place : Place) (parent child : NodeId) :
    (base.behind store).insert place parent child =
      base.resultBehind (store.insert place parent child) := by
  simp only [insert, behind]
  split
  · rename_i hcheck
    rw [resultBehind, NodeTable.shift_of_checkInsert _ hcheck]
  · rfl

theorem remove_behind (base store : Store) (parent child : NodeId) :
    (base.behind store).remove parent child =
      base.resultBehind (store.remove parent child) := by
  simp only [remove, behind]
  split
  · rename_i hcheck
    rw [resultBehind, NodeTable.shift_of_checkRemove _ hcheck]
  · rfl

theorem setAttribute_behind (base store : Store) (element : NodeId) (name value : Bytes) :
    (base.behind store).setAttribute element name value =
      base.resultBehind (store.setAttribute element name value) := by
  simp only [setAttribute, behind]
  split
  · rename_i hcheck
    rw [resultBehind, NodeTable.shift_of_checkElement _ hcheck]
  · split
    · rename_i hfound
      rw [resultBehind, NodeTable.shift_of_findNamed _ hfound]
    · rfl
    · split
      · rename_i hadded
        rw [resultBehind, NodeTable.shift_of_add _ hadded]
      · rfl

theorem unsetAttribute_behind (base store : Store) (element : NodeId) (name : Bytes) :
    (base.behind store).unsetAttribute element name =
      base.resultBehind (store.unsetAttribute element name) := by
  simp only [unsetAttribute, behind]
  split
  · rename_i hcheck
    rw [resultBehind, NodeTable.shift_of_checkElement _ hcheck]
  · split
    · rfl
    · split
      · rename_i hfound
        rw [resultBehind, NodeTable.shift_of_findNamed _ hfound]
      · rfl
      · rfl

/-- A shifted edit does in the joint batch what the edit does in a batch of its own. -/
theorem apply_behind (base store : Store) (edit : Edit) :
    (base.behind store).apply (edit.shift base.created.size) =
      base.resultBehind (store.apply edit) := by
  cases edit with
  | create seed => exact create_behind base store seed
  | insert place parent child =>
      exact bind_target_behind fun parentId => bind_target_behind fun childId =>
        insert_behind base store place parentId childId
  | remove parent child =>
      exact bind_target_behind fun parentId => bind_target_behind fun childId =>
        remove_behind base store parentId childId
  | setAttribute element name value =>
      exact bind_target_behind fun id => setAttribute_behind base store id name value
  | unsetAttribute element name =>
      exact bind_target_behind fun id => unsetAttribute_behind base store id name

theorem foldlM_apply_behind (base store : Store) (edits : List Edit) :
    (edits.map (Edit.shift base.created.size)).foldlM apply (base.behind store) =
      base.resultBehind (edits.foldlM apply store) := by
  induction edits generalizing store with
  | nil => rfl
  | cons edit rest ih =>
      rw [List.map_cons, List.foldlM_cons, List.foldlM_cons, apply_behind]
      cases store.apply edit with
      | ok next => exact ih next
      | error failure => rfl

/-! ## Two batches -/

theorem behind_next (applied : Store) (edits : List Edit) :
    applied.behind ({ applied with history := applied.history ++ [edits] } : Store).next =
      applied := by
  simp [behind, next]

def joined (store middle next : Store) (edits : List Edit) : Store :=
  { next with
    history := store.history ++ [edits]
    created := middle.created ++ next.created
    version := store.version + 1 }

/-- A joint batch does what its first part does, and then what its second part does to the version
that the first one has made. -/
theorem commit_join (store : Store) (first second : List Edit) :
    store.commit (Edit.join first second) =
      match store.commit first with
      | .error failure => .error failure
      | .ok middle =>
          match middle.commit second with
          | .error failure => .error (failure.shift (first.countP Edit.isCreation))
          | .ok next => .ok (store.joined middle next (Edit.join first second)) := by
  simp only [commit, Edit.join, List.foldlM_append]
  cases hfirst : first.foldlM apply store.next with
  | error failure => rfl
  | ok applied =>
      have hcount : first.countP Edit.isCreation = applied.created.size := by
        rw [size_created_of_foldlM_apply hfirst]
        exact (Nat.zero_add _).symm
      obtain ⟨hhistory, hversion, -⟩ := kept_of_foldlM_apply hfirst
      have hrun := foldlM_apply_behind applied
        ({ applied with history := applied.history ++ [first] } : Store).next second
      rw [behind_next] at hrun
      simp only [bind, Except.bind, pure, Except.pure, hcount] at hrun ⊢
      rw [hrun]
      -- What the second part makes differs from the joint version only in what has been recorded.
      cases second.foldlM apply _ with
      | error failure => rfl
      | ok last =>
          simp only [resultBehind, behind, joined, hhistory, hversion]
          rfl

/-- Two batches that are committed as one succeed exactly if they succeed one after the other.  The
nodes, the strings and the limits are then the same, and the created nodes are those of the first
batch and behind them those of the second.  They fail as the first of them that fails, and a failure
that speaks of a reference of the second batch speaks of the shifted one. -/
theorem commit_join_iff (store : Store) (first second : List Edit) :
    (∀ result, store.commit (Edit.join first second) = .ok result ↔ ∃ middle next,
      store.commit first = .ok middle ∧ middle.commit second = .ok next ∧
        result = { next with
          history := store.history ++ [Edit.join first second]
          created := middle.created ++ next.created
          version := store.version + 1 }) ∧
    ∀ failure, store.commit (Edit.join first second) = .error failure ↔
      store.commit first = .error failure ∨ ∃ middle cause,
        store.commit first = .ok middle ∧ middle.commit second = .error cause ∧
          failure = cause.shift (first.countP Edit.isCreation) := by
  rw [commit_join]
  cases hfirst : store.commit first with
  | error failure => simp
  | ok middle =>
      cases hsecond : middle.commit second with
      | error failure => simp [hsecond, eq_comm]
      | ok next => simp [hsecond, joined, eq_comm]

end Store

end VersionedXml
