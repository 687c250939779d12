import VersionedXml.Proofs.Store.AttributeMap

/-!
# Why edits are refused

Before an edit changes anything, it checks its references and the nodes that they denote, one check
after the other.  Here the checks are a list of conditions on what the store answers, each with the
failure that it leads to.  An edit fails exactly if one of its conditions holds, and it fails as the
first of them says.
-/

namespace VersionedXml

/-! ## Lists of checks -/

structure Check where
  fault : Prop
  failure : StoreError

/-- The first check that finds a fault leads to the failure. -/
inductive FirstFault : List Check → StoreError → Prop where
  | here {fault : Prop} {failure : StoreError} {rest : List Check} (hfault : fault) :
      FirstFault (⟨fault, failure⟩ :: rest) failure
  | later {check : Check} {rest : List Check} {failure : StoreError} (hpass : ¬ check.fault)
      (hrest : FirstFault rest failure) : FirstFault (check :: rest) failure

namespace FirstFault

variable {check : Check} {rest : List Check} {failure : StoreError}

theorem eq_of_fault (hfirst : FirstFault (check :: rest) failure) (hfault : check.fault) :
    failure = check.failure := by
  cases hfirst with
  | here => rfl
  | later hpass => exact absurd hfault hpass

theorem of_pass (hfirst : FirstFault (check :: rest) failure) (hpass : ¬ check.fault) :
    FirstFault rest failure := by
  cases hfirst with
  | here hfault => exact absurd hfault hpass
  | later _ hrest => exact hrest

/-- Some check finds a fault if and only if there is a first one that does. -/
theorem exists_iff (checks : List Check) :
    (∃ failure, FirstFault checks failure) ↔ ∃ check ∈ checks, check.fault := by
  constructor
  · rintro ⟨failure, hfirst⟩
    induction hfirst with
    | here hfault => exact ⟨_, List.mem_cons_self, hfault⟩
    | later _ _ ih =>
        obtain ⟨found, hfound, hfault⟩ := ih
        exact ⟨found, List.mem_cons_of_mem _ hfound, hfault⟩
  · rintro ⟨found, hfound, hfault⟩
    induction checks with
    | nil => cases hfound
    | cons check rest ih =>
        by_cases hhere : check.fault
        · exact ⟨check.failure, .here hhere⟩
        · rcases List.mem_cons.mp hfound with rfl | hlater
          · exact absurd hfault hhere
          · obtain ⟨failure, hfirst⟩ := ih hlater
            exact ⟨failure, .later hhere hfirst⟩

end FirstFault

/-- A computation fails exactly as the first fault among the checks says. -/
def GuardedBy {α : Type} (result : Except StoreError α) (checks : List Check) : Prop :=
  ∀ failure, result = .error failure ↔ FirstFault checks failure

namespace GuardedBy

variable {α β : Type} {result : Except StoreError α} {checks rest : List Check}

theorem ok (value : α) : GuardedBy (.ok value) [] := by
  intro failure
  constructor
  · intro herror
    cases herror
  · intro hfirst
    cases hfirst

/-- A check that comes first decides, unless it finds no fault. -/
theorem cons {check : Check} (hfault : check.fault → result = .error check.failure)
    (hpass : ¬ check.fault → GuardedBy result rest) : GuardedBy result (check :: rest) := by
  intro failure
  by_cases hhere : check.fault
  · rw [hfault hhere]
    constructor
    · intro herror
      cases herror
      exact .here hhere
    · intro hfirst
      rw [hfirst.eq_of_fault hhere]
  · rw [hpass hhere failure]
    exact ⟨.later hhere, fun hfirst => hfirst.of_pass hhere⟩

theorem ite {condition fault : Prop} [Decidable condition] {failure : StoreError}
    (hsame : condition ↔ fault) (hpass : ¬ fault → GuardedBy result rest) :
    GuardedBy (if condition then .error failure else result) (⟨fault, failure⟩ :: rest) := by
  refine cons (fun hfault => if_pos (hsame.mpr hfault)) fun hnot => ?_
  rw [if_neg fun hcondition => hnot (hsame.mp hcondition)]
  exact hpass hnot

/-- A computation that goes on with the result of its first part is checked further if the first
part succeeds. -/
theorem followed {first : Except StoreError β} (hfirst : GuardedBy first checks)
    (herror : ∀ failure, first = .error failure → result = .error failure)
    (hok : ∀ value, first = .ok value → GuardedBy result rest) :
    GuardedBy result (checks ++ rest) := by
  induction checks with
  | nil =>
      cases first with
      | ok value => exact hok value rfl
      | error failure => cases (hfirst failure).mp rfl
  | cons check more ih =>
      refine cons (fun hfault => herror _ ((hfirst _).mpr (.here hfault))) fun hpass => ?_
      refine ih fun failure => (hfirst failure).trans ?_
      exact ⟨fun hlater => hlater.of_pass hpass, .later hpass⟩

theorem map (hresult : GuardedBy result checks) (change : α → β) :
    GuardedBy (result.map change) checks := by
  intro failure
  rw [← hresult failure]
  cases result with
  | ok value => exact iff_of_false nofun nofun
  | error other => simp [Except.map]

/-- A guarded computation succeeds exactly if no check finds a fault. -/
theorem exists_ok_iff (hresult : GuardedBy result checks) :
    (∃ value, result = .ok value) ↔ ∀ check ∈ checks, ¬ check.fault := by
  have hfaults := FirstFault.exists_iff checks
  cases result with
  | ok value =>
      refine iff_of_true ⟨value, rfl⟩ fun check hcheck hfault => ?_
      obtain ⟨failure, hfirst⟩ := hfaults.mpr ⟨check, hcheck, hfault⟩
      cases (hresult failure).mpr hfirst
  | error failure =>
      refine iff_of_false nofun fun hpass => ?_
      obtain ⟨check, hcheck, hfault⟩ := hfaults.mp ⟨failure, (hresult failure).mp rfl⟩
      exact hpass check hcheck hfault

end GuardedBy

/-! ## The checks of each edit -/

def Target.checks (created : Nat) : Target → List Check
  | .node _ => []
  | .created index => [⟨created < index + 1, .neverCreated index⟩]

namespace Store

def referent (store : Store) : Target → NodeId
  | .node id => id
  | .created index => store.created.getD index 0

def nodeCheck (store : Store) (id : NodeId) : Check :=
  ⟨id = 0 ∨ store.nodeCount < id.toNat, .noSuchNode id⟩

def kindChecks (store : Store) (parent child : NodeId) : List Check :=
  [store.nodeCheck parent, store.nodeCheck child,
    ⟨store.kind? child = some .attribute ∨ store.kind? child = some .document, .notAChild child⟩,
    ⟨¬ (store.kind? parent = some .element ∨ store.kind? parent = some .document),
      .notAParent parent⟩]

def elementChecks (store : Store) (id : NodeId) : List Check :=
  [store.nodeCheck id, ⟨store.kind? id ≠ some .element, .notAnElement id⟩]

def roomCheck (store : Store) (needed : Prop) : Check :=
  ⟨needed ∧ store.limits.maxNodes ≤ store.nodeCount, .storeFull store.limits.maxNodes⟩

def insertChecks (store : Store) (parent child : NodeId) : List Check :=
  store.kindChecks parent child ++
    [⟨∃ other, child ∈ store.children other, .alreadyAttached child⟩,
      ⟨child = parent ∨
        Relation.TransGen (fun above below => below ∈ store.children above) child parent,
        .wouldCycle parent child⟩]

def removeChecks (store : Store) (parent child : NodeId) : List Check :=
  store.kindChecks parent child ++
    [⟨child ∉ store.children parent, .childNotFound parent child⟩]

def setChecks (store : Store) (element : NodeId) (name : Bytes) : List Check :=
  store.elementChecks element ++
    [store.roomCheck (name ∉ (store.attributePairs element).map Prod.fst)]

/-- What is checked before an edit, in this order, if its batch has created so many nodes. -/
def checks (store : Store) (created : Nat) : Edit → List Check
  | .create _ => [store.roomCheck True]
  | .insert _ parent child =>
      parent.checks created ++ (child.checks created ++
        store.insertChecks (store.referent parent) (store.referent child))
  | .remove parent child =>
      parent.checks created ++ (child.checks created ++
        store.removeChecks (store.referent parent) (store.referent child))
  | .setAttribute element name _ =>
      element.checks created ++ store.setChecks (store.referent element) name
  | .unsetAttribute element _ =>
      element.checks created ++ store.elementChecks (store.referent element)

/-! ## References -/

variable {store next : Store}

theorem referent_of_target {target : Target} {id : NodeId} (htarget : store.target target = .ok id) :
    store.referent target = id := by
  cases target with
  | node => cases htarget; rfl
  | created index =>
      rw [Store.target] at htarget
      split at htarget
      · rename_i found hfound
        cases htarget
        simp [referent, hfound]
      · cases htarget

theorem target_guarded (store : Store) (target : Target) :
    GuardedBy (store.target target) (target.checks store.created.size) := by
  cases target with
  | node id => exact .ok id
  | created index =>
      rw [Store.target, Target.checks]
      cases hfound : store.created[index]? with
      | some id =>
          have hlt := (Array.getElem?_eq_some_iff.mp hfound).1
          exact .cons (fun hfault => by simp only at hfault; omega) fun _ => .ok id
      | none =>
          have hle := Array.getElem?_eq_none_iff.mp hfound
          exact .cons (fun _ => rfl) fun hpass => absurd (Nat.lt_succ_of_le hle) hpass

/-- A computation on the node that a reference denotes checks the reference first. -/
theorem guarded_of_target {α : Type} {target : Target}
    {change : NodeId → Except StoreError α} {rest : List Check}
    (hchange : GuardedBy (change (store.referent target)) rest) :
    GuardedBy (store.target target >>= change) (target.checks store.created.size ++ rest) := by
  refine (target_guarded store target).followed ?_ fun id hid => ?_
  · intro failure hfailure
    rw [hfailure]
    rfl
  · rw [hid, ← referent_of_target hid]
    exact hchange

/-! ## Nodes -/

theorem find_guarded (store : Store) (id : NodeId) :
    GuardedBy (store.table.find id) [store.nodeCheck id] := by
  have hlive : (store.table.get? id).isSome = true ↔ id ≠ 0 ∧ id.toNat ≤ store.nodeCount :=
    NodeTable.contains_iff
  unfold NodeTable.find
  cases hnode : store.table.get? id with
  | some node =>
      rw [hnode] at hlive
      obtain ⟨hzero, hle⟩ := hlive.mp rfl
      refine .cons (fun hfault => ?_) fun _ => .ok node
      rcases hfault with rfl | hgreater
      · exact absurd rfl hzero
      · exact absurd hgreater (Nat.not_lt.mpr hle)
  | none =>
      rw [hnode] at hlive
      refine .cons (fun _ => rfl) fun hpass => ?_
      have hfault : id = 0 ∨ store.nodeCount < id.toNat := by
        by_contra hnone
        rw [not_or, Nat.not_lt] at hnone
        cases hlive.mpr hnone
      exact absurd hfault hpass

theorem kind?_of_find {id : NodeId} {node : Node} (hfind : store.table.find id = .ok node) :
    store.kind? id = some node.kind := by
  have hnode : store.get? id = some node := NodeTable.find_eq_ok hfind
  rw [kind?, hnode, Option.map_some]

theorem checkKinds_guarded (store : Store) (parent child : NodeId) :
    GuardedBy (store.table.checkKinds parent child) (store.kindChecks parent child) := by
  refine (find_guarded store parent).followed
    (fun failure hfailure => by simp only [NodeTable.checkKinds, hfailure])
    fun parentNode hparent => ?_
  refine (find_guarded store child).followed
    (fun failure hfailure => by simp only [NodeTable.checkKinds, hparent, hfailure])
    fun childNode hchild => ?_
  have hcan := Node.canBeChild_iff childNode
  have howns := Node.canHaveChildren_iff parentNode
  simp only [NodeTable.checkKinds, hparent, hchild]
  refine .ite ?_ fun _ => .ite ?_ fun _ => .ok childNode
  · rw [kind?_of_find hchild, Bool.not_eq_true', Bool.eq_false_iff, ne_eq, hcan]
    simp only [Option.some.injEq]
    tauto
  · rw [kind?_of_find hparent, Bool.not_eq_true', Bool.eq_false_iff, ne_eq, howns]
    simp only [Option.some.injEq]
    tauto

theorem checkElement_guarded (store : Store) (element : NodeId) :
    GuardedBy (store.table.checkElement element) (store.elementChecks element) := by
  refine (find_guarded store element).followed
    (fun failure hfailure => by simp only [NodeTable.checkElement, hfailure]) fun node hnode => ?_
  simp only [NodeTable.checkElement, hnode, ← ite_not (node.kind = .element)]
  refine .ite ?_ fun _ => .ok ()
  simp [kind?_of_find hnode]

/-- Walking up from the parent meets the child exactly if the parent lies below it. -/
theorem checkInsert_guarded (hstore : store.Sound) (parent child : NodeId) :
    GuardedBy (store.table.checkInsert parent child) (store.insertChecks parent child) := by
  refine (checkKinds_guarded store parent child).followed
    (fun failure hfailure => by simp only [NodeTable.checkInsert, hfailure])
    fun childNode hkinds => ?_
  obtain ⟨hnode, hcan, links, hlinks⟩ := NodeTable.checkKinds_eq_ok hkinds
  obtain ⟨-, hattribute⟩ := (Node.canBeChild_iff childNode).mp hcan
  have hfamily : store.table.family? child = some .children := by
    simp [NodeTable.family?, hnode, Node.family, hattribute]
  have hparent : store.table.parent? child = childNode.parent := by
    simp [NodeTable.parent?, hnode]
  simp only [NodeTable.checkInsert, hkinds]
  refine .ite ?_ fun _ => .ite ?_ fun _ => .ok ()
  · rw [← hparent]
    exact NodeTable.isSome_parent?_iff hstore.wellFormed hfamily
  · rw [List.contains_iff_mem, NodeTable.mem_lineage_iff hstore.wellFormed hlinks, Forest.Above,
      Relation.reflTransGen_iff_eq_or_transGen, eq_comm]
    rfl

theorem checkRemove_guarded (store : Store) (parent child : NodeId) :
    GuardedBy (store.table.checkRemove parent child) (store.removeChecks parent child) := by
  refine (checkKinds_guarded store parent child).followed
    (fun failure hfailure => by simp only [NodeTable.checkRemove, hfailure]) fun _ hkinds => ?_
  simp only [NodeTable.checkRemove, hkinds, List.contains_iff_mem,
    ← ite_not (child ∈ store.table.children parent)]
  exact .ite Iff.rfl fun _ => .ok ()

/-! ## Edits -/

theorem create_guarded (store : Store) (seed : Seed) :
    GuardedBy (store.apply (.create seed)) [store.roomCheck True] := by
  rw [apply_create, ← ite_not]
  refine .ite ?_ fun _ => .ok _
  rw [true_and, Nat.not_le, Nat.lt_succ_iff]

theorem insert_guarded (hstore : store.Sound) (place : Place) (parent child : NodeId) :
    GuardedBy (store.insert place parent child) (store.insertChecks parent child) := by
  have hmap : store.insert place parent child = (store.table.checkInsert parent child).map
      fun _ => { store with table := store.table.attach place .children parent child } := by
    unfold Store.insert
    cases store.table.checkInsert parent child <;> rfl
  rw [hmap]
  exact (checkInsert_guarded hstore parent child).map _

theorem remove_guarded (store : Store) (parent child : NodeId) :
    GuardedBy (store.remove parent child) (store.removeChecks parent child) := by
  have hmap : store.remove parent child = (store.table.checkRemove parent child).map
      fun _ => { store with table := store.table.detach .children parent child } := by
    unfold Store.remove
    cases store.table.checkRemove parent child <;> rfl
  rw [hmap]
  exact (checkRemove_guarded store parent child).map _

section Attributes

variable (hstore : store.Sound) (hsmall : store.pool.bytesUsed < UInt32.size) (element : NodeId)
  (name : Bytes)
include hstore hsmall

theorem setAttribute_guarded (value : Bytes) :
    GuardedBy (store.setAttribute element name value) (store.setChecks element name) := by
  refine (checkElement_guarded store element).followed
    (fun failure hfailure => by simp only [setAttribute, hfailure]) fun _ hcheck => ?_
  obtain ⟨found, hfound⟩ := hstore.findNamed_ok element (store.pool.intern name).2
  have hthere := isSome_findNamed_iff hstore hsmall hfound
  rw [setAttribute_eq value hcheck hfound]
  cases found with
  | some id => exact .cons (fun hfault => absurd (hthere.mp rfl) hfault.1) fun _ => .ok _
  | none =>
      have hname : name ∉ (store.attributePairs element).map Prod.fst :=
        mt hthere.mpr Bool.false_ne_true
      simp only [← ite_not (store.nodeCount + 1 ≤ _)]
      refine .ite ?_ fun _ => .ok _
      rw [and_iff_right hname, Nat.not_le, Nat.lt_succ_iff]

/-- Once the element is found, taking an attribute off it cannot fail any more. -/
theorem unsetAttribute_guarded :
    GuardedBy (store.unsetAttribute element name) (store.elementChecks element) := by
  rw [← List.append_nil (store.elementChecks element)]
  refine (checkElement_guarded store element).followed
    (fun failure hfailure => by simp only [unsetAttribute, hfailure]) fun _ hcheck => ?_
  have hpass := (checkElement_guarded store element).exists_ok_iff.mp ⟨_, hcheck⟩
  have hkind : store.kind? element = some .element :=
    not_not.mp (hpass _ (List.mem_cons_of_mem _ List.mem_cons_self))
  obtain ⟨after, hafter, -⟩ := exists_attributeDropped name hstore hsmall
    (show store.target (.node element) = .ok element from rfl) hkind
  have hok : store.unsetAttribute element name = .ok after := hafter
  rw [hok]
  exact .ok after

end Attributes

theorem apply_guarded (hstore : store.Sound) (hsmall : store.pool.bytesUsed < UInt32.size)
    (edit : Edit) : GuardedBy (store.apply edit) (store.checks store.created.size edit) := by
  cases edit with
  | create seed => exact create_guarded store seed
  | insert place parent child =>
      exact guarded_of_target (guarded_of_target (insert_guarded hstore place _ _))
  | remove parent child => exact guarded_of_target (guarded_of_target (remove_guarded store _ _))
  | setAttribute element name value =>
      exact guarded_of_target (setAttribute_guarded hstore hsmall _ name value)
  | unsetAttribute element name =>
      exact guarded_of_target (unsetAttribute_guarded hstore hsmall _ name)

/-! ## Reachable stores -/

/-- An edit that creates a node lists it, and no other edit does. -/
theorem Applied.size_created {edit : Edit} (happlied : store.Applied edit next) :
    next.created.size = store.created.size + if edit.isCreation then 1 else 0 := by
  cases happlied with
  | create => exact Array.size_push _
  | insert => rfl
  | remove => rfl
  | setKnown => rfl
  | setNew => rfl
  | unsetUnknown => rfl
  | unset => rfl

/-- A batch lists as many nodes as it has edits that create one. -/
theorem size_created_of_foldlM_apply {edits : List Edit}
    (hrun : edits.foldlM apply store = .ok next) :
    next.created.size = store.created.size + edits.countP Edit.isCreation := by
  induction edits generalizing store with
  | nil =>
      cases hrun
      rfl
  | cons edit rest ih =>
      rw [List.foldlM_cons] at hrun
      obtain ⟨middle, hmiddle, hrest⟩ := bind_eq_ok hrun
      rw [ih hrest, (applied_of_apply hmiddle).size_created, List.countP_cons]
      omega

theorem commit_eq_error {front : List Edit} {edit : Edit} {failure : StoreError}
    (hfront : front.foldlM apply store.next = .ok next) (hedit : next.apply edit = .error failure)
    (back : List Edit) : store.commit (front ++ edit :: back) = .error failure := by
  rw [commit, List.foldlM_append, hfront]
  simp only [bind, Except.bind, List.foldlM_cons, hedit]

/-- Wherever a batch has come to, an edit fails exactly if one of its checks finds a fault, and the
first one that does tells the failure.  A node is a child exactly of its parent, and so a child is
not found exactly if its parent is another one or none.  With an edit that fails, the whole batch
fails. -/
theorem Reachable.apply_guarded_by_checks (hstore : store.Reachable) {front : List Edit}
    {middle : Store} (hfront : front.foldlM apply store.next = .ok middle)
    (hsmall : middle.pool.bytesUsed < UInt32.size) (edit : Edit) :
    (∀ failure, middle.apply edit = .error failure ↔
      FirstFault (middle.checks (front.countP Edit.isCreation) edit) failure) ∧
    ((∃ after, middle.apply edit = .ok after) ↔
      ∀ check ∈ middle.checks (front.countP Edit.isCreation) edit, ¬ check.fault) ∧
    (∀ parent child, middle.kind? child ≠ some .attribute →
      (child ∉ middle.children parent ↔ middle.parent? child ≠ some parent)) ∧
    ∀ failure back, middle.apply edit = .error failure →
      store.commit (front ++ edit :: back) = .error failure := by
  have hsound := hstore.sound.of_next.of_foldlM_apply hfront
  have hcount : middle.created.size = front.countP Edit.isCreation := by
    rw [size_created_of_foldlM_apply hfront]
    exact Nat.zero_add _
  have hguarded := apply_guarded hsound hsmall edit
  rw [hcount] at hguarded
  refine ⟨hguarded, hguarded.exists_ok_iff, fun parent child hkind => not_congr ?_,
    fun failure back hedit => commit_eq_error hfront hedit back⟩
  rw [hsound.mem_children, and_iff_right hkind]

/-- An element that has been taken out cannot be put below its own child, and a batch that has created
one node cannot refer to a second. -/
theorem Reachable.apply_guarded_by_checks_cycle :
    ∃ store middle : Store, store.Reachable ∧
      [.remove (.node 1) (.node 2), .create (.leaf .text [])].foldlM apply store.next = .ok middle ∧
      middle.pool.bytesUsed < UInt32.size ∧ middle.children 2 = [3] ∧
      FirstFault (middle.checks 1 (.insert .first (.node 3) (.node 2))) (.wouldCycle 3 2) ∧
      store.commit [.remove (.node 1) (.node 2), .create (.leaf .text []),
        .insert .first (.node 3) (.node 2)] = .error (.wouldCycle 3 2) ∧
      FirstFault (middle.checks 1 (.remove (.created 1) (.node 0))) (.neverCreated 1) := by
  obtain ⟨store, middle, hfirst, hfront, hsmall, hchildren, hcycle, hnever⟩ :
      ∃ store middle : Store, (Store.empty {}).commit
          [.create (.element [0x61]), .create (.element [0x62]),
            .insert .last (.node 1) (.created 0), .insert .last (.created 0) (.created 1)] =
          .ok store ∧
        [.remove (.node 1) (.node 2), .create (.leaf .text [])].foldlM apply store.next =
          .ok middle ∧
        middle.pool.bytesUsed < UInt32.size ∧ middle.children 2 = [3] ∧
        middle.apply (.insert .first (.node 3) (.node 2)) = .error (.wouldCycle 3 2) ∧
        middle.apply (.remove (.created 1) (.node 0)) = .error (.neverCreated 1) :=
    ⟨_, _, by cbv, by cbv, by decide, by decide, by cbv, by cbv⟩
  have hstore : store.Reachable := .commit _ (.empty {}) hfirst
  obtain ⟨hinsert, -, -, hcommit⟩ := hstore.apply_guarded_by_checks hfront hsmall
    (.insert .first (.node 3) (.node 2))
  obtain ⟨hremove, -⟩ := hstore.apply_guarded_by_checks hfront hsmall
    (.remove (.created 1) (.node 0))
  exact ⟨store, middle, hstore, hfront, hsmall, hchildren, (hinsert _).mp hcycle,
    hcommit _ [] hcycle, (hremove _).mp hnever⟩

end Store

end VersionedXml
