import Mathlib.Data.FinEnum
import Mathlib.Logic.Function.Basic
import Mathlib.Logic.Relation
import VersionedXml.Proofs.Store.Answers

/-!
# Stores as forests

A store without its links is an ordered forest: every node has a kind and a list of children.
Inserting and removing children are operations on such forests that know nothing of first and last
nodes, of counts or of next siblings.  A batch of such edits does the same to a reachable store and
to its forest, and fails on both for the same reason.
-/

namespace VersionedXml

/-- The kinds and the children of all nodes. -/
structure Forest where
  kind? : NodeId → Option NodeKind
  children : NodeId → List NodeId

namespace Forest

/-- The second node is the first one, or it lies below it. -/
def Above (forest : Forest) : NodeId → NodeId → Prop :=
  Relation.ReflTransGen fun parent child => child ∈ forest.children parent

def target : Target → Except StoreError NodeId
  | .node id => .ok id
  | .created index => .error (.neverCreated index)

def checkKinds (forest : Forest) (parent child : NodeId) : Except StoreError Unit :=
  match forest.kind? parent, forest.kind? child with
  | none, _ => .error (.noSuchNode parent)
  | some _, none => .error (.noSuchNode child)
  | some parentKind, some childKind =>
      if childKind = .document ∨ childKind = .attribute then .error (.notAChild child)
      else if parentKind = .document ∨ parentKind = .element then .ok ()
      else .error (.notAParent parent)

open scoped Classical in
noncomputable def insert (forest : Forest) (place : Place) (parent child : NodeId) :
    Except StoreError Forest :=
  match forest.checkKinds parent child with
  | .error failure => .error failure
  | .ok _ =>
      if ∃ other, child ∈ forest.children other then .error (.alreadyAttached child)
      else if forest.Above child parent then .error (.wouldCycle parent child)
      else .ok { forest with
        children := Function.update forest.children parent
          (place.extend child (forest.children parent)) }

def remove (forest : Forest) (parent child : NodeId) : Except StoreError Forest :=
  match forest.checkKinds parent child with
  | .error failure => .error failure
  | .ok _ =>
      if child ∈ forest.children parent then
        .ok { forest with
          children := Function.update forest.children parent
            ((forest.children parent).erase child) }
      else .error (.childNotFound parent child)

noncomputable def apply (forest : Forest) (edit : Edit) : Except StoreError Forest :=
  match edit with
  | .insert place parent child => do
      let parent ← target parent
      let child ← target child
      forest.insert place parent child
  | .remove parent child => do
      let parent ← target parent
      let child ← target child
      forest.remove parent child
  | _ => .ok forest

end Forest

def Edit.isOfChildren : Edit → Bool
  | insert _ _ _ => true
  | remove _ _ => true
  | _ => false

namespace NodeTable

def forest (table : NodeTable) : Forest :=
  ⟨table.kind?, table.children⟩

variable {table : NodeTable} {parent child : NodeId}

/-- What the check of kinds looks at is in the forest. -/
theorem checkKinds_forest (table : NodeTable) (parent child : NodeId) :
    (table.checkKinds parent child).map (fun _ => ()) = table.forest.checkKinds parent child := by
  simp only [checkKinds, Forest.checkKinds, forest, kind?, find]
  cases hparent : table.get? parent with
  | none => rfl
  | some parentNode =>
      cases hchild : table.get? child with
      | none => rfl
      | some childNode =>
          have hcan := Node.canBeChild_iff childNode
          have howns := Node.canHaveChildren_iff parentNode
          simp only [Option.map_some]
          by_cases hkind : childNode.kind = .document ∨ childNode.kind = .attribute
          · have hno : childNode.canBeChild = false := by
              rw [Bool.eq_false_iff, ne_eq, hcan]
              tauto
            rw [if_pos hkind, hno]
            rfl
          · have hyes : childNode.canBeChild = true := by
              rw [hcan]
              tauto
            rw [if_neg hkind, hyes]
            by_cases hlist : parentNode.kind = .document ∨ parentNode.kind = .element
            · rw [if_pos hlist, howns.mpr hlist]
              rfl
            · have hnone : parentNode.canHaveChildren = false := by
                rw [Bool.eq_false_iff, ne_eq, howns]
                exact hlist
              rw [if_neg hlist, hnone]
              rfl

theorem isSome_parent?_iff (hwf : table.WellFormed) (hfamily : table.family? child = some .children) :
    (table.parent? child).isSome = true ↔ ∃ other, child ∈ table.forest.children other := by
  rw [Option.isSome_iff_exists]
  refine exists_congr fun other => ?_
  refine Iff.trans ?_ hwf.mem_members.symm
  simp [hfamily]

/-- Above a node that has children, the lineage consists of the nodes of which it is a child, a
child's child, and so on. -/
theorem mem_lineage_iff (hwf : table.WellFormed) {links : Links}
    (hlinks : table.links? .children parent = some links) :
    child ∈ table.lineage parent ↔ table.forest.Above child parent := by
  have hchain := hwf.lineage_chain (contains_of_links? hlinks)
  constructor
  · intro hchild
    generalize table.lineage parent = ids at hchain hchild
    induction ids generalizing parent links with
    | nil => cases hchild
    | cons first rest ih =>
        obtain ⟨hfirst, hrest⟩ := hchain
        cases hfirst
        rcases List.mem_cons.mp hchild with rfl | hchild
        · exact .refl
        · cases hparent : table.parent? first with
          | none =>
              rw [hparent] at hrest
              cases rest with
              | nil => cases hchild
              | cons second more => cases hrest.1
          | some above =>
              have hmember : first ∈ table.children above := by
                refine hwf.mem_members.mpr ⟨?_, hparent⟩
                exact family?_of_links?_children hlinks
              obtain ⟨aboveLinks, haboveLinks⟩ := exists_links?_of_mem hmember
              rw [hparent] at hrest
              exact (ih haboveLinks hrest hchild).tail hmember
  · intro habove
    induction habove using Relation.ReflTransGen.head_induction_on with
    | refl =>
        generalize table.lineage parent = ids at hchain
        cases ids with
        | nil => cases hchain
        | cons first rest =>
            cases hchain.1
            exact List.mem_cons_self
    | head hstep _ ih =>
        exact hchain.mem_of_link ih (hwf.mem_members.mp hstep).2

/-- What the check of an insertion looks at is in the forest. -/
theorem forest_insert (hwf : table.WellFormed) (place : Place) (parent child : NodeId) :
    (table.checkInsert parent child).map
        (fun _ => (table.attach place .children parent child).forest) =
      table.forest.insert place parent child := by
  have hkinds := checkKinds_forest table parent child
  unfold checkInsert Forest.insert
  rw [← hkinds]
  cases hcheck : table.checkKinds parent child with
  | error failure => rfl
  | ok node =>
      obtain ⟨hnode, hcan, links, hlinks⟩ := checkKinds_eq_ok hcheck
      obtain ⟨hdocument, hattribute⟩ := (Node.canBeChild_iff node).mp hcan
      have hfamily : table.family? child = some .children := by
        simp [family?, hnode, Node.family, hattribute]
      have hkind : table.kind? child ≠ some .document := by simpa [kind?, hnode] using hdocument
      have hparent : table.parent? child = node.parent := by simp [parent?, hnode]
      have hattached := isSome_parent?_iff hwf hfamily
      have habove : child ∈ table.lineage parent ↔ table.forest.Above child parent :=
        mem_lineage_iff hwf hlinks
      rw [hparent] at hattached
      simp only [Except.map]
      by_cases hsome : node.parent.isSome = true
      · rw [if_pos hsome, if_pos (hattached.mp hsome)]
      · rw [if_neg hsome, if_neg (fun h => hsome (hattached.mpr h))]
        by_cases hmember : child ∈ table.lineage parent
        · rw [if_pos (by simpa using hmember), if_pos (habove.mp hmember)]
        · rw [if_neg (by simpa using hmember), if_neg (fun h => hmember (habove.mpr h))]
          have hdetached : table.parent? child = none := by simpa [hparent] using hsome
          have hmoved := attach_relinked hwf place hlinks (contains_of_family? hfamily) hdetached
          obtain ⟨-, hmembers⟩ := attach_wellFormed hwf place hlinks hfamily hkind hdetached hmember
          have hchildren : (table.attach place .children parent child).children =
              Function.update table.children parent (place.extend child (table.children parent)) := by
            funext x
            rw [children, hmembers, Function.update_apply]
            simp [children]
          simp only [forest, hchildren, funext hmoved.kind?]

/-- What the check of a removal looks at is in the forest. -/
theorem forest_remove (hwf : table.WellFormed) (parent child : NodeId) :
    (table.checkRemove parent child).map
        (fun _ => (table.detach .children parent child).forest) =
      table.forest.remove parent child := by
  have hkinds := checkKinds_forest table parent child
  unfold checkRemove Forest.remove
  rw [← hkinds]
  cases hcheck : table.checkKinds parent child with
  | error failure => rfl
  | ok node =>
      have hsame : (table.children parent).contains child = true ↔
          child ∈ table.forest.children parent := List.contains_iff_mem
      simp only [Except.map]
      by_cases hmember : child ∈ table.forest.children parent
      · rw [if_pos (hsame.mpr hmember), if_pos hmember]
        have hmoved := detach_relinked hwf hmember
        obtain ⟨-, hmembers⟩ := detach_wellFormed hwf hmember
        have hchildren : (table.detach .children parent child).children =
            Function.update table.children parent ((table.children parent).erase child) := by
          funext x
          rw [children, hmembers, Function.update_apply]
          simp [children]
        simp only [forest, hchildren, funext hmoved.kind?]
      · rw [if_neg fun h => hmember (hsame.mp h), if_neg hmember]

end NodeTable

namespace Store

def forest (store : Store) : Forest :=
  store.table.forest

variable {store : Store}

theorem target_of_created (hcreated : store.created = #[]) (target : Target) :
    store.target target = Forest.target target := by
  cases target with
  | node id => rfl
  | created index => simp [Store.target, Forest.target, hcreated]

/-- A store to which no node has been added yet does with an edit of children what its forest
does. -/
theorem map_forest_apply (hstore : store.Sound) (hcreated : store.created = #[]) {edit : Edit}
    (hedit : edit.isOfChildren = true) :
    (store.apply edit).map forest = store.forest.apply edit := by
  match edit with
  | .insert place parent child =>
      simp only [apply, Forest.apply, target_of_created hcreated]
      cases Forest.target parent with
      | error failure => rfl
      | ok parentId =>
          cases Forest.target child with
          | error failure => rfl
          | ok childId =>
              have hsame := NodeTable.forest_insert hstore.wellFormed place parentId childId
              refine Eq.trans ?_ hsame
              simp only [bind, Except.bind, insert]
              cases store.table.checkInsert parentId childId <;> rfl
  | .remove parent child =>
      simp only [apply, Forest.apply, target_of_created hcreated]
      cases Forest.target parent with
      | error failure => rfl
      | ok parentId =>
          cases Forest.target child with
          | error failure => rfl
          | ok childId =>
              have hsame := NodeTable.forest_remove hstore.wellFormed parentId childId
              refine Eq.trans ?_ hsame
              simp only [bind, Except.bind, remove]
              cases store.table.checkRemove parentId childId <;> rfl
  | .create _ => cases hedit
  | .setAttribute _ _ _ => cases hedit
  | .unsetAttribute _ _ => cases hedit

theorem created_of_apply {next : Store} {edit : Edit} (hedit : edit.isOfChildren = true)
    (hnext : store.apply edit = .ok next) : next.created = store.created := by
  cases applied_of_apply hnext with
  | insert => rfl
  | remove => rfl
  | create => cases hedit
  | setKnown => cases hedit
  | setNew => cases hedit
  | unsetUnknown => cases hedit
  | unset => cases hedit

/-- A run of edits of children does the same to a store and to its forest. -/
theorem map_forest_foldlM_apply (hstore : store.Sound) (hcreated : store.created = #[])
    {edits : List Edit} (hedits : ∀ edit ∈ edits, edit.isOfChildren = true) :
    (edits.foldlM apply store).map forest = edits.foldlM Forest.apply store.forest := by
  induction edits generalizing store with
  | nil => rfl
  | cons edit rest ih =>
      have hedit := hedits edit List.mem_cons_self
      have hstep := map_forest_apply hstore hcreated hedit
      rw [List.foldlM_cons, List.foldlM_cons, ← hstep]
      cases happly : store.apply edit with
      | error failure => rfl
      | ok next =>
          refine ih (hstore.of_applied (applied_of_apply happly)) ?_
            (fun other hother => hedits other (List.mem_cons_of_mem edit hother))
          rw [created_of_apply hedit happly, hcreated]

/-! ## One edit -/

/-- The child `child` has moved to `place`, the children of `parent` are `ids` now, and nothing else
differs. -/
structure ChildMoved (before after : Store) (parent child : NodeId) (place : Option NodeId)
    (ids : List NodeId) : Prop where
  children : after.children parent = ids
  parent? : after.parent? child = place
  childCount : after.childCount parent = ids.length
  firstChild? : after.firstChild? parent = ids.head?
  lastChild? : after.lastChild? parent = ids.getLast?
  otherChildren : ∀ id, id ≠ parent → after.children id = before.children id
  otherParents : ∀ id, id ≠ child → after.parent? id = before.parent? id
  attributes : ∀ id, after.attributes id = before.attributes id
  kind? : ∀ id, after.kind? id = before.kind? id
  name? : ∀ id, after.name? id = before.name? id
  value? : ∀ id, after.value? id = before.value? id
  content? : ∀ id, after.content? id = before.content? id

/-- Moving a node in the table moves a child of the store. -/
theorem childMoved_of_relinked {after : NodeTable} {parent child : NodeId} {place : Option NodeId}
    {ids : List NodeId}
    (hmoved : NodeTable.Relinked store.table after .children parent child place ids)
    (hmembers : ∀ asked x, after.members asked x =
      if asked = .children ∧ x = parent then ids else store.table.members asked x) :
    ChildMoved store { store with table := after } parent child place ids := by
  obtain ⟨links, hlinks, hlist⟩ := hmoved.isList
  have hstrings := sameStrings_of_relinked hmoved
  refine ⟨?_, ?_, ?_, ?_, ?_, ?_, ?_, ?_, ?_, ?_, ?_, ?_⟩
  · exact (hmembers .children parent).trans (if_pos ⟨rfl, rfl⟩)
  · exact (hmoved.parent? child).trans (if_pos rfl)
  · simp [childCount, hlinks, hlist.count]
  · simp [firstChild?, hlinks, hlist.chain.head?_eq]
  · simp [lastChild?, hlinks, hlist.last]
  · intro id hid
    exact (hmembers .children id).trans (if_neg fun h => hid h.2)
  · intro id hid
    exact (hmoved.parent? id).trans (if_neg hid)
  · intro id
    refine (hmembers .attributes id).trans (if_neg ?_)
    rintro ⟨hfamily, -⟩
    cases hfamily
  · exact hmoved.kind?
  · exact fun id => (hstrings id).name?
  · exact fun id => (hstrings id).value?
  · exact fun id => (hstrings id).content?

theorem childMoved_of_insert (hstore : store.Sound) {place : Place} {parent child : NodeId}
    (hcheck : store.table.checkInsert parent child = .ok ()) :
    ChildMoved store { store with table := store.table.attach place .children parent child }
      parent child (some parent) (place.extend child (store.children parent)) := by
  have hwf := hstore.wellFormed
  have hinsert := NodeTable.insertable_of_checkInsert hcheck
  exact childMoved_of_relinked (hinsert.relinked hwf place) (hinsert.members_eq hwf place)

theorem childMoved_of_remove (hstore : store.Sound) {parent child : NodeId}
    (hcheck : store.table.checkRemove parent child = .ok ()) :
    ChildMoved store { store with table := store.table.detach .children parent child }
      parent child none ((store.children parent).erase child) := by
  have hchild := NodeTable.mem_children_of_checkRemove hcheck
  exact childMoved_of_relinked (NodeTable.detach_relinked hstore.wellFormed hchild)
    (NodeTable.detach_wellFormed hstore.wellFormed hchild).2

/-- A reachable store refines an ordered forest.  Wherever a batch has come to, an insertion puts
the child at an end of the list of its parent, a removal erases it from there, and nothing else
differs.  A batch of insertions and removals does to the store what it does to the forest. -/
theorem Reachable.refines_forest (hstore : store.Reachable) :
    (∀ (edits : List Edit) (before after : Store) (parent child : Target) (parentId childId : NodeId),
      edits.foldlM apply store.next = .ok before →
      before.target parent = .ok parentId → before.target child = .ok childId →
      (before.apply (.insert .last parent child) = .ok after →
        ChildMoved before after parentId childId (some parentId)
          (before.children parentId ++ [childId])) ∧
      (before.apply (.insert .first parent child) = .ok after →
        ChildMoved before after parentId childId (some parentId)
          (childId :: before.children parentId)) ∧
      (before.apply (.remove parent child) = .ok after →
        ChildMoved before after parentId childId none
          ((before.children parentId).erase childId))) ∧
    ∀ edits : List Edit, (∀ edit ∈ edits, edit.isOfChildren = true) →
      (store.commit edits).map forest = edits.foldlM Forest.apply store.forest := by
  have hnext : store.next.Sound := hstore.sound.of_next
  constructor
  · intro edits before after parent child parentId childId hbefore hparent hchild
    have hsound := hnext.of_foldlM_apply hbefore
    refine ⟨?_, ?_, ?_⟩
    · intro hafter
      cases applied_of_apply hafter with
      | insert _ hparent' hchild' hcheck =>
          cases hparent.symm.trans hparent'
          cases hchild.symm.trans hchild'
          exact childMoved_of_insert hsound hcheck
    · intro hafter
      cases applied_of_apply hafter with
      | insert _ hparent' hchild' hcheck =>
          cases hparent.symm.trans hparent'
          cases hchild.symm.trans hchild'
          exact childMoved_of_insert hsound hcheck
    · intro hafter
      cases applied_of_apply hafter with
      | remove hparent' hchild' hcheck =>
          cases hparent.symm.trans hparent'
          cases hchild.symm.trans hchild'
          exact childMoved_of_remove hsound hcheck
  · intro edits hedits
    have hrun := map_forest_foldlM_apply hnext rfl hedits
    refine Eq.trans ?_ hrun
    unfold Store.commit
    cases edits.foldlM apply store.next <;> rfl

/-- Two texts change places in the store and in its forest. -/
theorem Reachable.refines_forest_exchange :
    ∃ store next : Store, store.Reachable ∧ store.children rootId = [2, 3] ∧
      store.commit [.remove (.node 1) (.node 2), .insert .last (.node 1) (.node 2)] = .ok next ∧
      next.children rootId = [3, 2] ∧
      [.remove (.node 1) (.node 2), .insert .last (.node 1) (.node 2)].foldlM Forest.apply
        store.forest = .ok next.forest := by
  have hstore : Reachable _ := .commit
    [.create (.leaf .text []), .create (.leaf .text []), .insert .last (.node 1) (.created 0),
      .insert .last (.node 1) (.created 1)] (.empty {}) rfl
  refine ⟨_, _, hstore, by decide, rfl, by decide, ?_⟩
  exact (hstore.refines_forest.2 _ (by decide)).symm

end Store

end VersionedXml
