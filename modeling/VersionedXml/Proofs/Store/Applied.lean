import VersionedXml.Proofs.NodeTable.Changes
import VersionedXml.Store

/-!
# What an edit does

Each edit that does not fail makes one of seven changes to a store.  The checks that come first are
restated through the views of the table, so that nothing later has to look into an edit again.
-/

namespace VersionedXml

namespace NodeTable

structure Insertable (table : NodeTable) (parent child : NodeId) : Prop where
  links : ∃ links, table.links? .children parent = some links
  family : table.family? child = some .children
  kind : table.kind? child ≠ some .document
  detached : table.parent? child = none
  above : child ∉ table.lineage parent

theorem find_eq_ok {table : NodeTable} {id : NodeId} {node : Node}
    (hfind : table.find id = .ok node) : table.get? id = some node := by
  unfold find at hfind
  split at hfind
  · rename_i found hfound
    cases hfind
    exact hfound
  · cases hfind

/-- The child, whose kind allows it to be one, and the parent's list. -/
theorem checkKinds_eq_ok {table : NodeTable} {parent child : NodeId} {node : Node}
    (hcheck : table.checkKinds parent child = .ok node) :
    table.get? child = some node ∧ node.canBeChild = true ∧
      ∃ links, table.links? .children parent = some links := by
  unfold checkKinds at hcheck
  split at hcheck
  · cases hcheck
  · cases hcheck
  · rename_i parentNode childNode hparent hchild
    split at hcheck
    · cases hcheck
    · rename_i hcan
      split at hcheck
      · cases hcheck
      · rename_i howns
        cases hcheck
        refine ⟨find_eq_ok hchild, by simpa using hcan, ?_⟩
        have howns' : parentNode.canHaveChildren = true := by simpa using howns
        obtain ⟨links, hlinks⟩ := Option.isSome_iff_exists.mp howns'
        exact ⟨links, by simp [links?, find_eq_ok hparent, hlinks]⟩

theorem insertable_of_checkInsert {table : NodeTable} {parent child : NodeId}
    (hcheck : table.checkInsert parent child = .ok ()) : table.Insertable parent child := by
  unfold checkInsert at hcheck
  split at hcheck
  · cases hcheck
  · rename_i node hkinds
    obtain ⟨hnode, hcan, hlinks⟩ := checkKinds_eq_ok hkinds
    obtain ⟨hdocument, hattribute⟩ := (Node.canBeChild_iff node).mp hcan
    split at hcheck
    · cases hcheck
    · rename_i hdetached
      split at hcheck
      · cases hcheck
      · rename_i habove
        refine ⟨hlinks, ?_, ?_, ?_, by simpa using habove⟩
        · simp [family?, hnode, Node.family, hattribute]
        · simpa [kind?, hnode] using hdocument
        · simpa [parent?, hnode] using hdetached

theorem mem_children_of_checkRemove {table : NodeTable} {parent child : NodeId}
    (hcheck : table.checkRemove parent child = .ok ()) : child ∈ table.children parent := by
  unfold checkRemove at hcheck
  split at hcheck
  · cases hcheck
  · split at hcheck
    · rename_i hmember
      simpa using hmember
    · cases hcheck

theorem links?_of_checkElement {table : NodeTable} {id : NodeId}
    (hcheck : table.checkElement id = .ok ()) :
    ∃ links, table.links? .attributes id = some links := by
  unfold checkElement at hcheck
  split at hcheck
  · cases hcheck
  · rename_i node hfind
    split at hcheck
    · rename_i hkind
      have hsome := (Node.isSome_links?_attributes_iff node).mpr hkind
      obtain ⟨links, hlinks⟩ := Option.isSome_iff_exists.mp hsome
      exact ⟨links, by simp [links?, find_eq_ok hfind, hlinks]⟩
    · cases hcheck

def name? (table : NodeTable) (id : NodeId) : Option StrId :=
  (table.get? id).bind Node.name?

theorem name?_eq_label? (table : NodeTable) (id : NodeId) :
    table.name? id = (table.label? id).bind fun label => label.2.1 := by
  unfold name? label?
  cases table.get? id <;> rfl

/-- Searching for a name finds the first attribute that has it, if there is one. -/
theorem findNamed_eq_ok {table : NodeTable} {name : StrId} {ids : List NodeId}
    {found : Option NodeId} (hfound : table.findNamed name ids = .ok found) :
    match found with
    | some id => id ∈ ids ∧ table.name? id = some name ∧ table.kind? id = some .attribute
    | none => ∀ id ∈ ids, table.name? id ≠ some name := by
  induction ids with
  | nil =>
      cases hfound
      exact fun id hid => absurd hid List.not_mem_nil
  | cons first rest ih =>
      simp only [findNamed] at hfound
      split at hfound
      · rename_i held value hdata
        obtain ⟨node, hnode, hnodeData⟩ := Option.map_eq_some_iff.mp hdata
        have hname : table.name? first = some held := by
          simp [name?, hnode, Node.name?, hnodeData]
        split at hfound
        · rename_i hsame
          cases hfound
          refine ⟨List.mem_cons_self, hsame ▸ hname, ?_⟩
          simp [kind?, hnode, Node.kind, hnodeData]
        · rename_i hne
          have hrest := ih hfound
          cases found with
          | some id =>
              obtain ⟨hid, hrest⟩ := hrest
              exact ⟨List.mem_cons_of_mem first hid, hrest⟩
          | none =>
              intro id hid
              rcases List.mem_cons.mp hid with rfl | hid
              · rw [hname]
                exact fun heq => hne (Option.some.inj heq)
              · exact hrest id hid
      · cases hfound

end NodeTable

namespace Store

/-- The changes that edits make.  References to nodes are resolved. -/
inductive Applied (store : Store) : Edit → Store → Prop where
  | create (seed : Seed) (hroom : store.table.size + 1 ≤ store.limits.maxNodes) :
      Applied store (.create seed)
        { store with
          table := store.table.push (seed.plant store.pool).2
          pool := (seed.plant store.pool).1
          created := store.created.push store.table.freshId }
  | insert (place : Place) {parent child : Target} {parentId childId : NodeId}
      (hparent : store.target parent = .ok parentId) (hchild : store.target child = .ok childId)
      (hcheck : store.table.checkInsert parentId childId = .ok ()) :
      Applied store (.insert place parent child)
        { store with table := store.table.attach place .children parentId childId }
  | remove {parent child : Target} {parentId childId : NodeId}
      (hparent : store.target parent = .ok parentId) (hchild : store.target child = .ok childId)
      (hcheck : store.table.checkRemove parentId childId = .ok ()) :
      Applied store (.remove parent child)
        { store with table := store.table.detach .children parentId childId }
  | setKnown {element : Target} {elementId id : NodeId} {name value : Bytes}
      (htarget : store.target element = .ok elementId)
      (hcheck : store.table.checkElement elementId = .ok ())
      (hfound : store.table.findNamed (store.pool.intern name).2
        (store.table.attributes elementId) = .ok (some id)) :
      Applied store (.setAttribute element name value)
        { store with
          table := store.table.modify id
            (Node.setValue ((store.pool.intern name).1.intern value).2)
          pool := ((store.pool.intern name).1.intern value).1 }
  | setNew {element : Target} {elementId : NodeId} {name value : Bytes}
      (htarget : store.target element = .ok elementId)
      (hcheck : store.table.checkElement elementId = .ok ())
      (hfound : store.table.findNamed (store.pool.intern name).2
        (store.table.attributes elementId) = .ok none)
      (hroom : store.table.size + 1 ≤ store.limits.maxNodes) :
      Applied store (.setAttribute element name value)
        { store with
          table := (store.table.push
            { data := .attribute (store.pool.intern name).2
                ((store.pool.intern name).1.intern value).2 }).attachLast .attributes elementId
              store.table.freshId
          pool := ((store.pool.intern name).1.intern value).1 }
  | unsetUnknown {element : Target} {elementId : NodeId} {name : Bytes}
      (htarget : store.target element = .ok elementId)
      (hcheck : store.table.checkElement elementId = .ok ())
      (hfound : ∀ nameId, store.pool.find? name = some nameId →
        store.table.findNamed nameId (store.table.attributes elementId) = .ok none) :
      Applied store (.unsetAttribute element name) store
  | unset {element : Target} {elementId id : NodeId} {name : Bytes} {nameId : StrId}
      (htarget : store.target element = .ok elementId)
      (hcheck : store.table.checkElement elementId = .ok ())
      (hname : store.pool.find? name = some nameId)
      (hfound : store.table.findNamed nameId (store.table.attributes elementId) =
        .ok (some id)) :
      Applied store (.unsetAttribute element name)
        { store with table := store.table.detach .attributes elementId id }

/-- A computation that gives a result has gone through its first part. -/
theorem bind_eq_ok {α β : Type} {first : Except StoreError α} {next : α → Except StoreError β}
    {result : β} (hresult : first >>= next = .ok result) :
    ∃ middle, first = .ok middle ∧ next middle = .ok result := by
  cases first with
  | error failure => cases hresult
  | ok middle => exact ⟨middle, rfl, hresult⟩

theorem applied_of_create {store next : Store} {seed : Seed}
    (hnext : store.create seed = .ok next) : store.Applied (.create seed) next := by
  simp only [create] at hnext
  split at hnext
  · cases hnext
  · rename_i added hadded
    obtain ⟨hroom, rfl⟩ := NodeTable.add_eq_ok hadded
    cases hnext
    exact .create seed hroom

theorem applied_of_setAttribute {store next : Store} {element : Target} {elementId : NodeId}
    {name value : Bytes} (htarget : store.target element = .ok elementId)
    (hnext : store.setAttribute elementId name value = .ok next) :
    store.Applied (.setAttribute element name value) next := by
  simp only [setAttribute] at hnext
  split at hnext
  · cases hnext
  · rename_i hcheck
    split at hnext
    · cases hnext
    · rename_i id hfound
      cases hnext
      exact .setKnown htarget hcheck hfound
    · rename_i hfound
      split at hnext
      · cases hnext
      · rename_i added hadded
        obtain ⟨hroom, rfl⟩ := NodeTable.add_eq_ok hadded
        cases hnext
        exact .setNew htarget hcheck hfound hroom

theorem applied_of_unsetAttribute {store next : Store} {element : Target} {elementId : NodeId}
    {name : Bytes} (htarget : store.target element = .ok elementId)
    (hnext : store.unsetAttribute elementId name = .ok next) :
    store.Applied (.unsetAttribute element name) next := by
  simp only [unsetAttribute] at hnext
  split at hnext
  · cases hnext
  · rename_i hcheck
    split at hnext
    · rename_i hname
      cases hnext
      refine .unsetUnknown htarget hcheck fun nameId hfind => ?_
      cases hname.symm.trans hfind
    · rename_i nameId hname
      split at hnext
      · cases hnext
      · rename_i hfound
        cases hnext
        refine .unsetUnknown htarget hcheck fun known hfind => ?_
        cases hname.symm.trans hfind
        exact hfound
      · rename_i id hfound
        cases hnext
        exact .unset htarget hcheck hname hfound

/-- Every edit that does not fail makes one of the changes. -/
theorem applied_of_apply {store next : Store} {edit : Edit}
    (hnext : store.apply edit = .ok next) : store.Applied edit next := by
  cases edit with
  | create seed => exact applied_of_create hnext
  | insert place parent child =>
      obtain ⟨parentId, hparent, hnext⟩ := bind_eq_ok hnext
      obtain ⟨childId, hchild, hnext⟩ := bind_eq_ok hnext
      simp only [insert] at hnext
      split at hnext
      · cases hnext
      · rename_i hcheck
        cases hnext
        exact .insert place hparent hchild hcheck
  | remove parent child =>
      obtain ⟨parentId, hparent, hnext⟩ := bind_eq_ok hnext
      obtain ⟨childId, hchild, hnext⟩ := bind_eq_ok hnext
      simp only [remove] at hnext
      split at hnext
      · cases hnext
      · rename_i hcheck
        cases hnext
        exact .remove hparent hchild hcheck
  | setAttribute element name value =>
      obtain ⟨elementId, htarget, hnext⟩ := bind_eq_ok hnext
      exact applied_of_setAttribute htarget hnext
  | unsetAttribute element name =>
      obtain ⟨elementId, htarget, hnext⟩ := bind_eq_ok hnext
      exact applied_of_unsetAttribute htarget hnext

/-- A property that every change keeps is kept by a run of edits. -/
theorem foldlM_apply_induction {motive : Store → Prop} {store next : Store} {edits : List Edit}
    (hnext : edits.foldlM apply store = .ok next) (hstart : motive store)
    (hchange : ∀ {before after : Store} {edit : Edit}, before.Applied edit after →
      motive before → motive after) : motive next := by
  induction edits generalizing store with
  | nil =>
      cases hnext
      exact hstart
  | cons edit rest ih =>
      rw [List.foldlM_cons] at hnext
      obtain ⟨middle, hmiddle, hrest⟩ := bind_eq_ok hnext
      exact ih hrest (hchange (applied_of_apply hmiddle) hstart)

theorem kept_of_foldlM_apply {store next : Store} {edits : List Edit}
    (hnext : edits.foldlM apply store = .ok next) :
    next.history = store.history ∧ next.version = store.version ∧ next.limits = store.limits := by
  refine foldlM_apply_induction (motive := fun after => after.history = store.history ∧
    after.version = store.version ∧ after.limits = store.limits) hnext ⟨rfl, rfl, rfl⟩ ?_
  intro before after edit hchange hbefore
  cases hchange <;> exact hbefore

end Store

end VersionedXml
