import VersionedXml.Proofs.Store.Sound

/-!
# Reachable stores are intact

What soundness says about tables is said here about stores, in terms of the questions that a store
answers.  The check that a store makes of its own lists is part of it: it succeeds on every
reachable store.
-/

namespace VersionedXml

namespace NodeTable

variable {table : NodeTable}

/-- A walk through a chain of owned nodes ends behind its last member. -/
theorem walkOwned_eq {owner : NodeId} {start : Option NodeId} {ids : List NodeId}
    (hids : Chain table.next? start ids none) (howned : ∀ id ∈ ids, table.parent? id = some owner)
    (last : Option NodeId) :
    table.walkOwned owner ids.length last start = some (ids.getLast?.or last, none) := by
  induction ids generalizing start last with
  | nil =>
      cases (show start = none from hids)
      rfl
  | cons first rest ih =>
      obtain ⟨rfl, hrest⟩ := hids
      have hfirst := howned first List.mem_cons_self
      cases hnode : table.get? first with
      | none => simp [parent?, hnode] at hfirst
      | some node =>
          have hparent : node.parent = some owner := by simpa [parent?, hnode] using hfirst
          have hnext : table.next? first = node.next := by simp [next?, hnode]
          rw [hnext] at hrest
          have hwalk := ih hrest (fun id hid => howned id (List.mem_cons_of_mem first hid))
            (some first)
          simp only [List.length_cons, walkOwned, hnode, hparent, if_true]
          rw [hwalk, List.getLast?_cons]
          cases rest.getLast? <;> rfl

/-- The check of a list succeeds. -/
theorem WellFormed.listIsConsistent (hwf : table.WellFormed) {family : Family} {owner : NodeId}
    {links : Links} (hlinks : table.links? family owner = some links) :
    table.listIsConsistent owner links = true := by
  have hlist := hwf.isList hlinks
  unfold NodeTable.listIsConsistent
  split
  · rename_i hcount
    have hempty : table.members family owner = [] := by
      rw [← List.length_eq_zero_iff, ← hlist.count, hcount]
      rfl
    have hchain := hlist.chain
    have hlast := hlist.last
    rw [hempty] at hchain hlast
    have hfirst : links.first = none := hchain
    rw [hfirst, hlast]
    rfl
  · rename_i hcount
    have hne : table.members family owner ≠ [] := by
      intro hempty
      apply hcount
      rw [← UInt32.toNat_inj, hlist.count, hempty]
      rfl
    have hwalk := walkOwned_eq hlist.chain (fun id hid => (hwf.mem_members.mp hid).2) none
    rw [hlist.count, hwalk, hlist.last, List.getLast?_eq_some_getLast hne]
    exact beq_self_eq_true _

theorem WellFormed.isConsistent (hwf : table.WellFormed) : table.isConsistent = true := by
  have hall : ∀ family id, (table.links? family id).all (table.listIsConsistent id) = true := by
    intro family id
    cases hlinks : table.links? family id with
    | none => rfl
    | some links => exact hwf.listIsConsistent hlinks
  unfold NodeTable.isConsistent
  rw [List.all_eq_true]
  intro index _
  exact Bool.and_eq_true_iff.mpr ⟨hall .children _, hall .attributes _⟩

theorem exists_links?_children {id : NodeId}
    (hkind : table.kind? id = some .document ∨ table.kind? id = some .element) :
    ∃ links, table.links? .children id = some links := by
  cases hnode : table.get? id with
  | none => simp [kind?, hnode] at hkind
  | some node =>
      have hcan := (Node.canHaveChildren_iff node).mpr (by simpa [kind?, hnode] using hkind)
      obtain ⟨links, hlinks⟩ := Option.isSome_iff_exists.mp hcan
      exact ⟨links, by simp [links?, hnode, hlinks]⟩

theorem exists_links?_attributes {id : NodeId} (hkind : table.kind? id = some .element) :
    ∃ links, table.links? .attributes id = some links := by
  cases hnode : table.get? id with
  | none => simp [kind?, hnode] at hkind
  | some node =>
      have hsome := (Node.isSome_links?_attributes_iff node).mpr (by simpa [kind?, hnode] using hkind)
      obtain ⟨links, hlinks⟩ := Option.isSome_iff_exists.mp hsome
      exact ⟨links, by simp [links?, hnode, hlinks]⟩

theorem family?_eq_attributes_iff {id : NodeId} :
    table.family? id = some .attributes ↔ table.kind? id = some .attribute := by
  rw [family?_eq_kind?]
  cases table.kind? id with
  | none => simp
  | some kind => simp

theorem family?_eq_children_iff {id : NodeId} :
    table.family? id = some .children ↔
      table.contains id = true ∧ table.kind? id ≠ some .attribute := by
  rw [family?_eq_kind?, contains_eq_kind?]
  cases table.kind? id with
  | none => simp
  | some kind => simp

end NodeTable

namespace Store

structure ListsAs (store : Store) (links : Links) (ids : List NodeId) : Prop where
  walk : Chain store.nextSibling? links.first ids none
  distinct : ids.Nodup
  live : ∀ id ∈ ids, store.contains id = true
  count : ids.length = links.count.toNat
  last : ids.getLast? = links.last
  ends : ∀ id, links.last = some id → store.nextSibling? id = none

/-- The representation invariant of stores. -/
structure Intact (store : Store) : Prop where
  /-- The store finds its own lists consistent. -/
  consistent : store.isConsistent = true
  /-- Documents and elements own a list of children. -/
  children : ∀ id, store.kind? id = some .document ∨ store.kind? id = some .element →
    ∃ links, store.table.links? .children id = some links ∧
      store.ListsAs links (store.children id)
  /-- Elements own a list of attributes. -/
  attributes : ∀ id, store.kind? id = some .element →
    ∃ links, store.table.links? .attributes id = some links ∧
      store.ListsAs links (store.attributes id)
  /-- The children of a node are the nodes of which it is the parent, attributes excepted. -/
  mem_children : ∀ parent id, id ∈ store.children parent ↔
    store.kind? id ≠ some .attribute ∧ store.parent? id = some parent
  /-- The attributes of a node are the attributes of which it is the parent. -/
  mem_attributes : ∀ element id, id ∈ store.attributes element ↔
    store.kind? id = some .attribute ∧ store.parent? id = some element
  /-- An attached node stands in one list, and there once. -/
  once : ∀ id, (store.parent? id).isSome = true → ∃ family owner,
    (store.table.members family owner).count id = 1 ∧
      ∀ other x, ¬ (other = family ∧ x = owner) → id ∉ store.table.members other x
  /-- Children are elements and leaves. -/
  child_kind : ∀ parent, ∀ id ∈ store.children parent,
    store.kind? id = some .element ∨ ∃ kind, store.kind? id = some (.leaf kind)
  /-- Nothing follows a detached node. -/
  detached : ∀ id, store.parent? id = none → store.nextSibling? id = none
  /-- The parents of a node come to an end. -/
  acyclic : ∀ id, ∃ ids, Chain store.parent? (some id) ids none
  /-- While the strings fit into 32 bits, every name, value and content is held. -/
  strings : store.pool.bytesUsed < UInt32.size → ∀ id node, store.get? id = some node →
    ∀ string ∈ node.strings, ∃ text, store.pool.get? string = some text
  /-- While the strings fit into 32 bits, the attributes of an element have distinct names. -/
  names : store.pool.bytesUsed < UInt32.size → ∀ element, ∃ names : List Bytes,
    (store.attributes element).map store.name? = names.map some ∧ names.Nodup

namespace Sound

variable {store : Store}

theorem listsAs (hstore : store.Sound) {family : Family} {owner : NodeId} {links : Links}
    (hlinks : store.table.links? family owner = some links) :
    store.ListsAs links (store.table.members family owner) := by
  have hlist := hstore.wellFormed.isList hlinks
  refine ⟨hlist.chain, hlist.chain.nodup, fun id hid => hstore.wellFormed.contains_of_mem hid,
    hlist.count.symm, hlist.last.symm, ?_⟩
  intro id hid
  exact hlist.chain.link_getLast? (hlist.last.symm.trans hid)

/-- An attribute has a name and a value, and both are held. -/
theorem exists_pair? (hstore : store.Sound) (hsmall : store.pool.bytesUsed < UInt32.size)
    {element id : NodeId} (hid : id ∈ store.attributes element) :
    ∃ string name value, store.table.name? id = some string ∧
      store.pool.get? string = some name ∧ store.pair? id = some (name, value) := by
  obtain ⟨texts, -, hserved⟩ := hstore.serves hsmall
  have hkind := NodeTable.family?_eq_attributes_iff.mp (hstore.wellFormed.mem_members.mp hid).1
  obtain ⟨⟨parent, next, data⟩, hnode, hdata⟩ := Option.map_eq_some_iff.mp hkind
  match data with
  | .attribute nameId valueId =>
      have hstrings : store.table.strings id = [nameId, valueId] := by
        simp [NodeTable.strings, hnode, Node.strings, Node.name?, Node.value?, Node.content?]
      obtain ⟨name, hname⟩ := hserved nameId ⟨id, by simp [hstrings]⟩
      obtain ⟨value, hvalue⟩ := hserved valueId ⟨id, by simp [hstrings]⟩
      refine ⟨nameId, name, value, by simp [NodeTable.name?, hnode, Node.name?], hname, ?_⟩
      simp [pair?, name?, nameId?, value?, Store.get?, hnode, Node.name?, Node.value?, hname, hvalue]
  | .document _ => cases hdata
  | .element _ _ _ => cases hdata
  | .leaf _ _ => cases hdata

/-- Among attributes of an element, identifiers of names are names. -/
theorem exists_names (hstore : store.Sound) (hsmall : store.pool.bytesUsed < UInt32.size)
    (element : NodeId) : ∃ names : List Bytes,
      (store.attributes element).map store.name? = names.map some ∧ names.Nodup := by
  obtain ⟨texts, hpool, -⟩ := hstore.serves hsmall
  have hnamed : ∀ id ∈ store.attributes element, ∃ string text,
      store.table.name? id = some string ∧ store.pool.get? string = some text := by
    intro id hid
    obtain ⟨string, name, -, hstring, hname, -⟩ := hstore.exists_pair? hsmall hid
    exact ⟨string, name, hstring, hname⟩
  have hdistinct : ((store.attributes element).map store.table.name?).Nodup := hstore.names element
  generalize store.attributes element = ids at hnamed hdistinct
  induction ids with
  | nil => exact ⟨[], rfl, List.nodup_nil⟩
  | cons first rest ih =>
      obtain ⟨hfirst, hrest⟩ := List.nodup_cons.mp hdistinct
      obtain ⟨names, hnames, hnodup⟩ := ih
        (fun id hid => hnamed id (List.mem_cons_of_mem first hid)) hrest
      obtain ⟨string, text, hstring, htext⟩ := hnamed first List.mem_cons_self
      have hname : store.name? first = some text := by
        have hid : store.nameId? first = some string := hstring
        rw [name?, hid]
        exact htext
      refine ⟨text :: names, by simp [hname, hnames], List.nodup_cons.mpr ⟨?_, hnodup⟩⟩
      -- a second node of this name would have the same identifier for it
      intro hagain
      have hmember : some text ∈ rest.map store.name? :=
        hnames ▸ List.mem_map_of_mem hagain
      obtain ⟨id, hid, hidName⟩ := List.mem_map.mp hmember
      obtain ⟨other, found, hother, hfound⟩ := hnamed id (List.mem_cons_of_mem first hid)
      have hidOther : store.nameId? id = some other := hother
      rw [name?, hidOther, Option.bind_some, hfound] at hidName
      cases hidName
      apply hfirst
      rw [hstring, hpool.get?_inj htext hfound, ← hother]
      exact List.mem_map_of_mem hid

theorem mem_children (hstore : store.Sound) {parent id : NodeId} :
    id ∈ store.children parent ↔
      store.kind? id ≠ some .attribute ∧ store.parent? id = some parent := by
  refine hstore.wellFormed.mem_members.trans ⟨?_, ?_⟩
  · rintro ⟨hfamily, hparent⟩
    exact ⟨(NodeTable.family?_eq_children_iff.mp hfamily).2, hparent⟩
  · rintro ⟨hkind, hparent⟩
    refine ⟨NodeTable.family?_eq_children_iff.mpr ⟨?_, hkind⟩, hparent⟩
    obtain ⟨node, hnode, -⟩ := Option.bind_eq_some_iff.mp hparent
    exact Option.isSome_iff_exists.mpr ⟨node, hnode⟩

theorem mem_attributes (hstore : store.Sound) {element id : NodeId} :
    id ∈ store.attributes element ↔
      store.kind? id = some .attribute ∧ store.parent? id = some element :=
  hstore.wellFormed.mem_members.trans (and_congr_left' NodeTable.family?_eq_attributes_iff)

/-- The family and the parent of a node say which list it stands in. -/
theorem exists_only_list (hstore : store.Sound) {id : NodeId}
    (hattached : (store.parent? id).isSome = true) :
    ∃ family owner, (store.table.members family owner).count id = 1 ∧
      ∀ other x, ¬ (other = family ∧ x = owner) → id ∉ store.table.members other x := by
  have hwf := hstore.wellFormed
  obtain ⟨owner, hparent⟩ := Option.isSome_iff_exists.mp hattached
  obtain ⟨node, hnode, -⟩ := Option.bind_eq_some_iff.mp hparent
  have hfamily : store.table.family? id = some node.family :=
    Option.map_eq_some_iff.mpr ⟨node, hnode, rfl⟩
  refine ⟨node.family, owner, ?_, ?_⟩
  · have hmember : id ∈ store.table.members node.family owner :=
      hwf.mem_members.mpr ⟨hfamily, hparent⟩
    exact List.count_eq_one_of_mem (hwf.nodup_members _ _) hmember
  · rintro other x hne hmember
    obtain ⟨hother, hx⟩ := hwf.mem_members.mp hmember
    exact hne ⟨Option.some.inj (hother.symm.trans hfamily), Option.some.inj (hx.symm.trans hparent)⟩

theorem kind_of_mem_children (hstore : store.Sound) {parent id : NodeId}
    (hid : id ∈ store.children parent) :
    store.kind? id = some .element ∨ ∃ kind, store.kind? id = some (.leaf kind) := by
  obtain ⟨hkind, hparent⟩ := hstore.mem_children.mp hid
  obtain ⟨node, hnode, -⟩ := Option.bind_eq_some_iff.mp hparent
  have hnodeKind : store.kind? id = some node.kind := Option.map_eq_some_iff.mpr ⟨node, hnode, rfl⟩
  match hcase : node.kind with
  | .document =>
      rw [hcase] at hnodeKind
      cases (hstore.wellFormed.document hnodeKind).symm.trans hparent
  | .element => exact .inl (hnodeKind.trans (congrArg some hcase))
  | .attribute => exact absurd (hnodeKind.trans (congrArg some hcase)) hkind
  | .leaf kind => exact .inr ⟨kind, hnodeKind.trans (congrArg some hcase)⟩

theorem exists_text (hstore : store.Sound) (hsmall : store.pool.bytesUsed < UInt32.size)
    {id : NodeId} {node : Node} (hnode : store.get? id = some node) {string : StrId}
    (hstring : string ∈ node.strings) : ∃ text, store.pool.get? string = some text := by
  obtain ⟨texts, -, hserved⟩ := hstore.serves hsmall
  refine hserved string ⟨id, ?_⟩
  have hget : store.table.get? id = some node := hnode
  simpa [NodeTable.strings, hget] using hstring

theorem toIntact (hstore : store.Sound) : store.Intact where
  consistent := hstore.wellFormed.isConsistent
  children := by
    intro id hkind
    obtain ⟨links, hlinks⟩ := NodeTable.exists_links?_children hkind
    exact ⟨links, hlinks, hstore.listsAs hlinks⟩
  attributes := by
    intro id hkind
    obtain ⟨links, hlinks⟩ := NodeTable.exists_links?_attributes hkind
    exact ⟨links, hlinks, hstore.listsAs hlinks⟩
  mem_children _ _ := hstore.mem_children
  mem_attributes _ _ := hstore.mem_attributes
  once _ := hstore.exists_only_list
  child_kind _ _ := hstore.kind_of_mem_children
  detached _ := hstore.wellFormed.detached
  acyclic := hstore.wellFormed.acyclic
  strings hsmall _ _ hnode _ := hstore.exists_text hsmall hnode
  names := hstore.exists_names

end Sound

/-- Every reachable store is intact. -/
theorem Reachable.intact {store : Store} (hstore : store.Reachable) : store.Intact :=
  hstore.sound.toIntact

/-- A store with an element, its attribute and a text in it is one of them. -/
theorem Reachable.intact_after_batch :
    ∃ store : Store, store.Reachable ∧ store.nodeCount = 4 ∧ store.children 2 = [3] ∧
      store.attributes 2 = [4] ∧ store.Intact := by
  obtain ⟨store, hcommit, hcount, hchildren, hattributes⟩ :
      ∃ store : Store, (Store.empty {}).commit [.create (.element []), .create (.leaf .text []),
        .insert .last (.node 1) (.created 0), .insert .first (.created 0) (.created 1),
        .setAttribute (.created 0) [] []] = .ok store ∧ store.nodeCount = 4 ∧
        store.children 2 = [3] ∧ store.attributes 2 = [4] :=
    ⟨_, by cbv, by decide, by decide, by decide⟩
  have hstore : store.Reachable := .commit _ (.empty {}) hcommit
  exact ⟨store, hstore, hcount, hchildren, hattributes, hstore.intact⟩

end Store

end VersionedXml
