import VersionedXml.Proofs.Store.Sound

/-!
# Answers that do not change

A store answers questions about a node from its label, from its lists and from the strings that the
label names.  Two stores that agree on these answer alike.
-/

namespace VersionedXml

def Pool.Extends (later pool : Pool) : Prop :=
  ∀ (id : StrId) (text : Bytes), pool.get? id = some text → later.get? id = some text

theorem Pool.Extends.trans {later middle pool : Pool} (hlater : later.Extends middle)
    (hmiddle : middle.Extends pool) : later.Extends pool :=
  fun id text hid => hlater id text (hmiddle id text hid)

namespace Node

theorem mem_strings_of_name? (node : Node) (string : StrId) (hname : node.name? = some string) :
    string ∈ node.strings := by
  simp [strings, hname]

theorem mem_strings_of_value? (node : Node) (string : StrId) (hvalue : node.value? = some string) :
    string ∈ node.strings := by
  simp [strings, hvalue]

theorem mem_strings_of_content? (node : Node) (string : StrId)
    (hcontent : node.content? = some string) : string ∈ node.strings := by
  simp [strings, hcontent]

end Node

namespace Store

variable {store next : Store}

structure SameStrings (store next : Store) (x : NodeId) : Prop where
  name? : next.name? x = store.name? x
  value? : next.value? x = store.value? x
  content? : next.content? x = store.content? x

theorem SameStrings.trans {store middle next : Store} {x : NodeId}
    (hfirst : SameStrings store middle x) (hsecond : SameStrings middle next x) :
    SameStrings store next x :=
  ⟨hsecond.name?.trans hfirst.name?, hsecond.value?.trans hfirst.value?,
    hsecond.content?.trans hfirst.content?⟩

structure SameAt (store next : Store) (id : NodeId) : Prop where
  kind? : next.kind? id = store.kind? id
  name? : next.name? id = store.name? id
  content? : next.content? id = store.content? id
  attributes : next.attributes id = store.attributes id
  attributePairs : next.attributePairs id = store.attributePairs id
  children : next.children id = store.children id

theorem SameAt.refl (store : Store) (id : NodeId) : SameAt store store id :=
  ⟨rfl, rfl, rfl, rfl, rfl, rfl⟩

theorem SameAt.trans {store middle next : Store} {id : NodeId} (hfirst : SameAt store middle id)
    (hsecond : SameAt middle next id) : SameAt store next id :=
  ⟨hsecond.kind?.trans hfirst.kind?, hsecond.name?.trans hfirst.name?,
    hsecond.content?.trans hfirst.content?, hsecond.attributes.trans hfirst.attributes,
    hsecond.attributePairs.trans hfirst.attributePairs, hsecond.children.trans hfirst.children⟩

/-- A string that a node names is read from the pool, and from nowhere else. -/
theorem string_eq {x : NodeId} {view : Node → Option StrId}
    (hstrings : ∀ node string, view node = some string → string ∈ node.strings)
    (hview : (next.table.get? x).bind view = (store.table.get? x).bind view)
    (hpool : ∀ string ∈ store.table.strings x, next.pool.get? string = store.pool.get? string) :
    ((next.get? x).bind view).bind next.pool.get? =
      ((store.get? x).bind view).bind store.pool.get? := by
  unfold Store.get?
  rw [hview]
  cases hnode : store.table.get? x with
  | none => rfl
  | some node =>
      cases hstring : view node with
      | none => simp [hstring]
      | some string =>
          have hread := hpool string (by
            simpa [NodeTable.strings, hnode] using hstrings node string hstring)
          simp [hstring, hread]

theorem sameStrings {x : NodeId} (hlabel : next.table.label? x = store.table.label? x)
    (hpool : ∀ string ∈ store.table.strings x, next.pool.get? string = store.pool.get? string) :
    SameStrings store next x := by
  have hview : ∀ read : NodeKind × Option StrId × Option StrId × Option StrId → Option StrId,
      (next.table.get? x).bind (fun node => read node.label) =
        (store.table.get? x).bind fun node => read node.label := by
    intro read
    have hsame := congrArg (Option.bind · read) hlabel
    simpa only [NodeTable.label?, Option.bind_map, Function.comp_def] using hsame
  exact ⟨string_eq Node.mem_strings_of_name? (hview fun label => label.2.1) hpool,
    string_eq Node.mem_strings_of_value? (hview fun label => label.2.2.1) hpool,
    string_eq Node.mem_strings_of_content? (hview fun label => label.2.2.2) hpool⟩

/-- A store whose strings fit into 32 bits holds them all, and so do later pools. -/
theorem Sound.get?_of_extends (hstore : store.Sound) (hsmall : store.pool.bytesUsed < UInt32.size)
    {later : Pool} (hextends : later.Extends store.pool) (x : NodeId) :
    ∀ string ∈ store.table.strings x, later.get? string = store.pool.get? string := by
  intro string hstring
  obtain ⟨texts, -, hserved⟩ := hstore.serves hsmall
  obtain ⟨text, htext⟩ := hserved string ⟨x, hstring⟩
  rw [htext, hextends string text htext]

theorem Sound.nodeCount_pos (hstore : store.Sound) : 0 < store.nodeCount := by
  have hroot : store.table.contains rootId = true := by
    rw [NodeTable.contains_eq_kind?, hstore.wellFormed.root]
    rfl
  exact (NodeTable.contains_iff.mp hroot).2

theorem pair?_iff {id : NodeId} {name value : Bytes} :
    store.pair? id = some (name, value) ↔
      store.name? id = some name ∧ store.value? id = some value := by
  unfold Store.pair?
  cases store.name? id with
  | none => simp
  | some held => simp [and_comm]

theorem SameStrings.pair? {x : NodeId} (hsame : SameStrings store next x) :
    next.pair? x = store.pair? x := by
  unfold Store.pair?
  rw [hsame.name?, hsame.value?]

theorem attributePairs_congr {x : NodeId} (hattributes : next.attributes x = store.attributes x)
    (hpair : ∀ id ∈ store.attributes x, next.pair? id = store.pair? id) :
    next.attributePairs x = store.attributePairs x := by
  unfold attributePairs
  rw [hattributes]
  exact List.filterMap_congr hpair

section Relinked

variable {after : NodeTable} {family : Family} {owner id : NodeId} {parent : Option NodeId}
  {ids : List NodeId}
  (hmoved : NodeTable.Relinked store.table after family owner id parent ids)
include hmoved

theorem sameStrings_of_relinked (x : NodeId) :
    SameStrings store { store with table := after } x :=
  sameStrings (hmoved.label? x) fun _ _ => rfl

theorem sameAt_of_relinked
    (hmembers : ∀ asked x, after.members asked x =
      if asked = family ∧ x = owner then ids else store.table.members asked x)
    {x : NodeId} (hx : x ≠ owner) : SameAt store { store with table := after } x := by
  have hstrings := sameStrings_of_relinked hmoved
  have hlists : ∀ asked, after.members asked x = store.table.members asked x :=
    fun asked => (hmembers asked x).trans (if_neg fun h => hx h.2)
  exact ⟨hmoved.kind? x, (hstrings x).name?, (hstrings x).content?, hlists .attributes,
    attributePairs_congr (hlists .attributes) fun y _ => (hstrings y).pair?, hlists .children⟩

end Relinked

end Store

end VersionedXml
