import VersionedXml.Proofs.Pool
import VersionedXml.Proofs.Store.Insertable
import VersionedXml.Store.Tree

/-!
# Sound stores

A store is sound if its table is well-formed, no element has two attributes of one name, and, as
long as the strings fit into 32 bits, the pool holds every string that a node names.  Every change
keeps a store sound, and so every reachable store is sound.
-/

namespace VersionedXml

def Node.strings (node : Node) : List StrId :=
  node.name?.toList ++ node.value?.toList ++ node.content?.toList

/-- With another value, an attribute names no other strings than it did, except for the value. -/
theorem Node.mem_strings_setValue {node : Node} {value string : StrId}
    (hstring : string ∈ (node.setValue value).strings) :
    string ∈ node.strings ∨ string = value := by
  obtain ⟨parent, next, data⟩ := node
  match data with
  | .attribute name old =>
      rcases List.mem_cons.mp hstring with rfl | hstring
      · exact .inl List.mem_cons_self
      · exact .inr (List.mem_singleton.mp hstring)
  | .document _ => exact .inl hstring
  | .element _ _ _ => exact .inl hstring
  | .leaf _ _ => exact .inl hstring

@[simp]
theorem Node.name?_setValue (value : StrId) (node : Node) :
    (node.setValue value).name? = node.name? := by
  obtain ⟨parent, next, data⟩ := node
  cases data <;> rfl

@[simp]
theorem Node.content?_setValue (value : StrId) (node : Node) :
    (node.setValue value).content? = node.content? := by
  obtain ⟨parent, next, data⟩ := node
  cases data <;> rfl

namespace NodeTable

def strings (table : NodeTable) (id : NodeId) : List StrId :=
  (table.get? id).elim [] Node.strings

theorem strings_eq_label? (table : NodeTable) (id : NodeId) :
    table.strings id = (table.label? id).elim [] fun label =>
      label.2.1.toList ++ label.2.2.1.toList ++ label.2.2.2.toList := by
  unfold strings label?
  cases table.get? id <;> rfl

theorem strings_push {table : NodeTable} (hsize : table.size + 1 < UInt32.size) (node : Node)
    (id : NodeId) :
    (table.push node).strings id =
      if id = table.freshId then node.strings else table.strings id := by
  unfold strings
  rw [get?_push hsize]
  split <;> rfl

theorem name?_push_of_contains {table : NodeTable} (hsize : table.size + 1 < UInt32.size)
    (node : Node) {id : NodeId} (hid : table.contains id = true) :
    (table.push node).name? id = table.name? id := by
  unfold name?
  rw [get?_push_of_ne hsize node (ne_freshId hsize hid)]

end NodeTable

namespace Pool

def Serves (pool : Pool) (named : StrId → Prop) : Prop :=
  ∃ texts, pool.Holds digest texts ∧ ∀ string, named string → ∃ text, pool.get? string = some text

/-- A pool that is interned into still serves, and it serves the new string too. -/
theorem Serves.intern {pool : Pool} {named : StrId → Prop} (hpool : pool.Serves named)
    {text : Bytes} (hsmall : (pool.intern text).1.bytesUsed < UInt32.size) :
    (pool.intern text).1.Serves fun string => named string ∨ string = (pool.intern text).2 := by
  obtain ⟨texts, htexts, hnamed⟩ := hpool
  refine ⟨remember texts text, internWith_holds htexts hsmall, ?_⟩
  rintro string (hstring | rfl)
  · obtain ⟨known, hknown⟩ := hnamed string hstring
    exact ⟨known, get?_internWith_of_get? hknown⟩
  · exact ⟨text, get?_internWith htexts hsmall⟩

theorem Serves.mono {pool : Pool} {named fewer : StrId → Prop} (hpool : pool.Serves named)
    (hfewer : ∀ string, fewer string → named string) : pool.Serves fewer := by
  obtain ⟨texts, htexts, hnamed⟩ := hpool
  exact ⟨texts, htexts, fun string hstring => hnamed string (hfewer string hstring)⟩

theorem bytesUsed_le_intern (pool : Pool) (text : Bytes) :
    pool.bytesUsed ≤ (pool.intern text).1.bytesUsed :=
  (bytesUsed_internWith digest pool text).1

end Pool

namespace Seed

theorem isFresh_plant (seed : Seed) (pool : Pool) : NodeTable.IsFresh (seed.plant pool).2 := by
  refine ⟨?_, ?_, ?_⟩
  · cases seed <;> rfl
  · cases seed <;> rfl
  · intro family links hlinks
    match seed, family with
    | .document, .children => exact (Option.some.inj hlinks).symm
    | .document, .attributes => cases hlinks
    | .element _, .children => exact (Option.some.inj hlinks).symm
    | .element _, .attributes => exact (Option.some.inj hlinks).symm
    | .attribute _ _, .children => cases hlinks
    | .attribute _ _, .attributes => cases hlinks
    | .leaf _ _, .children => cases hlinks
    | .leaf _ _, .attributes => cases hlinks

theorem bytesUsed_le_plant (seed : Seed) (pool : Pool) :
    pool.bytesUsed ≤ (seed.plant pool).1.bytesUsed := by
  match seed with
  | .document => exact Nat.le_refl _
  | .element name => exact pool.bytesUsed_le_intern name
  | .attribute name value =>
      exact Nat.le_trans (pool.bytesUsed_le_intern name) (Pool.bytesUsed_le_intern _ value)
  | .leaf kind content => exact pool.bytesUsed_le_intern content

/-- The strings of a planted node are interned. -/
theorem serves_plant (seed : Seed) {pool : Pool} {named : StrId → Prop} (hpool : pool.Serves named)
    (hsmall : (seed.plant pool).1.bytesUsed < UInt32.size) :
    (seed.plant pool).1.Serves fun string =>
      named string ∨ string ∈ (seed.plant pool).2.strings := by
  match seed with
  | .document => exact hpool.mono fun string hstring => hstring.resolve_right List.not_mem_nil
  | .element name =>
      refine (hpool.intern hsmall).mono ?_
      rintro string (hstring | hstring)
      · exact .inl hstring
      · exact .inr (List.mem_singleton.mp hstring)
  | .attribute name value =>
      have hname : (pool.intern name).1.bytesUsed < UInt32.size :=
        Nat.lt_of_le_of_lt (Pool.bytesUsed_le_intern _ value) hsmall
      refine ((hpool.intern hname).intern hsmall).mono ?_
      rintro string (hstring | hstring)
      · exact .inl (.inl hstring)
      · rcases List.mem_cons.mp hstring with rfl | hstring
        · exact .inl (.inr rfl)
        · exact .inr (List.mem_singleton.mp hstring)
  | .leaf kind content =>
      refine (hpool.intern hsmall).mono ?_
      rintro string (hstring | hstring)
      · exact .inl hstring
      · exact .inr (List.mem_singleton.mp hstring)

end Seed

namespace Store

/-- The invariant of stores. -/
structure Sound (store : Store) : Prop where
  wellFormed : store.table.WellFormed
  size_le : store.table.size ≤ max 1 store.limits.maxNodes
  /-- No element has two attributes of one name. -/
  names : ∀ element, ((store.table.attributes element).map store.table.name?).Nodup
  /-- The pool holds the strings of all nodes, unless there are too many of them. -/
  serves : store.pool.bytesUsed < UInt32.size →
    store.pool.Serves fun string => ∃ id, string ∈ store.table.strings id

namespace Sound

variable {store next : Store}

theorem size_lt_of_room (store : Store) (hroom : store.table.size + 1 ≤ store.limits.maxNodes) :
    store.table.size + 1 < UInt32.size := by
  have hceiling := store.limits.maxNodes_le
  unfold nodeCeiling at hceiling
  have : UInt32.size = 4294967296 := rfl
  omega

/-- A change that leaves names and attributes as they are keeps names apart. -/
theorem names_of_eq (hstore : store.Sound) {after : NodeTable}
    (hmembers : ∀ x, after.attributes x = store.table.attributes x)
    (hname : ∀ x, store.table.contains x = true → after.name? x = store.table.name? x)
    (element : NodeId) : ((after.attributes element).map after.name?).Nodup := by
  have hsame : (store.table.attributes element).map after.name? =
      (store.table.attributes element).map store.table.name? :=
    List.map_congr_left fun x hx => hname x (hstore.wellFormed.contains_of_mem hx)
  rw [hmembers, hsame]
  exact hstore.names element

/-- Moving a node keeps a store sound if it keeps the names of attributes apart. -/
theorem of_relinked (hstore : store.Sound) {after : NodeTable} {family : Family}
    {owner id : NodeId} {parent : Option NodeId} {ids : List NodeId}
    (hmoved : NodeTable.Relinked store.table after family owner id parent ids)
    (hwf : after.WellFormed)
    (hnames : ∀ element, ((after.attributes element).map store.table.name?).Nodup) :
    Sound { store with table := after } := by
  have hname : after.name? = store.table.name? := by
    funext x
    rw [NodeTable.name?_eq_label?, NodeTable.name?_eq_label?, hmoved.label?]
  refine ⟨hwf, hmoved.size ▸ hstore.size_le, fun element => hname ▸ hnames element, ?_⟩
  intro hsmall
  refine (hstore.serves hsmall).mono ?_
  rintro string ⟨x, hx⟩
  rw [NodeTable.strings_eq_label?, hmoved.label?, ← NodeTable.strings_eq_label?] at hx
  exact ⟨x, hx⟩

theorem of_create (hstore : store.Sound) (seed : Seed)
    (hroom : store.table.size + 1 ≤ store.limits.maxNodes) (created : Array NodeId) :
    Sound { store with
      table := store.table.push (seed.plant store.pool).2
      pool := (seed.plant store.pool).1
      created := created } := by
  have hsize := size_lt_of_room store hroom
  have hfresh := seed.isFresh_plant store.pool
  have hmembers := NodeTable.members_push hstore.wellFormed hfresh hsize
  refine ⟨NodeTable.push_wellFormed hstore.wellFormed hfresh hsize, ?_, ?_, ?_⟩
  · simp only [NodeTable.size_push]
    omega
  · exact hstore.names_of_eq (hmembers .attributes)
      fun x hx => NodeTable.name?_push_of_contains hsize _ hx
  · intro hsmall
    have hserves := hstore.serves (Nat.lt_of_le_of_lt (seed.bytesUsed_le_plant store.pool) hsmall)
    refine (seed.serves_plant hserves hsmall).mono ?_
    rintro string ⟨x, hx⟩
    rw [NodeTable.strings_push hsize] at hx
    split at hx
    · exact .inr hx
    · exact .inl ⟨x, hx⟩

theorem of_insert (hstore : store.Sound) (place : Place) {parent child : NodeId}
    (hcheck : store.table.checkInsert parent child = .ok ()) :
    Sound { store with table := store.table.attach place .children parent child } := by
  have hwf := hstore.wellFormed
  have hinsert := NodeTable.insertable_of_checkInsert hcheck
  refine hstore.of_relinked (hinsert.relinked hwf place) (hinsert.wellFormed hwf place)
    fun element => ?_
  rw [NodeTable.attributes, hinsert.members_eq hwf place, if_neg fun heq => by cases heq.1]
  exact hstore.names element

theorem of_remove (hstore : store.Sound) {parent child : NodeId}
    (hcheck : store.table.checkRemove parent child = .ok ()) :
    Sound { store with table := store.table.detach .children parent child } := by
  have hchild := NodeTable.mem_children_of_checkRemove hcheck
  obtain ⟨hwf, hmembers⟩ := NodeTable.detach_wellFormed hstore.wellFormed hchild
  refine hstore.of_relinked (NodeTable.detach_relinked hstore.wellFormed hchild) hwf
    fun element => ?_
  rw [NodeTable.attributes, hmembers, if_neg fun heq => by cases heq.1]
  exact hstore.names element

theorem of_setKnown (hstore : store.Sound) (id : NodeId) (name value : Bytes) :
    Sound { store with
      table := store.table.modify id (Node.setValue ((store.pool.intern name).1.intern value).2)
      pool := ((store.pool.intern name).1.intern value).1 } := by
  obtain ⟨hwf, hmembers⟩ := NodeTable.setValue_wellFormed hstore.wellFormed id
    ((store.pool.intern name).1.intern value).2
  refine ⟨hwf, ?_, ?_, ?_⟩
  · simpa using hstore.size_le
  · refine hstore.names_of_eq (hmembers .attributes) fun x _ => ?_
    unfold NodeTable.name?
    rw [NodeTable.get?_modify]
    split
    · cases store.table.get? x <;> simp
    · rfl
  · intro hsmall
    have hless := Nat.lt_of_le_of_lt
      ((Seed.attribute name value).bytesUsed_le_plant store.pool) hsmall
    refine ((Seed.attribute name value).serves_plant (hstore.serves hless) hsmall).mono ?_
    rintro string ⟨x, hx⟩
    unfold NodeTable.strings at hx
    rw [NodeTable.get?_modify] at hx
    split at hx
    · cases hnode : store.table.get? x with
      | none => simp [hnode] at hx
      | some node =>
          rw [hnode] at hx
          rcases Node.mem_strings_setValue hx with hold | rfl
          · exact .inl ⟨x, by simpa [NodeTable.strings, hnode] using hold⟩
          · exact .inr (List.mem_cons_of_mem _ List.mem_cons_self)
    · exact .inl ⟨x, hx⟩

/-- A detached attribute whose name the element does not have yet may be attached to it. -/
theorem of_attachLast (hstore : store.Sound) {element id : NodeId} {links : Links}
    (hlinks : store.table.links? .attributes element = some links)
    (hkind : store.table.kind? id = some .attribute) (hdetached : store.table.parent? id = none)
    (habove : id ∉ store.table.lineage element)
    (hname : ∀ x ∈ store.table.attributes element, store.table.name? x ≠ store.table.name? id) :
    Sound { store with table := store.table.attachLast .attributes element id } := by
  have hfamily : store.table.family? id = some .attributes := by
    simp [NodeTable.family?_eq_kind?, hkind]
  obtain ⟨hwf, hmembers⟩ := NodeTable.attach_wellFormed hstore.wellFormed .last hlinks hfamily
    (by simp [hkind]) hdetached habove
  refine hstore.of_relinked (NodeTable.attachLast_relinked hstore.wellFormed hlinks
    (NodeTable.contains_of_family? hfamily) hdetached) hwf fun other => ?_
  have hlist := hmembers .attributes other
  simp only [NodeTable.attach] at hlist
  rw [NodeTable.attributes, hlist]
  split
  · rw [Place.extend, List.map_append]
    refine List.nodup_append.mpr ⟨hstore.names element, List.nodup_singleton _, ?_⟩
    rintro first hfirst second hsecond rfl
    obtain ⟨x, hx, hxname⟩ := List.mem_map.mp hfirst
    exact hname x hx (hxname.trans (List.mem_singleton.mp hsecond))
  · exact hstore.names other

theorem of_setNew (hstore : store.Sound) {element : NodeId} {name value : Bytes}
    (hcheck : store.table.checkElement element = .ok ())
    (hfound : store.table.findNamed (store.pool.intern name).2
      (store.table.attributes element) = .ok none)
    (hroom : store.table.size + 1 ≤ store.limits.maxNodes) :
    Sound { store with
      table := (store.table.push
        { data := .attribute (store.pool.intern name).2
            ((store.pool.intern name).1.intern value).2 }).attachLast .attributes element
          store.table.freshId
      pool := ((store.pool.intern name).1.intern value).1 } := by
  have hsize := size_lt_of_room store hroom
  have hfresh := (Seed.attribute name value).isFresh_plant store.pool
  have hpushed := hstore.of_create (.attribute name value) hroom store.created
  have hwf := hstore.wellFormed
  obtain ⟨links, hlinks⟩ := NodeTable.links?_of_checkElement hcheck
  have helement := NodeTable.contains_of_links? hlinks
  have hnotFound := NodeTable.findNamed_eq_ok hfound
  have howner := NodeTable.links?_push hsize
    ((Seed.attribute name value).plant store.pool).2 .attributes element
  rw [if_neg (NodeTable.ne_freshId hsize helement), hlinks] at howner
  refine hpushed.of_attachLast howner ?_ ?_ ?_ ?_
  · rw [NodeTable.kind?_push hsize, if_pos rfl]
    rfl
  · rw [NodeTable.parent?_push hsize hfresh.parent, NodeTable.parent?,
      NodeTable.get?_freshId hsize]
    rfl
  · exact NodeTable.freshId_notMem_lineage hwf hfresh hsize helement
  · intro x hx
    rw [NodeTable.attributes, NodeTable.members_push hwf hfresh hsize] at hx
    rw [NodeTable.name?_push_of_contains hsize _ (hwf.contains_of_mem hx), NodeTable.name?,
      NodeTable.name?, NodeTable.get?_push hsize, if_pos rfl]
    exact hnotFound x hx

theorem of_unset (hstore : store.Sound) {element id : NodeId}
    (hid : id ∈ store.table.attributes element) :
    Sound { store with table := store.table.detach .attributes element id } := by
  obtain ⟨hwf, hmembers⟩ := NodeTable.detach_wellFormed hstore.wellFormed hid
  refine hstore.of_relinked (NodeTable.detach_relinked hstore.wellFormed hid) hwf
    fun other => ?_
  rw [NodeTable.attributes, hmembers]
  split
  · exact (hstore.names element).sublist (List.erase_sublist.map _)
  · exact hstore.names other

theorem of_applied {edit : Edit} (hstore : store.Sound) (happlied : store.Applied edit next) :
    next.Sound := by
  cases happlied with
  | create seed hroom => exact hstore.of_create seed hroom _
  | insert place hparent hchild hcheck => exact hstore.of_insert place hcheck
  | remove hparent hchild hcheck => exact hstore.of_remove hcheck
  | setKnown htarget hcheck hfound => exact hstore.of_setKnown _ _ _
  | setNew htarget hcheck hfound hroom => exact hstore.of_setNew hcheck hfound hroom
  | unsetUnknown htarget hcheck hfound => exact hstore
  | unset htarget hcheck hname hfound =>
      exact hstore.of_unset (NodeTable.findNamed_eq_ok hfound).1

theorem of_foldlM_apply {edits : List Edit} (hstore : store.Sound)
    (hnext : edits.foldlM apply store = .ok next) : next.Sound :=
  foldlM_apply_induction hnext hstore fun happlied hbefore => hbefore.of_applied happlied

theorem of_next (hstore : store.Sound) : store.next.Sound :=
  ⟨hstore.wellFormed, hstore.size_le, hstore.names, hstore.serves⟩

theorem record (hstore : store.Sound) (edits : List Edit) :
    ({ store with history := store.history ++ [edits] } : Store).Sound :=
  ⟨hstore.wellFormed, hstore.size_le, hstore.names, hstore.serves⟩

end Sound

/-- A new store is sound, whatever room is set aside for it. -/
theorem sized_sound (limits : Limits) (nodes strings bytes : Nat) :
    (sized limits nodes strings bytes).Sound := by
  refine ⟨NodeTable.initial_wellFormed, Nat.le_max_left _ _, ?_, ?_⟩
  · intro element
    have hattributes : (sized limits nodes strings bytes).table.attributes element = [] :=
      NodeTable.members_initial .attributes element
    rw [hattributes]
    exact List.nodup_nil
  · intro _
    refine ⟨[[]], Pool.sized_holds Pool.digest strings bytes, ?_⟩
    rintro string ⟨id, hid⟩
    have hnode : (sized limits nodes strings bytes).table.get? id = _ := NodeTable.get?_initial id
    rw [NodeTable.strings, hnode] at hid
    split at hid
    · exact absurd hid List.not_mem_nil
    · exact absurd hid List.not_mem_nil

theorem empty_sound (limits : Limits) : (empty limits).Sound :=
  sized_sound limits 64 256 4096

theorem Reachable.sound {store : Store} (hstore : store.Reachable) : store.Sound := by
  induction hstore with
  | sized limits nodes strings bytes => exact sized_sound limits nodes strings bytes
  | commit edits _ hnext ih =>
      obtain ⟨applied, happlied, hresult⟩ := bind_eq_ok hnext
      cases hresult
      exact (ih.of_next.of_foldlM_apply happlied).record edits

end Store

end VersionedXml
