import VersionedXml.Proofs.Store.Consistency
import VersionedXml.Proofs.Store.Forest
import VersionedXml.Proofs.Store.Standing
import VersionedXml.Tree.Growth

/-!
# What a store answers after an edit

The edits that build a document create a node, give an element attributes, and put a node behind the
children of another one.  For each of them it is said when it succeeds, what the store answers about
the nodes that it is about, and that it answers alike about all others.
-/

namespace VersionedXml

namespace Pool

variable {pool : Pool} {named : StrId → Prop} {text : Bytes}

theorem intern_extends (pool : Pool) (text : Bytes) : (pool.intern text).1.Extends pool :=
  fun _ _ hid => get?_internWith_of_get? hid

theorem Serves.get?_intern (hpool : pool.Serves named)
    (hsmall : (pool.intern text).1.bytesUsed < UInt32.size) :
    (pool.intern text).1.get? (pool.intern text).2 = some text := by
  obtain ⟨texts, htexts, -⟩ := hpool
  exact get?_internWith htexts hsmall

/-- The identifier of an interned string is the one under which it was held before, if it was. -/
theorem Serves.intern_eq_iff (hpool : pool.Serves named) {id : StrId} (hid : named id) :
    id = (pool.intern text).2 ↔ pool.get? id = some text := by
  obtain ⟨texts, htexts, hserved⟩ := hpool
  unfold Pool.intern internWith
  cases hfind : pool.findWith? digest text with
  | some held =>
      have hheld := htexts.findWith?_eq_some_iff.mp hfind
      constructor
      · rintro rfl
        exact hheld
      · intro hknown
        exact htexts.get?_inj hknown hheld
  | none =>
      -- The string is new, and its identifier lies behind all that are held.
      obtain ⟨known, hknown⟩ := hserved id hid
      refine iff_of_false (fun hnew => ?_) fun htext => ?_
      · rw [htexts.get?_eq] at hknown
        have hlt := (List.getElem?_eq_some_iff.mp hknown).1
        have hexact : pool.size.toUInt32.toNat = pool.size :=
          UInt32.toNat_ofNat_of_lt' (htexts.size ▸ htexts.length_lt)
        have heq : id.toNat = texts.length := (congrArg UInt32.toNat hnew).trans
          (hexact.trans htexts.size)
        omega
      · cases hfind.symm.trans (htexts.findWith?_eq_some_iff.mpr htext)

end Pool

namespace Seed

theorem bytesUsed_lt_of_plant (seed : Seed) {pool : Pool}
    (hsmall : (seed.plant pool).1.bytesUsed < UInt32.size) : pool.bytesUsed < UInt32.size :=
  Nat.lt_of_le_of_lt (seed.bytesUsed_le_plant pool) hsmall

theorem plant_extends (seed : Seed) (pool : Pool) : (seed.plant pool).1.Extends pool := by
  match seed with
  | .document => exact fun _ _ hid => hid
  | .element name => exact pool.intern_extends name
  | .attribute name value =>
      exact (Pool.intern_extends _ value).trans (pool.intern_extends name)
  | .leaf kind content => exact pool.intern_extends content

theorem kind_plant (seed : Seed) (pool : Pool) : (seed.plant pool).2.kind = seed.kind := by
  cases seed <;> rfl

end Seed

namespace Store

variable {store next : Store}

/-! ## Creating a node -/

def planted (store : Store) (seed : Seed) : Store :=
  { store with
    table := store.table.push (seed.plant store.pool).2
    pool := (seed.plant store.pool).1
    created := store.created.push store.table.freshId }

theorem apply_create (store : Store) (seed : Seed) :
    store.apply (.create seed) =
      if store.nodeCount + 1 ≤ store.limits.maxNodes then .ok (store.planted seed)
      else .error (.storeFull store.limits.maxNodes) := by
  unfold nodeCount
  by_cases hroom : store.table.size + 1 ≤ store.limits.maxNodes
  · simp only [apply, create, NodeTable.add, if_pos hroom]
    rfl
  · simp only [apply, create, NodeTable.add, if_neg hroom]

theorem kind?_planted (hroom : store.nodeCount + 1 ≤ store.limits.maxNodes) (seed : Seed) :
    (store.planted seed).kind? store.table.freshId = some seed.kind := by
  have hsize := Sound.size_lt_of_room store hroom
  refine (NodeTable.kind?_push hsize _ _).trans ?_
  rw [if_pos rfl, seed.kind_plant]

theorem parent?_planted (hroom : store.nodeCount + 1 ≤ store.limits.maxNodes) (seed : Seed) :
    (store.planted seed).parent? store.table.freshId = none := by
  have hsize := Sound.size_lt_of_room store hroom
  refine (NodeTable.parent?_push hsize (seed.isFresh_plant store.pool).parent _).trans ?_
  rw [NodeTable.parent?, NodeTable.get?_freshId hsize]
  rfl

section Planted

variable (hstore : store.Sound) (hroom : store.nodeCount + 1 ≤ store.limits.maxNodes) (seed : Seed)
include hstore hroom

theorem planted_sound : (store.planted seed).Sound :=
  hstore.of_create seed hroom _

theorem members_planted (family : Family) (x : NodeId) :
    (store.planted seed).table.members family x = store.table.members family x :=
  NodeTable.members_push hstore.wellFormed (seed.isFresh_plant store.pool)
    (Sound.size_lt_of_room store hroom) family x

theorem members_planted_freshId (family : Family) :
    (store.planted seed).table.members family store.table.freshId = [] := by
  rw [members_planted hstore hroom]
  refine NodeTable.members_of_links?_eq_none ?_
  rw [NodeTable.links?, NodeTable.get?_freshId (Sound.size_lt_of_room store hroom)]
  rfl

variable (hsmall : (seed.plant store.pool).1.bytesUsed < UInt32.size)
include hsmall

theorem sameStrings_planted {x : NodeId} (hx : store.contains x = true) :
    SameStrings store (store.planted seed) x := by
  have hsize := Sound.size_lt_of_room store hroom
  have hbefore := seed.bytesUsed_lt_of_plant hsmall
  refine sameStrings ?_ (hstore.get?_of_extends hbefore (seed.plant_extends _) x)
  exact (NodeTable.label?_push hsize _ x).trans (if_neg (NodeTable.ne_freshId hsize hx))

theorem sameAt_planted {x : NodeId} (hx : store.contains x = true) :
    SameAt store (store.planted seed) x := by
  have hsize := Sound.size_lt_of_room store hroom
  have hmembers := members_planted hstore hroom seed
  have hstrings := sameStrings_planted hstore hroom seed hsmall hx
  refine ⟨?_, hstrings.name?, hstrings.content?, hmembers .attributes x, ?_, hmembers .children x⟩
  · exact (NodeTable.kind?_push hsize _ x).trans (if_neg (NodeTable.ne_freshId hsize hx))
  · refine attributePairs_congr (hmembers .attributes x) fun id hid => ?_
    exact (sameStrings_planted hstore hroom seed hsmall
      (hstore.wellFormed.contains_of_mem hid)).pair?

end Planted

section Strings

variable (hstore : store.Sound) (hroom : store.nodeCount + 1 ≤ store.limits.maxNodes)
include hstore hroom

theorem name?_planted {name : Bytes}
    (hsmall : ((Seed.element name).plant store.pool).1.bytesUsed < UInt32.size) :
    (store.planted (.element name)).name? store.table.freshId = some name := by
  have hsize := Sound.size_lt_of_room store hroom
  have hget := NodeTable.get?_push hsize ((Seed.element name).plant store.pool).2 store.table.freshId
  rw [if_pos rfl] at hget
  unfold Store.name? nameId? Store.get? planted
  rw [hget]
  exact (hstore.serves ((Seed.element name).bytesUsed_lt_of_plant hsmall)).get?_intern hsmall

theorem content?_planted {kind : LeafKind} {content : Bytes}
    (hsmall : ((Seed.leaf kind content).plant store.pool).1.bytesUsed < UInt32.size) :
    (store.planted (.leaf kind content)).content? store.table.freshId = some content := by
  have hsize := Sound.size_lt_of_room store hroom
  have hget := NodeTable.get?_push hsize ((Seed.leaf kind content).plant store.pool).2
    store.table.freshId
  rw [if_pos rfl] at hget
  unfold Store.content? Store.get? planted
  rw [hget]
  exact (hstore.serves ((Seed.leaf kind content).bytesUsed_lt_of_plant hsmall)).get?_intern hsmall

theorem pair?_planted {name value : Bytes}
    (hsmall : ((Seed.attribute name value).plant store.pool).1.bytesUsed < UInt32.size) :
    (store.planted (.attribute name value)).pair? store.table.freshId = some (name, value) := by
  have hsize := Sound.size_lt_of_room store hroom
  have hget := NodeTable.get?_push hsize ((Seed.attribute name value).plant store.pool).2
    store.table.freshId
  rw [if_pos rfl] at hget
  have hnamed : (store.pool.intern name).1.bytesUsed < UInt32.size :=
    Nat.lt_of_le_of_lt (Pool.bytesUsed_le_intern _ value) hsmall
  have hserves := hstore.serves ((Seed.attribute name value).bytesUsed_lt_of_plant hsmall)
  have hname := Pool.intern_extends _ value _ _ (hserves.get?_intern hnamed)
  have hvalue := (hserves.intern hnamed).get?_intern hsmall
  unfold Store.pair? Store.name? Store.value? nameId? Store.get? planted
  rw [hget]
  simp only [Seed.plant, Option.bind_some, Node.name?, Node.value?, hname, hvalue, Option.map_some]

end Strings

/-! ## Inserting a node -/

/-- A detached node without children may become a child of any other node of the right kind. -/
theorem checkInsert_eq_ok (hstore : store.Sound) {parent child : NodeId}
    (hparent : store.kind? parent = some .document ∨ store.kind? parent = some .element)
    (hkind : store.kind? child = some .element ∨ ∃ kind, store.kind? child = some (.leaf kind))
    (hdetached : store.parent? child = none) (hempty : store.children child = [])
    (hne : child ≠ parent) : store.table.checkInsert parent child = .ok () := by
  obtain ⟨links, hlinks⟩ := NodeTable.exists_links?_children hparent
  have habove : child ∉ store.table.lineage parent := by
    rw [NodeTable.mem_lineage_iff hstore.wellFormed hlinks]
    intro habove
    rcases Relation.ReflTransGen.cases_head habove with heq | ⟨below, hbelow, -⟩
    · exact hne heq
    · have hmember : below ∈ store.children child := hbelow
      rw [hempty] at hmember
      cases hmember
  obtain ⟨kind, hchildKind, hdocument, hattribute⟩ : ∃ kind, store.table.kind? child = some kind ∧
      kind ≠ .document ∧ kind ≠ .attribute := by
    rcases hkind with hkind | ⟨leaf, hkind⟩
    · exact ⟨.element, hkind, nofun, nofun⟩
    · exact ⟨.leaf leaf, hkind, nofun, nofun⟩
  have hfamily : store.table.family? child = some .children := by
    simp [NodeTable.family?_eq_kind?, hchildKind, hattribute]
  exact NodeTable.checkInsert_eq_ok_iff.mpr
    ⟨⟨links, hlinks⟩, hfamily, by simp [hchildKind, hdocument], hdetached, habove⟩

/-- A node that has been inserted is a child, and about all nodes but its parent the store answers
as before. -/
theorem sameAt_insert (hstore : store.Sound) {place : Place} {parent child x : NodeId}
    (hcheck : store.table.checkInsert parent child = .ok ()) (hx : x ≠ parent) :
    SameAt store { store with table := store.table.attach place .children parent child } x := by
  have hwf := hstore.wellFormed
  have hinsert := NodeTable.insertable_of_checkInsert hcheck
  exact sameAt_of_relinked (hinsert.relinked hwf place) (hinsert.members_eq hwf place) hx

end Store

end VersionedXml
