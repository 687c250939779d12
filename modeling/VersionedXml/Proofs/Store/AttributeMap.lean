import VersionedXml.Proofs.Path.Select
import VersionedXml.Proofs.Store.Attributes

/-!
# Attributes as a map

The attributes of an element are a map from names to values that remembers the order in which its
names came.  Setting a name that is there changes its value and nothing else, setting a new one puts
it last, and taking a name off keeps all others in their order.  Names are compared by their bytes
here, while the store looks them up by identifiers.
-/

namespace VersionedXml

/-! ## Pairs with distinct names -/

/-- Of pairs with distinct names, the first with a name is the only one. -/
theorem lookup_eq_some_iff_mem {pairs : List (Bytes × Bytes)} (hnames : (pairs.map Prod.fst).Nodup)
    {name value : Bytes} : pairs.lookup name = some value ↔ (name, value) ∈ pairs := by
  rw [List.lookup_eq_some_iff]
  constructor
  · rintro ⟨left, right, rfl, -⟩
    simp
  · intro hpair
    obtain ⟨left, right, rfl⟩ := List.append_of_mem hpair
    refine ⟨left, right, rfl, fun pair hleft => ?_⟩
    rw [List.map_append, List.map_cons] at hnames
    have hne := (List.nodup_append.mp hnames).2.2 pair.1 (List.mem_map_of_mem hleft) name
      List.mem_cons_self
    simpa using Ne.symm hne

/-- A name that is there once has its value changed, in its place. -/
theorem putPair_of_mem {pairs : List (Bytes × Bytes)} (hnames : (pairs.map Prod.fst).Nodup)
    {name : Bytes} (value : Bytes) (hname : name ∈ pairs.map Prod.fst) :
    putPair name value pairs =
      pairs.map fun pair => if pair.1 = name then (name, value) else pair := by
  induction pairs with
  | nil => cases hname
  | cons first rest ih =>
      obtain ⟨hfirst, hrest⟩ := List.nodup_cons.mp hnames
      rw [putPair, List.map_cons]
      by_cases hsame : first.1 = name
      · have hothers : ∀ pair ∈ rest, pair.1 ≠ name := fun pair hpair heq =>
          hfirst (hsame.trans heq.symm ▸ List.mem_map_of_mem hpair)
        have hkept : (rest.map fun pair => if pair.1 = name then (name, value) else pair) = rest :=
          (List.map_congr_left fun pair hpair => if_neg (hothers pair hpair)).trans (List.map_id _)
        rw [if_pos hsame, if_pos hsame, hkept]
      · have hlater : name ∈ rest.map Prod.fst := by
          rcases List.mem_cons.mp hname with heq | hlater
          · exact absurd heq.symm hsame
          · exact hlater
        rw [if_neg hsame, if_neg hsame, ih hrest hlater]

namespace Store

variable {store next : Store}

/-! ## Reading -/

namespace Sound

variable (hstore : store.Sound)
include hstore

theorem attributeCount_eq (element : NodeId) :
    store.attributeCount element = (store.attributes element).length := by
  unfold attributeCount Store.attributes NodeTable.attributes
  cases hlinks : store.table.links? .attributes element with
  | none =>
      rw [NodeTable.members_of_links?_eq_none hlinks]
      rfl
  | some links => exact (hstore.wellFormed.isList hlinks).count

variable (hsmall : store.pool.bytesUsed < UInt32.size)
include hsmall

theorem attributePairs_eq_map (element : NodeId) :
    store.attributePairs element = (store.attributes element).map fun id =>
      ((store.name? id).getD [], (store.value? id).getD []) := by
  refine List.filterMap_eq_map_iff_forall_eq_some.mpr fun id hid => ?_
  obtain ⟨-, name, value, -, -, hpair⟩ := hstore.exists_pair? hsmall hid
  obtain ⟨hname, hvalue⟩ := pair?_iff.mp hpair
  rw [hpair, hname, hvalue]
  rfl

theorem length_attributePairs (element : NodeId) :
    (store.attributePairs element).length = (store.attributes element).length := by
  rw [hstore.attributePairs_eq_map hsmall, List.length_map]

theorem nodup_names (element : NodeId) : ((store.attributePairs element).map Prod.fst).Nodup := by
  obtain ⟨names, hnames, hnodup⟩ := hstore.exists_names hsmall element
  have hsame : (store.attributePairs element).map Prod.fst = names := by
    have hread := congrArg (List.map fun name : Option Bytes => name.getD []) hnames
    rw [List.map_map, List.map_map] at hread
    rw [hstore.attributePairs_eq_map hsmall, List.map_map]
    exact hread.trans (List.map_id _)
  rw [hsame]
  exact hnodup

theorem attribute?_eq_lookup (element : NodeId) (name : Bytes) :
    store.attribute? element name = (store.attributePairs element).lookup name := by
  refine Option.ext fun value => ?_
  rw [hstore.attribute?_eq_some_iff hsmall,
    lookup_eq_some_iff_mem (hstore.nodup_names hsmall element)]

/-- The node of an attribute is the one that has the name. -/
theorem attributeNode?_eq_some_iff {element id : NodeId} {name : Bytes} :
    store.attributeNode? element name = some id ↔
      id ∈ store.attributes element ∧ store.name? id = some name := by
  unfold attributeNode?
  constructor
  · intro hfound
    obtain ⟨nameId, hname, hsearch⟩ := Option.bind_eq_some_iff.mp hfound
    have hheld : store.nameId? id = some nameId := by simpa using List.find?_some hsearch
    refine ⟨List.mem_of_find?_eq_some hsearch, ?_⟩
    exact (hstore.name_eq_iff hsmall ((hstore.find?_eq_some_iff hsmall).mp hname)).mp hheld
  · rintro ⟨hid, hname⟩
    obtain ⟨nameId, hheld, hread⟩ := Option.bind_eq_some_iff.mp hname
    rw [(hstore.find?_eq_some_iff hsmall).mpr hread, Option.bind_some,
      hstore.find?_attributes hid hheld]

theorem mem_names {element : NodeId} {name : Bytes} :
    name ∈ (store.attributePairs element).map Prod.fst ↔
      ∃ id ∈ store.attributes element, store.name? id = some name := by
  rw [hstore.attributePairs_eq_map hsmall, List.map_map, List.mem_map]
  refine exists_congr fun id => and_congr_right fun hid => ?_
  obtain ⟨-, held, value, -, -, hpair⟩ := hstore.exists_pair? hsmall hid
  simp [(pair?_iff.mp hpair).1]

end Sound

/-! ## Setting -/

/-- The attributes of a node are a map. -/
structure IsAttributeMap (store : Store) (element : NodeId) : Prop where
  names : ((store.attributePairs element).map Prod.fst).Nodup
  attribute? : ∀ name, store.attribute? element name = (store.attributePairs element).lookup name
  count : store.attributeCount element = (store.attributePairs element).length

/-- A name of an element has been given a value. -/
structure AttributePut (store next : Store) (element : NodeId) (name value : Bytes) : Prop where
  /-- A name that is there keeps its place and its node, and no node is added. -/
  replaced : name ∈ (store.attributePairs element).map Prod.fst →
    next.attributePairs element = (store.attributePairs element).map
        (fun pair => if pair.1 = name then (name, value) else pair) ∧
      next.attributes element = store.attributes element ∧
      next.attributeNode? element name = store.attributeNode? element name ∧
      next.nodeCount = store.nodeCount
  /-- A new name comes last, with one new node. -/
  appended : name ∉ (store.attributePairs element).map Prod.fst → ∃ id,
    next.attributePairs element = store.attributePairs element ++ [(name, value)] ∧
      next.attributes element = store.attributes element ++ [id] ∧
      next.attributeNode? element name = some id ∧ store.contains id = false ∧
      next.nodeCount = store.nodeCount + 1
  otherPairs : ∀ x, x ≠ element → next.attributePairs x = store.attributePairs x
  children : ∀ x, next.children x = store.children x

/-- Setting an attribute changes no list of children, and no other list of attributes. -/
theorem Applied.lists_of_setAttribute {target : Target} {element : NodeId} {name value : Bytes}
    (hstore : store.Sound) (htarget : store.target target = .ok element)
    (happlied : store.Applied (.setAttribute target name value) next) (x : NodeId) :
    next.children x = store.children x ∧
      (x ≠ element → next.attributes x = store.attributes x) := by
  cases happlied with
  | setKnown htarget' hcheck hfound =>
      exact ⟨members_revalued hstore .children x, fun _ => members_revalued hstore .attributes x⟩
  | setNew htarget' hcheck hfound hroom =>
      cases htarget.symm.trans htarget'
      obtain ⟨-, hmembers⟩ := relinked_attributed hstore name value hcheck hroom
      exact ⟨(hmembers .children x).trans (if_neg fun h => by cases h.1),
        fun hne => (hmembers .attributes x).trans (if_neg fun h => hne h.2)⟩

theorem attributes_eq_nil_of_not_contains {x : NodeId} (hx : ¬ store.contains x = true) :
    store.attributes x = [] := by
  refine NodeTable.members_of_links?_eq_none ?_
  cases hlinks : store.table.links? .attributes x with
  | none => rfl
  | some links => exact absurd (NodeTable.contains_of_links? hlinks) hx

namespace AttributeSet

variable {element : NodeId} {name value : Bytes}

section Others

variable {added : List NodeId} (hset : AttributeSet store next element name value added)
include hset

theorem name?_of_mem (hstore : store.Sound) (hkind : store.kind? element = some .element)
    {id : NodeId} (hid : id ∈ store.attributes element) : next.name? id = store.name? id := by
  refine (hset.others id (hstore.wellFormed.contains_of_mem hid) ?_).name?
  rintro rfl
  cases hkind.symm.trans (hstore.mem_attributes.mp hid).1

/-- Where no list of other nodes has changed, no pair of other nodes has. -/
theorem otherPairs {x : NodeId} (hx : x ≠ element)
    (hlist : next.attributes x = store.attributes x) :
    next.attributePairs x = store.attributePairs x := by
  by_cases hlive : store.contains x = true
  · exact (hset.others x hlive hx).attributePairs
  · have hempty := attributes_eq_nil_of_not_contains hlive
    rw [attributePairs, attributePairs, hlist, hempty]
    rfl

end Others

variable (hstore : store.Sound) (hkind : store.kind? element = some .element)
  (hbefore : store.pool.bytesUsed < UInt32.size) (hafter : next.pool.bytesUsed < UInt32.size)
include hstore hkind hbefore hafter

/-- The node of a name that was there is the one that it was. -/
theorem replaced (hset : AttributeSet store next element name value [])
    (hname : name ∈ (store.attributePairs element).map Prod.fst) :
    next.attributePairs element = (store.attributePairs element).map
        (fun pair => if pair.1 = name then (name, value) else pair) ∧
      next.attributes element = store.attributes element ∧
      next.attributeNode? element name = store.attributeNode? element name ∧
      next.nodeCount = store.nodeCount := by
  have hattributes : next.attributes element = store.attributes element :=
    hset.attributes.trans (List.append_nil _)
  refine ⟨hset.pairs.trans (putPair_of_mem (hstore.nodup_names hbefore element) value hname),
    hattributes, Option.ext fun id => ?_, hset.nodeCount⟩
  rw [hset.sound.attributeNode?_eq_some_iff hafter, hstore.attributeNode?_eq_some_iff hbefore,
    hattributes]
  refine and_congr_right fun hid => ?_
  rw [hset.name?_of_mem hstore hkind hid]

/-- The node of a new name is the new one: the name stands in the list now, and none of the old
attributes has it. -/
theorem appended (hset : AttributeSet store next element name value [store.table.freshId])
    (hroom : store.nodeCount + 1 ≤ store.limits.maxNodes)
    (hname : name ∉ (store.attributePairs element).map Prod.fst) : ∃ id,
    next.attributePairs element = store.attributePairs element ++ [(name, value)] ∧
      next.attributes element = store.attributes element ++ [id] ∧
      next.attributeNode? element name = some id ∧ store.contains id = false ∧
      next.nodeCount = store.nodeCount + 1 := by
  have hpairs := hset.pairs.trans (putPair_of_notMem hname)
  have hlisted : name ∈ (next.attributePairs element).map Prod.fst := by simp [hpairs]
  obtain ⟨id, hid, hidName⟩ := (hset.sound.mem_names hafter).mp hlisted
  have hfresh : id = store.table.freshId := by
    rw [hset.attributes] at hid
    rcases List.mem_append.mp hid with hold | hnew
    · refine absurd ((hstore.mem_names hbefore).mpr ⟨id, hold, ?_⟩) hname
      exact (hset.name?_of_mem hstore hkind hold).symm.trans hidName
    · exact List.mem_singleton.mp hnew
  subst hfresh
  refine ⟨store.table.freshId, hpairs, hset.attributes,
    (hset.sound.attributeNode?_eq_some_iff hafter).mpr ⟨hid, hidName⟩, ?_, hset.nodeCount⟩
  have hnone := NodeTable.get?_freshId (Sound.size_lt_of_room store hroom)
  simp [Store.contains, NodeTable.contains, hnone]

end AttributeSet

/-- Setting an attribute of an element puts a value into its map. -/
theorem attributePut_of_apply {target : Target} {element : NodeId} {name value : Bytes}
    (hstore : store.Sound) (htarget : store.target target = .ok element)
    (hkind : store.kind? element = some .element)
    (hnext : store.apply (.setAttribute target name value) = .ok next)
    (hsmall : next.pool.bytesUsed < UInt32.size) :
    AttributePut store next element name value := by
  have happlied := applied_of_apply hnext
  have hpool : next.pool = ((Seed.attribute name value).plant store.pool).1 := by
    cases happlied <;> rfl
  have hplanted : ((Seed.attribute name value).plant store.pool).1.bytesUsed < UInt32.size :=
    hpool ▸ hsmall
  have hbefore := (Seed.attribute name value).bytesUsed_lt_of_plant hplanted
  have hlists := happlied.lists_of_setAttribute hstore htarget
  have hcall : store.setAttribute element name value = .ok next := by
    rw [apply, htarget] at hnext
    exact hnext
  rcases setAttribute_cases hstore hkind hplanted with
    ⟨hname, found, hok, hset⟩ | ⟨hname, hroom, found, hok, hset⟩ | ⟨-, -, herror⟩
  · cases hok.symm.trans hcall
    exact ⟨hset.replaced hstore hkind hbefore hsmall, fun hnew => absurd hname hnew,
      fun x hx => hset.otherPairs hx ((hlists x).2 hx), fun x => (hlists x).1⟩
  · cases hok.symm.trans hcall
    exact ⟨fun hold => absurd hold hname, hset.appended hstore hkind hbefore hsmall hroom,
      fun x hx => hset.otherPairs hx ((hlists x).2 hx), fun x => (hlists x).1⟩
  · cases herror.symm.trans hcall

/-! ## Taking off -/

structure AttributeDropped (store next : Store) (element : NodeId) (name : Bytes) : Prop where
  /-- The other pairs stay, in their order. -/
  pairs : next.attributePairs element =
    (store.attributePairs element).filter fun pair => pair.1 ≠ name
  attributes : next.attributes element =
    (store.attributes element).filter fun id => store.name? id ≠ some name
  pool : next.pool = store.pool
  nodeCount : next.nodeCount = store.nodeCount
  /-- Where the name is not there, nothing changes. -/
  absent : name ∉ (store.attributePairs element).map Prod.fst → next = store
  otherPairs : ∀ x, x ≠ element → next.attributePairs x = store.attributePairs x
  children : ∀ x, next.children x = store.children x

/-- Dropping the attributes with a name drops the pairs with it. -/
theorem filterMap_pair?_filter (ids : List NodeId) (name : Bytes) :
    (ids.filter fun id => store.name? id ≠ some name).filterMap store.pair? =
      (ids.filterMap store.pair?).filter fun pair => pair.1 ≠ name := by
  rw [List.filterMap_filter, List.filter_filterMap]
  refine List.filterMap_congr fun id _ => ?_
  cases hpair : store.pair? id with
  | none => simp
  | some pair =>
      have hname := (pair?_iff.mp hpair).1
      simp [hname, Option.filter]

/-- A store in which no attribute has the name has nothing to take off. -/
theorem attributeDropped_self (hstore : store.Sound) (hsmall : store.pool.bytesUsed < UInt32.size)
    {element : NodeId} {name : Bytes}
    (habsent : ∀ id ∈ store.attributes element, store.name? id ≠ some name) :
    AttributeDropped store store element name := by
  have hnone : name ∉ (store.attributePairs element).map Prod.fst := by
    rw [hstore.mem_names hsmall]
    rintro ⟨id, hid, hname⟩
    exact habsent id hid hname
  refine ⟨?_, ?_, rfl, rfl, fun _ => rfl, fun _ _ => rfl, fun _ => rfl⟩
  · refine (List.filter_eq_self.mpr fun pair hpair => ?_).symm
    have hne : pair.1 ≠ name := fun heq => hnone (heq ▸ List.mem_map_of_mem hpair)
    simpa using hne
  · refine (List.filter_eq_self.mpr fun id hid => ?_).symm
    simpa using habsent id hid

/-- Detaching the attribute that has the name takes the name off. -/
theorem attributeDropped_detach (hstore : store.Sound)
    (hsmall : store.pool.bytesUsed < UInt32.size) {element id : NodeId} {name : Bytes}
    (hid : id ∈ store.attributes element) (hname : store.name? id = some name) :
    AttributeDropped store { store with table := store.table.detach .attributes element id }
      element name := by
  have hmoved := NodeTable.detach_relinked hstore.wellFormed hid
  obtain ⟨-, hmembers⟩ := NodeTable.detach_wellFormed hstore.wellFormed hid
  have hpair := fun x => (sameStrings_of_relinked hmoved x).pair?
  have hunique : ∀ x ∈ store.attributes element, x ≠ id ↔ store.name? x ≠ some name := by
    intro x hx
    refine not_congr ⟨fun heq => heq ▸ hname, fun hsame => ?_⟩
    have hfirst := (hstore.attributeNode?_eq_some_iff hsmall).mpr ⟨hx, hsame⟩
    have hsecond := (hstore.attributeNode?_eq_some_iff hsmall).mpr ⟨hid, hname⟩
    exact Option.some.inj (hfirst.symm.trans hsecond)
  have hkept : (store.attributes element).erase id =
      (store.attributes element).filter fun x => store.name? x ≠ some name := by
    have hnodup : (store.attributes element).Nodup := hstore.wellFormed.nodup_members _ _
    rw [hnodup.erase_eq_filter]
    refine List.filter_congr fun x hx => ?_
    rw [Bool.eq_iff_iff, bne_iff_ne, decide_eq_true_iff]
    exact hunique x hx
  have hattributes := ((hmembers .attributes element).trans (if_pos ⟨rfl, rfl⟩)).trans hkept
  refine ⟨?_, hattributes, rfl, hmoved.size, fun hnone => ?_, fun x hx => ?_, fun x => ?_⟩
  · refine Eq.trans ?_ (filterMap_pair?_filter _ _)
    exact (congrArg (List.filterMap _) hattributes).trans (List.filterMap_congr fun x _ => hpair x)
  · exact absurd ((hstore.mem_names hsmall).mpr ⟨id, hid, hname⟩) hnone
  · exact attributePairs_congr ((hmembers .attributes x).trans (if_neg fun h => hx h.2))
      fun y _ => hpair y
  · exact (hmembers .children x).trans (if_neg fun h => by cases h.1)

/-- Taking an attribute off an element succeeds, and drops its name. -/
theorem exists_attributeDropped {target : Target} {element : NodeId} (name : Bytes)
    (hstore : store.Sound) (hsmall : store.pool.bytesUsed < UInt32.size)
    (htarget : store.target target = .ok element)
    (hkind : store.kind? element = some .element) :
    ∃ next, store.apply (.unsetAttribute target name) = .ok next ∧
      AttributeDropped store next element name := by
  have hcheck := checkElement_eq_ok hkind
  have hcall : ∀ result, store.unsetAttribute element name = result →
      store.apply (.unsetAttribute target name) = result := by
    rintro result rfl
    rw [apply, htarget]
    rfl
  cases hfind : store.pool.find? name with
  | none =>
      refine ⟨store, hcall _ (by simp only [unsetAttribute, hcheck, hfind]), ?_⟩
      refine attributeDropped_self hstore hsmall fun id _ hname => ?_
      obtain ⟨nameId, -, hread⟩ := Option.bind_eq_some_iff.mp hname
      cases hfind.symm.trans ((hstore.find?_eq_some_iff hsmall).mpr hread)
  | some nameId =>
      have hread := (hstore.find?_eq_some_iff hsmall).mp hfind
      obtain ⟨found, hsearch⟩ := hstore.findNamed_ok element nameId
      have hsearch' : store.table.findNamed nameId (store.table.attributes element) = .ok found :=
        hsearch
      cases found with
      | none =>
          refine ⟨store, hcall _ (by simp only [unsetAttribute, hcheck, hfind, hsearch']), ?_⟩
          refine attributeDropped_self hstore hsmall fun id hid hname => ?_
          exact NodeTable.findNamed_eq_ok hsearch id hid
            ((hstore.name_eq_iff hsmall hread).mpr hname)
      | some id =>
          obtain ⟨hid, hheld, -⟩ := NodeTable.findNamed_eq_ok hsearch
          exact ⟨_, hcall _ (by simp only [unsetAttribute, hcheck, hfind, hsearch']),
            attributeDropped_detach hstore hsmall hid ((hstore.name_eq_iff hsmall hread).mp hheld)⟩

/-! ## Reachable stores -/

/-- The attributes of every element of a reachable store are a map that remembers the order of its
names.  Wherever a batch has come to, setting an attribute puts a value into the map, and taking one
off drops its name. -/
theorem Reachable.attributes_map (hstore : store.Reachable) :
    (store.pool.bytesUsed < UInt32.size → ∀ element, store.IsAttributeMap element) ∧
    ∀ (edits : List Edit) (before : Store) (target : Target) (element : NodeId) (name : Bytes),
      edits.foldlM apply store.next = .ok before → before.target target = .ok element →
      before.kind? element = some .element →
      (∀ (value : Bytes) (after : Store),
        before.apply (.setAttribute target name value) = .ok after →
        after.pool.bytesUsed < UInt32.size → AttributePut before after element name value) ∧
      (before.pool.bytesUsed < UInt32.size → ∃ after,
        before.apply (.unsetAttribute target name) = .ok after ∧
          AttributeDropped before after element name) := by
  have hsound := hstore.sound
  constructor
  · intro hsmall element
    refine ⟨hsound.nodup_names hsmall element, hsound.attribute?_eq_lookup hsmall element, ?_⟩
    rw [hsound.attributeCount_eq, hsound.length_attributePairs hsmall]
  · intro edits before target element name hbefore htarget hkind
    have hmiddle := hsound.of_next.of_foldlM_apply hbefore
    constructor
    · intro value after hafter hsmall
      exact attributePut_of_apply hmiddle htarget hkind hafter hsmall
    · intro hsmall
      exact exists_attributeDropped name hmiddle hsmall htarget hkind

/-- In the middle of a batch that has added a third attribute, the first of three is set again and
keeps its place, and taking it off leaves the other two. -/
theorem Reachable.attributes_map_set_again :
    ∃ store before after : Store, store.Reachable ∧ store.pool.bytesUsed < UInt32.size ∧
      store.IsAttributeMap 2 ∧
      [Edit.setAttribute (.node 2) [0x6d] [0x76]].foldlM apply store.next = .ok before ∧
      before.kind? 2 = some .element ∧
      before.attributePairs 2 = [([0x6b], [0x76]), ([0x6c], [0x76]), ([0x6d], [0x76])] ∧
      before.apply (.setAttribute (.node 2) [0x6b] [0x77]) = .ok after ∧
      after.attributePairs 2 = [([0x6b], [0x77]), ([0x6c], [0x76]), ([0x6d], [0x76])] ∧
      after.pool.bytesUsed < UInt32.size ∧ AttributePut before after 2 [0x6b] [0x77] ∧
      before.pool.bytesUsed < UInt32.size ∧
      ∃ dropped, before.apply (.unsetAttribute (.node 2) [0x6b]) = .ok dropped ∧
        AttributeDropped before dropped 2 [0x6b] := by
  obtain ⟨store, before, after, hfirst, hstoreSmall, hbefore, hkind, hpairs, hafter, hset,
      hafterSmall, hbeforeSmall⟩ :
      ∃ store before after : Store, (Store.empty {}).commit
          [.create (.element [0x61]), .setAttribute (.created 0) [0x6b] [0x76],
            .setAttribute (.created 0) [0x6c] [0x76]] = .ok store ∧
        store.pool.bytesUsed < UInt32.size ∧
        [Edit.setAttribute (.node 2) [0x6d] [0x76]].foldlM apply store.next = .ok before ∧
        before.kind? 2 = some .element ∧
        before.attributePairs 2 = [([0x6b], [0x76]), ([0x6c], [0x76]), ([0x6d], [0x76])] ∧
        before.apply (.setAttribute (.node 2) [0x6b] [0x77]) = .ok after ∧
        after.attributePairs 2 = [([0x6b], [0x77]), ([0x6c], [0x76]), ([0x6d], [0x76])] ∧
        after.pool.bytesUsed < UInt32.size ∧ before.pool.bytesUsed < UInt32.size :=
    ⟨_, _, _, by cbv, by decide, by cbv, by decide, by decide, by cbv, by decide, by decide,
      by decide⟩
  have hstore : store.Reachable := .commit _ (.empty {}) hfirst
  obtain ⟨hmap, hedits⟩ := hstore.attributes_map
  obtain ⟨hput, hdrop⟩ := hedits _ before (.node 2) 2 [0x6b] hbefore rfl hkind
  exact ⟨store, before, after, hstore, hstoreSmall, hmap hstoreSmall 2, hbefore, hkind, hpairs,
    hafter, hset, hafterSmall, hput _ after hafter hafterSmall, hbeforeSmall, hdrop hbeforeSmall⟩

end Store

end VersionedXml
