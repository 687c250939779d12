import VersionedXml.Proofs.Store.Effects
import VersionedXml.Proofs.Tree.Growth

/-!
# Setting attributes

The attributes of an element are a list of pairs, in which setting an attribute puts a value in the
place of an old one, or behind all others.  It takes a new node in the second case only.
-/

namespace VersionedXml

namespace Store

variable {store next : Store}

/-- Searching for a name among the attributes of an element never fails. -/
theorem Sound.findNamed_ok (hstore : store.Sound) (element : NodeId) (name : StrId) :
    ∃ found, store.table.findNamed name (store.attributes element) = .ok found := by
  have hattribute : ∀ id ∈ store.attributes element, ∃ held value,
      (store.table.get? id).map Node.data = some (.attribute held value) := by
    intro id hid
    have hkind := NodeTable.family?_eq_attributes_iff.mp (hstore.wellFormed.mem_members.mp hid).1
    obtain ⟨⟨parent, next, data⟩, hnode, hdata⟩ := Option.map_eq_some_iff.mp hkind
    match data with
    | .attribute held value => exact ⟨held, value, by simp [hnode]⟩
    | .document _ => cases hdata
    | .element _ _ _ => cases hdata
    | .leaf _ _ => cases hdata
  generalize store.attributes element = ids at hattribute
  induction ids with
  | nil => exact ⟨none, rfl⟩
  | cons first rest ih =>
      obtain ⟨held, value, hdata⟩ := hattribute first List.mem_cons_self
      rw [NodeTable.findNamed, hdata]
      by_cases hsame : held = name
      · exact ⟨some first, if_pos hsame⟩
      · obtain ⟨found, hfound⟩ := ih fun id hid => hattribute id (List.mem_cons_of_mem first hid)
        exact ⟨found, (if_neg hsame).trans hfound⟩

/-- An element has received an attribute, for which the nodes `added` have been created. -/
structure AttributeSet (store next : Store) (element : NodeId) (name value : Bytes)
    (added : List NodeId) : Prop where
  sound : next.Sound
  limits : next.limits = store.limits
  created : next.created = store.created
  nodeCount : next.nodeCount = store.nodeCount + added.length
  fresh : added.map UInt32.toNat = List.range' (store.nodeCount + 1) added.length
  pool : next.pool = ((Seed.attribute name value).plant store.pool).1
  others : ∀ x, store.contains x = true → x ≠ element → SameAt store next x
  kind? : next.kind? element = store.kind? element
  name? : next.name? element = store.name? element
  parent? : next.parent? element = store.parent? element
  children : next.children element = store.children element
  attributes : next.attributes element = store.attributes element ++ added
  pairs : next.attributePairs element = putPair name value (store.attributePairs element)

section Names

variable (hstore : store.Sound) (hsmall : store.pool.bytesUsed < UInt32.size) {element : NodeId}
  {name : Bytes}
include hstore hsmall

/-- An attribute has the identifier of a name if it has the name. -/
theorem name?_eq_intern_iff {id : NodeId} (hid : id ∈ store.attributes element)
    {pair : Bytes × Bytes} (hpair : store.pair? id = some pair) :
    store.table.name? id = some (store.pool.intern name).2 ↔ pair.1 = name := by
  obtain ⟨string, held, old, hstring, hheld, hown⟩ := hstore.exists_pair? hsmall hid
  cases hpair.symm.trans hown
  obtain ⟨node, hnode, hname⟩ := Option.bind_eq_some_iff.mp hstring
  have hnamed : ∃ x, string ∈ store.table.strings x :=
    ⟨id, by simpa [NodeTable.strings, hnode] using node.mem_strings_of_name? string hname⟩
  have hsame : string = (store.pool.intern name).2 ↔ store.pool.get? string = some name :=
    (hstore.serves hsmall).intern_eq_iff hnamed
  rw [hheld] at hsame
  rw [hstring]
  simpa using hsame

/-- A name is among the pairs of an element if one of its attributes has the identifier. -/
theorem mem_names_iff : name ∈ (store.attributePairs element).map Prod.fst ↔
    ∃ id ∈ store.attributes element, store.table.name? id = some (store.pool.intern name).2 := by
  constructor
  · intro hmember
    obtain ⟨pair, hpair, rfl⟩ := List.mem_map.mp hmember
    obtain ⟨id, hid, hown⟩ := List.mem_filterMap.mp hpair
    exact ⟨id, hid, (name?_eq_intern_iff hstore hsmall hid hown).mpr rfl⟩
  · rintro ⟨id, hid, hname⟩
    obtain ⟨-, held, old, -, -, hown⟩ := hstore.exists_pair? hsmall hid
    have hheld := (name?_eq_intern_iff hstore hsmall hid hown).mp hname
    exact List.mem_map.mpr ⟨_, List.mem_filterMap.mpr ⟨id, hid, hown⟩, hheld⟩

/-- Searching for the identifier of a name tells whether the name is there. -/
theorem isSome_findNamed_iff {found : Option NodeId}
    (hfound : store.table.findNamed (store.pool.intern name).2 (store.attributes element) =
      .ok found) :
    found.isSome = true ↔ name ∈ (store.attributePairs element).map Prod.fst := by
  rw [mem_names_iff hstore hsmall]
  have hsearch := NodeTable.findNamed_eq_ok hfound
  cases found with
  | some id => exact iff_of_true rfl ⟨id, hsearch.1, hsearch.2.1⟩
  | none =>
      refine iff_of_false (by simp) ?_
      rintro ⟨id, hid, hname⟩
      exact hsearch id hid hname

end Names

/-! ## An attribute that is there -/

def revalued (store : Store) (id : NodeId) (name value : Bytes) : Store :=
  { store with
    table := store.table.modify id (Node.setValue ((store.pool.intern name).1.intern value).2)
    pool := ((store.pool.intern name).1.intern value).1 }

section Revalued

variable (hstore : store.Sound) {element id : NodeId} {name value : Bytes}
  (hsmall : ((Seed.attribute name value).plant store.pool).1.bytesUsed < UInt32.size)

theorem kind?_revalued (x : NodeId) : (store.revalued id name value).kind? x = store.kind? x :=
  NodeTable.kind?_modify store.table id _ (Node.kind_setValue _) x

include hstore

theorem members_revalued (family : Family) (x : NodeId) :
    (store.revalued id name value).table.members family x = store.table.members family x :=
  (NodeTable.setValue_wellFormed hstore.wellFormed id _).2 family x

include hsmall

/-- Strings other than the value are read as before. -/
theorem string_revalued {x : NodeId} {view : Node → Option StrId}
    (hstrings : ∀ node string, view node = some string → string ∈ node.strings)
    (hview : x ≠ id ∨ ∀ (string : StrId) (node : Node), view (node.setValue string) = view node) :
    (((store.revalued id name value).get? x).bind view).bind
        (store.revalued id name value).pool.get? =
      ((store.get? x).bind view).bind store.pool.get? := by
  have hbefore := (Seed.attribute name value).bytesUsed_lt_of_plant hsmall
  have hextends := (Seed.attribute name value).plant_extends store.pool
  refine string_eq hstrings ?_ (hstore.get?_of_extends hbefore hextends x)
  unfold revalued
  rw [NodeTable.get?_modify]
  split
  · rename_i heq
    rcases hview with hne | hsame
    · exact absurd heq hne
    · cases store.table.get? x with
      | none => rfl
      | some node => exact hsame _ node
  · rfl

theorem name?_revalued (x : NodeId) : (store.revalued id name value).name? x = store.name? x :=
  string_revalued hstore hsmall Node.mem_strings_of_name? (.inr Node.name?_setValue)

theorem content?_revalued (x : NodeId) :
    (store.revalued id name value).content? x = store.content? x :=
  string_revalued hstore hsmall Node.mem_strings_of_content? (.inr Node.content?_setValue)

theorem pair?_revalued_of_ne {x : NodeId} (hx : x ≠ id) :
    (store.revalued id name value).pair? x = store.pair? x := by
  have hvalue : (store.revalued id name value).value? x = store.value? x :=
    string_revalued hstore hsmall Node.mem_strings_of_value? (.inl hx)
  unfold pair?
  rw [name?_revalued hstore hsmall, hvalue]

theorem pair?_revalued {old : Bytes} (hkind : store.kind? id = some .attribute)
    (hpair : store.pair? id = some (name, old)) :
    (store.revalued id name value).pair? id = some (name, value) := by
  have hbefore := (Seed.attribute name value).bytesUsed_lt_of_plant hsmall
  have hnamed : (store.pool.intern name).1.bytesUsed < UInt32.size :=
    Nat.lt_of_le_of_lt (Pool.bytesUsed_le_intern _ value) hsmall
  have hget := ((hstore.serves hbefore).intern hnamed).get?_intern hsmall
  obtain ⟨hname, -⟩ := pair?_iff.mp hpair
  have hvalue : (store.revalued id name value).value? id = some value := by
    obtain ⟨⟨parent, next, data⟩, hnode, hdata⟩ := Option.map_eq_some_iff.mp hkind
    have hnode' : store.table.get? id = some ⟨parent, next, data⟩ := hnode
    match data with
    | .attribute _ _ =>
        unfold value? Store.get? revalued
        rw [NodeTable.get?_modify_self, hnode']
        exact hget
    | .document _ => cases hdata
    | .element _ _ _ => cases hdata
    | .leaf _ _ => cases hdata
  exact pair?_iff.mpr ⟨(name?_revalued hstore hsmall id).trans hname, hvalue⟩

theorem filterMap_pair?_revalued {ids : List NodeId} (hids : id ∉ ids) :
    ids.filterMap (store.revalued id name value).pair? = ids.filterMap store.pair? :=
  List.filterMap_congr fun _ hx =>
    pair?_revalued_of_ne hstore hsmall fun heq => hids (heq ▸ hx)

variable (hfound : store.table.findNamed (store.pool.intern name).2 (store.attributes element) =
  .ok (some id))
include hfound

/-- The new value stands where the old one stood. -/
theorem attributePairs_revalued : (store.revalued id name value).attributePairs element =
    putPair name value (store.attributePairs element) := by
  obtain ⟨hid, hname, hkind⟩ := NodeTable.findNamed_eq_ok hfound
  obtain ⟨left, right, hsplit, hleft⟩ := List.eq_append_cons_of_mem hid
  have hdistinct : ((store.attributes element).map store.table.name?).Nodup :=
    hstore.names element
  rw [hsplit, List.map_append, List.map_cons] at hdistinct
  obtain ⟨-, hrest, hapart⟩ := List.nodup_append.mp hdistinct
  have hold := (Seed.attribute name value).bytesUsed_lt_of_plant hsmall
  obtain ⟨-, held, old, -, -, hpair⟩ := hstore.exists_pair? hold hid
  cases (name?_eq_intern_iff hstore hold hid hpair).mp hname
  have hbefore : held ∉ (left.filterMap store.pair?).map Prod.fst := by
    intro hmember
    obtain ⟨pair, hmember, hpairName⟩ := List.mem_map.mp hmember
    obtain ⟨x, hx, hxPair⟩ := List.mem_filterMap.mp hmember
    have hxName := (name?_eq_intern_iff hstore hold
      (hsplit ▸ List.mem_append_left _ hx) hxPair).mpr hpairName
    exact hapart _ (List.mem_map_of_mem hx) _ List.mem_cons_self (hxName.trans hname.symm)
  have hright : id ∉ right := fun hmember =>
    (List.nodup_cons.mp hrest).1 (List.mem_map_of_mem hmember)
  have hafter : (store.revalued id held value).attributes element = left ++ id :: right :=
    (members_revalued hstore .attributes element).trans hsplit
  simp only [attributePairs, hafter, hsplit, List.filterMap_append, List.filterMap_cons,
    filterMap_pair?_revalued hstore hsmall hleft, filterMap_pair?_revalued hstore hsmall hright,
    hpair, pair?_revalued hstore hsmall hkind hpair]
  exact (putPair_append_cons hbefore).symm

/-- Setting an attribute that is there gives it another value. -/
theorem attributeSet_known :
    AttributeSet store (store.revalued id name value) element name value [] := by
  obtain ⟨hid, -, -⟩ := NodeTable.findNamed_eq_ok hfound
  have hmembers : ∀ family x, (store.revalued id name value).table.members family x =
      store.table.members family x := members_revalued hstore
  have hparent := (hstore.wellFormed.mem_members.mp hid).2
  refine ⟨hstore.of_setKnown id name value, rfl, rfl, ?_, rfl, rfl, ?_,
    kind?_revalued element, name?_revalued hstore hsmall element, ?_, hmembers .children element,
    ?_, attributePairs_revalued hstore hsmall hfound⟩
  · simp [nodeCount, revalued]
  · intro x _ hx
    refine ⟨kind?_revalued x, name?_revalued hstore hsmall x, content?_revalued hstore hsmall x,
      hmembers .attributes x, ?_, hmembers .children x⟩
    refine attributePairs_congr (hmembers .attributes x) fun y hy => ?_
    refine pair?_revalued_of_ne hstore hsmall ?_
    rintro rfl
    exact hx (Option.some.inj ((hstore.wellFormed.mem_members.mp hy).2.symm.trans hparent))
  · exact NodeTable.parent?_modify store.table id _ (Node.parent_setValue _) element
  · exact (hmembers .attributes element).trans (List.append_nil _).symm

end Revalued

/-! ## A new attribute -/

def attributed (store : Store) (element : NodeId) (name value : Bytes) : Store :=
  { store with
    table := (store.planted (.attribute name value)).table.attachLast .attributes element
      store.table.freshId
    pool := (store.planted (.attribute name value)).pool }

section Attributed

variable (hstore : store.Sound) {element : NodeId} (name value : Bytes)
  (hcheck : store.table.checkElement element = .ok ())
  (hroom : store.nodeCount + 1 ≤ store.limits.maxNodes)
include hstore hcheck hroom

/-- A new attribute is a new node that moves to the end of the list of its element, and no other
list changes. -/
theorem relinked_attributed :
    NodeTable.Relinked (store.planted (.attribute name value)).table
        (store.attributed element name value).table .attributes element store.table.freshId
        (some element) (store.attributes element ++ [store.table.freshId]) ∧
      ∀ family x, (store.attributed element name value).table.members family x =
        if family = .attributes ∧ x = element then
          store.attributes element ++ [store.table.freshId]
        else store.table.members family x := by
  have hsize := Sound.size_lt_of_room store hroom
  have hplanted := planted_sound hstore hroom (.attribute name value)
  obtain ⟨links, hlinks⟩ := NodeTable.links?_of_checkElement hcheck
  have helement := NodeTable.contains_of_links? hlinks
  have hplantedLinks : (store.planted (.attribute name value)).table.links? .attributes element =
      some links := by
    refine (NodeTable.links?_push hsize _ .attributes element).trans ?_
    rw [if_neg (NodeTable.ne_freshId hsize helement), hlinks]
  have hkind := kind?_planted hroom (.attribute name value)
  have hfamily : (store.planted (.attribute name value)).table.family? store.table.freshId =
      some .attributes := NodeTable.family?_eq_attributes_iff.mpr hkind
  have hdetached := parent?_planted hroom (.attribute name value)
  have habove := NodeTable.freshId_notMem_lineage hstore.wellFormed
    ((Seed.attribute name value).isFresh_plant store.pool) hsize helement
  have hmoved := NodeTable.attachLast_relinked hplanted.wellFormed hplantedLinks
    (NodeTable.contains_of_family? hfamily) hdetached
  obtain ⟨-, hmembers⟩ := NodeTable.attach_wellFormed hplanted.wellFormed .last hplantedLinks hfamily
    (fun hdocument => by cases hkind.symm.trans hdocument) hdetached habove
  have hlists := members_planted hstore hroom (.attribute name value)
  have hlast := hlists .attributes element
  rw [hlast] at hmoved hmembers
  refine ⟨hmoved, fun family x => (hmembers family x).trans ?_⟩
  rw [hlists family x]
  rfl

theorem sameStrings_attributed
    (hsmall : ((Seed.attribute name value).plant store.pool).1.bytesUsed < UInt32.size)
    {x : NodeId} (hx : store.contains x = true) :
    SameStrings store (store.attributed element name value) x := by
  obtain ⟨hmoved, -⟩ := relinked_attributed hstore name value hcheck hroom
  obtain ⟨hname, hvalue, hcontent⟩ := sameStrings_of_relinked hmoved x
  exact (sameStrings_planted hstore hroom (.attribute name value) hsmall hx).trans
    ⟨hname, hvalue, hcontent⟩

variable (hsmall : ((Seed.attribute name value).plant store.pool).1.bytesUsed < UInt32.size)
  (hfound : store.table.findNamed (store.pool.intern name).2 (store.attributes element) = .ok none)
include hsmall hfound

/-- The new pair stands behind all others. -/
theorem attributePairs_attributed : (store.attributed element name value).attributePairs element =
    putPair name value (store.attributePairs element) := by
  obtain ⟨hmoved, hmembers⟩ := relinked_attributed hstore name value hcheck hroom
  have hattributes : (store.attributed element name value).attributes element =
      store.attributes element ++ [store.table.freshId] :=
    (hmembers .attributes element).trans (if_pos ⟨rfl, rfl⟩)
  have hbefore := (Seed.attribute name value).bytesUsed_lt_of_plant hsmall
  have hname : name ∉ (store.attributePairs element).map Prod.fst :=
    mt (isSome_findNamed_iff hstore hbefore hfound).mpr Bool.false_ne_true
  have hold : (store.attributes element).filterMap (store.attributed element name value).pair? =
      store.attributePairs element := List.filterMap_congr fun id hid =>
    (sameStrings_attributed hstore name value hcheck hroom hsmall
      (hstore.wellFormed.contains_of_mem hid)).pair?
  have hnew : (store.attributed element name value).pair? store.table.freshId =
      some (name, value) :=
    (sameStrings_of_relinked hmoved store.table.freshId).pair?.trans
      (pair?_planted hstore hroom hsmall)
  rw [putPair_of_notMem hname, attributePairs, hattributes, List.filterMap_append, hold,
    List.filterMap_cons, hnew]
  rfl

/-- Setting an attribute that is not there puts it behind all others. -/
theorem attributeSet_new :
    AttributeSet store (store.attributed element name value) element name value
      [store.table.freshId] := by
  have hsize := Sound.size_lt_of_room store hroom
  obtain ⟨links, hlinks⟩ := NodeTable.links?_of_checkElement hcheck
  have helement := NodeTable.contains_of_links? hlinks
  have hne : element ≠ store.table.freshId := NodeTable.ne_freshId hsize helement
  obtain ⟨hmoved, hmembers⟩ := relinked_attributed hstore name value hcheck hroom
  have hstrings : ∀ {x}, store.contains x = true →
      SameStrings store (store.attributed element name value) x :=
    sameStrings_attributed hstore name value hcheck hroom hsmall
  have hkind : ∀ {x}, store.contains x = true →
      (store.attributed element name value).kind? x = store.kind? x := fun hx =>
    (hmoved.kind? _).trans (sameAt_planted hstore hroom (.attribute name value) hsmall hx).kind?
  refine ⟨hstore.of_setNew hcheck hfound hroom, rfl, rfl, ?_, ?_, rfl, ?_, hkind helement,
    (hstrings helement).name?, ?_, ?_, ?_,
    attributePairs_attributed hstore name value hcheck hroom hsmall hfound⟩
  · refine hmoved.size.trans ?_
    simp [planted, nodeCount]
  · simp [NodeTable.toNat_freshId hsize, nodeCount]
  · intro x hx hother
    have hlists : ∀ family, (store.attributed element name value).table.members family x =
        store.table.members family x :=
      fun family => (hmembers family x).trans (if_neg fun h => hother h.2)
    exact ⟨hkind hx, (hstrings hx).name?, (hstrings hx).content?, hlists .attributes,
      attributePairs_congr (hlists .attributes)
        fun y hy => (hstrings (hstore.wellFormed.contains_of_mem hy)).pair?, hlists .children⟩
  · refine (hmoved.parent? element).trans ((if_neg hne).trans ?_)
    exact NodeTable.parent?_push hsize
      ((Seed.attribute name value).isFresh_plant store.pool).parent element
  · exact (hmembers .children element).trans (if_neg fun h => by cases h.1)
  · exact (hmembers .attributes element).trans (if_pos ⟨rfl, rfl⟩)

end Attributed

theorem checkElement_eq_ok {element : NodeId} (hkind : store.kind? element = some .element) :
    store.table.checkElement element = .ok () := by
  obtain ⟨node, hnode, hnodeKind⟩ := Option.map_eq_some_iff.mp hkind
  have hnode' : store.table.get? element = some node := hnode
  simp [NodeTable.checkElement, NodeTable.find, hnode', hnodeKind]

/-- Setting an attribute of an element gives the one that was found another value, or adds one if
there is room. -/
theorem setAttribute_eq {element : NodeId} {name : Bytes} (value : Bytes) {found : Option NodeId}
    (hcheck : store.table.checkElement element = .ok ())
    (hfound : store.table.findNamed (store.pool.intern name).2 (store.attributes element) =
      .ok found) :
    store.setAttribute element name value = match found with
      | some id => .ok (store.revalued id name value)
      | none =>
          if store.nodeCount + 1 ≤ store.limits.maxNodes then
            .ok (store.attributed element name value)
          else .error (.storeFull store.limits.maxNodes) := by
  have hfound' : store.table.findNamed (store.pool.intern name).2
    (store.table.attributes element) = .ok found := hfound
  cases found with
  | some id =>
      simp only [setAttribute, hcheck, hfound']
      rfl
  | none =>
      unfold nodeCount
      by_cases hroom : store.table.size + 1 ≤ store.limits.maxNodes
      · simp only [setAttribute, hcheck, hfound', NodeTable.add, if_pos hroom]
        rfl
      · simp only [setAttribute, hcheck, hfound', NodeTable.add, if_neg hroom]

/-- Setting an attribute of an element fails only for want of room, and needs room only for a name
that is not there. -/
theorem setAttribute_cases (hstore : store.Sound) {element : NodeId} {name value : Bytes}
    (hkind : store.kind? element = some .element)
    (hsmall : ((Seed.attribute name value).plant store.pool).1.bytesUsed < UInt32.size) :
    (name ∈ (store.attributePairs element).map Prod.fst ∧ ∃ next,
      store.setAttribute element name value = .ok next ∧
        AttributeSet store next element name value []) ∨
    (name ∉ (store.attributePairs element).map Prod.fst ∧
      store.nodeCount + 1 ≤ store.limits.maxNodes ∧ ∃ next,
      store.setAttribute element name value = .ok next ∧
        AttributeSet store next element name value [store.table.freshId]) ∨
    (name ∉ (store.attributePairs element).map Prod.fst ∧
      ¬ store.nodeCount + 1 ≤ store.limits.maxNodes ∧
      store.setAttribute element name value = .error (.storeFull store.limits.maxNodes)) := by
  have hbefore := (Seed.attribute name value).bytesUsed_lt_of_plant hsmall
  have hcheck := checkElement_eq_ok hkind
  obtain ⟨found, hfound⟩ := hstore.findNamed_ok element (store.pool.intern name).2
  have hthere := isSome_findNamed_iff hstore hbefore hfound
  have hset := setAttribute_eq value hcheck hfound
  cases found with
  | some id => exact .inl ⟨hthere.mp rfl, _, hset, attributeSet_known hstore hsmall hfound⟩
  | none =>
      have hname : name ∉ (store.attributePairs element).map Prod.fst :=
        mt hthere.mpr Bool.false_ne_true
      by_cases hroom : store.nodeCount + 1 ≤ store.limits.maxNodes
      · exact .inr (.inl ⟨hname, hroom, _, hset.trans (if_pos hroom),
          attributeSet_new hstore _ _ hcheck hroom hsmall hfound⟩)
      · exact .inr (.inr ⟨hname, hroom, hset.trans (if_neg hroom)⟩)

end Store

end VersionedXml
