import VersionedXml.Proofs.Store.Attributes
import VersionedXml.Proofs.Store.Spine
import VersionedXml.Store.Parse

/-!
# Building a document

The outline of a list of entities, committed to an empty store, makes a store in which the trees of
these entities stand.  Nothing but a want of room can make it fail.  Nodes are numbered in the order
of the document, each element before its attributes and these before its children.
-/

namespace VersionedXml

/-! ## Interning many strings -/

namespace Pool

def internAll (pool : Pool) (texts : List Bytes) : Pool :=
  texts.foldl (fun pool text => (pool.intern text).1) pool

theorem internAll_append (pool : Pool) (left right : List Bytes) :
    pool.internAll (left ++ right) = (pool.internAll left).internAll right :=
  List.foldl_append

theorem bytesUsed_le_internAll (pool : Pool) (texts : List Bytes) :
    pool.bytesUsed ≤ (pool.internAll texts).bytesUsed := by
  induction texts generalizing pool with
  | nil => exact Nat.le_refl _
  | cons text rest ih => exact Nat.le_trans (pool.bytesUsed_le_intern text) (ih _)

/-- Strings take no more room than all of them together have bytes. -/
theorem bytesUsed_internAll_le (pool : Pool) (texts : List Bytes) :
    (pool.internAll texts).bytesUsed ≤ pool.bytesUsed + (texts.map List.length).sum := by
  induction texts generalizing pool with
  | nil => exact Nat.le_refl _
  | cons text rest ih =>
      have hfirst := (bytesUsed_internWith digest pool text).2
      have hrest := ih (pool.intern text).1
      simp only [List.map_cons, List.sum_cons]
      refine Nat.le_trans hrest ?_
      unfold intern at *
      omega

end Pool

def Seed.texts : Seed → List Bytes
  | .document => []
  | .element name => [name]
  | .attribute name value => [name, value]
  | .leaf _ content => [content]

theorem Seed.plant_eq_internAll (seed : Seed) (pool : Pool) :
    (seed.plant pool).1 = pool.internAll seed.texts := by
  cases seed <;> rfl

namespace Store

variable {before store next : Store} {child : NodeId}

/-! ## A new node and its attributes -/

structure Sprout (before store : Store) (child : NodeId) : Prop where
  sound : store.Sound
  nodeCount_pos : 0 < before.nodeCount
  limits : store.limits = before.limits
  created : store.created = before.created.push child
  child_eq : child = before.table.freshId
  others : ∀ x, before.contains x = true → SameAt before store x
  kind : store.kind? child = some .element ∨ ∃ kind, store.kind? child = some (.leaf kind)
  parent? : store.parent? child = none
  children : store.children child = []
  nodeCount : store.nodeCount = before.nodeCount + 1 + (store.attributes child).length
  attributes : (child :: store.attributes child).map UInt32.toNat =
    List.range' (before.nodeCount + 1) (1 + (store.attributes child).length)
  pairs : (store.attributePairs child).length = (store.attributes child).length

theorem sprout_planted (hbefore : before.Sound)
    (hroom : before.nodeCount + 1 ≤ before.limits.maxNodes) {seed : Seed}
    (hseed : seed.kind = .element ∨ ∃ kind, seed.kind = .leaf kind)
    (hsmall : (before.pool.internAll seed.texts).bytesUsed < UInt32.size) :
    Sprout before (before.planted seed) before.table.freshId := by
  have hsize := Sound.size_lt_of_room before hroom
  have hmembers := members_planted_freshId hbefore hroom seed
  have hkind := kind?_planted hroom seed
  have hattributes : (before.planted seed).attributes before.table.freshId = [] :=
    hmembers .attributes
  rw [← Seed.plant_eq_internAll] at hsmall
  refine ⟨planted_sound hbefore hroom seed, hbefore.nodeCount_pos, rfl, rfl, rfl, ?_, ?_,
    parent?_planted hroom seed,
    hmembers .children, ?_, ?_, ?_⟩
  · exact fun x hx => sameAt_planted hbefore hroom seed hsmall hx
  · rcases hseed with hseed | ⟨kind, hseed⟩
    · exact .inl (hkind.trans (congrArg some hseed))
    · exact .inr ⟨kind, hkind.trans (congrArg some hseed)⟩
  · rw [hattributes]
    simp [Store.nodeCount, planted]
  · rw [hattributes]
    simp [NodeTable.toNat_freshId hsize, Store.nodeCount]
  · simp [attributePairs, hattributes]

namespace Sprout

theorem contains_of_contains (hsprout : Sprout before store child) {x : NodeId}
    (hx : before.contains x = true) : store.contains x = true := by
  have hkind := (hsprout.others x hx).kind?
  have hsome : (before.kind? x).isSome = true :=
    (NodeTable.contains_eq_kind? before.table x).symm.trans hx
  exact (NodeTable.contains_eq_kind? store.table x).trans
    ((congrArg Option.isSome hkind).trans hsome)

theorem ne_of_contains (hsprout : Sprout before store child) {x : NodeId}
    (hx : before.contains x = true) : x ≠ child := by
  rintro rfl
  obtain ⟨-, hle⟩ := NodeTable.contains_iff.mp hx
  have hnumber := congrArg List.head? hsprout.attributes
  rw [Nat.add_comm 1] at hnumber
  simp only [List.map_cons, List.head?_cons, List.range'_succ, Option.some.injEq] at hnumber
  unfold Store.nodeCount at hnumber
  omega

/-- A new element stays new when it receives an attribute. -/
theorem attributeSet {name value : Bytes} {added : List NodeId}
    (hsprout : Sprout before store child)
    (hset : AttributeSet store next child name value added)
    (hlength : (putPair name value (store.attributePairs child)).length =
      (store.attributePairs child).length + added.length) : Sprout before next child := by
  have hcount : (next.attributes child).length =
      (store.attributes child).length + added.length := by
    rw [hset.attributes, List.length_append]
  refine ⟨hset.sound, hsprout.nodeCount_pos, hset.limits.trans hsprout.limits,
    hset.created.trans hsprout.created, hsprout.child_eq, ?_, ?_, hset.parent?.trans hsprout.parent?,
    hset.children.trans hsprout.children, ?_, ?_, ?_⟩
  · intro x hx
    exact (hsprout.others x hx).trans
      (hset.others x (hsprout.contains_of_contains hx) (hsprout.ne_of_contains hx))
  · rw [hset.kind?]
    exact hsprout.kind
  · rw [hset.nodeCount, hsprout.nodeCount, hcount]
    omega
  · have hfresh := hset.fresh
    rw [hsprout.nodeCount, Nat.add_assoc before.nodeCount, Nat.add_right_comm] at hfresh
    rw [hcount, ← Nat.add_assoc, ← List.range'_append_1, hset.attributes, ← List.cons_append,
      List.map_append, hsprout.attributes, hfresh]
  · rw [hset.pairs, hlength, hsprout.pairs, hcount]

theorem nodeCount_le (hsprout : Sprout before store child) :
    before.nodeCount + 1 + (store.attributePairs child).length ≤ before.limits.maxNodes := by
  have hcount := hsprout.nodeCount
  have hpos := hsprout.nodeCount_pos
  have hroom : store.nodeCount ≤ max 1 store.limits.maxNodes := hsprout.sound.size_le
  rw [hsprout.limits] at hroom
  rw [hsprout.pairs]
  omega

end Sprout

/-- A run of edits that ends in a store with the property if what it needs fits, and for want of
room if not. -/
def Outcome (fits : Prop) (limits : Limits) (result : Except StoreError Store)
    (goal : Store → Prop) : Prop :=
  (fits ∧ ∃ next, result = .ok next ∧ goal next) ∨
    (¬ fits ∧ result = .error (.storeFull limits.maxNodes))

/-- What needs the same room and asks for less has an outcome, too. -/
theorem Outcome.mono {fits fits' : Prop} {limits : Limits} {result : Except StoreError Store}
    {goal goal' : Store → Prop} (houtcome : Outcome fits limits result goal)
    (hfits : fits ↔ fits') (hgoal : ∀ next, goal next → goal' next) :
    Outcome fits' limits result goal' := by
  rcases houtcome with ⟨hroom, next, hok, hnext⟩ | ⟨hfull, herror⟩
  · exact .inl ⟨hfits.mp hroom, next, hok, hgoal next hnext⟩
  · exact .inr ⟨fun hroom => hfull (hfits.mpr hroom), herror⟩

def attributeEdits (element : Target) (pairs : List (Bytes × Bytes)) : List Edit :=
  pairs.map fun pair => .setAttribute element pair.1 pair.2

/-- A new element receives one attribute, unless there is no room for it. -/
theorem Sprout.setAttribute {name value : Bytes} (hsprout : Sprout before store child)
    (hkind : store.kind? child = some .element)
    (hsmall : ((Seed.attribute name value).plant store.pool).1.bytesUsed < UInt32.size) :
    Outcome
      (before.nodeCount + 1 + (putPair name value (store.attributePairs child)).length ≤
        before.limits.maxNodes)
      before.limits (store.setAttribute child name value) fun next =>
        Sprout before next child ∧ next.created = store.created ∧
        next.kind? child = some .element ∧ next.name? child = store.name? child ∧
        next.pool = ((Seed.attribute name value).plant store.pool).1 ∧
        next.attributePairs child = putPair name value (store.attributePairs child) := by
  have hlength := length_putPair name value (store.attributePairs child)
  rcases setAttribute_cases hsprout.sound hkind hsmall with
    ⟨hname, next, hok, hset⟩ | ⟨hname, hroom, next, hok, hset⟩ | ⟨hname, hroom, herror⟩
  · rw [if_pos hname] at hlength
    have hgrown := hsprout.attributeSet hset hlength
    have hfits := hgrown.nodeCount_le
    rw [hset.pairs] at hfits
    exact .inl ⟨hfits, next, hok, hgrown, hset.created, hset.kind?.trans hkind, hset.name?,
      hset.pool, hset.pairs⟩
  · rw [if_neg hname] at hlength
    have hgrown := hsprout.attributeSet hset hlength
    have hfits := hgrown.nodeCount_le
    rw [hset.pairs] at hfits
    exact .inl ⟨hfits, next, hok, hgrown, hset.created, hset.kind?.trans hkind, hset.name?,
      hset.pool, hset.pairs⟩
  · refine .inr ⟨?_, hsprout.limits ▸ herror⟩
    rw [if_neg hname, hsprout.pairs] at hlength
    rw [hsprout.nodeCount, hsprout.limits] at hroom
    omega

/-- A new element receives its attributes, unless there is no room for them. -/
theorem Sprout.foldlM_attributeEdits {element : Target} {pairs : List (Bytes × Bytes)}
    (hsprout : Sprout before store child) (hkind : store.kind? child = some .element)
    (htarget : store.target element = .ok child)
    (hsmall : (store.pool.internAll (pairs.flatMap fun pair => [pair.1, pair.2])).bytesUsed <
      UInt32.size) :
    Outcome
      (before.nodeCount + 1 + (putPairs (store.attributePairs child) pairs).length ≤
        before.limits.maxNodes)
      before.limits ((attributeEdits element pairs).foldlM apply store) fun next =>
        Sprout before next child ∧ next.kind? child = some .element ∧
        next.name? child = store.name? child ∧
        next.pool = store.pool.internAll (pairs.flatMap fun pair => [pair.1, pair.2]) ∧
        next.attributePairs child = putPairs (store.attributePairs child) pairs := by
  induction pairs generalizing store with
  | nil => exact .inl ⟨hsprout.nodeCount_le, store, rfl, hsprout, hkind, rfl, rfl, rfl⟩
  | cons pair rest ih =>
      obtain ⟨name, value⟩ := pair
      have hmore : store.pool.internAll (((name, value) :: rest).flatMap fun pair =>
          [pair.1, pair.2]) = ((Seed.attribute name value).plant store.pool).1.internAll
            (rest.flatMap fun pair => [pair.1, pair.2]) := by
        rw [List.flatMap_cons, Pool.internAll_append]
        rfl
      have happly : store.apply (.setAttribute element name value) =
          store.setAttribute child name value := by
        simp only [apply, htarget]
        rfl
      rw [hmore] at hsmall ⊢
      rcases hsprout.setAttribute hkind
        (Nat.lt_of_le_of_lt (Pool.bytesUsed_le_internAll _ _) hsmall) with
        ⟨-, next, hok, hgrown, hcreated, hnextKind, hname, hpool, hpairs⟩ | ⟨hfull, herror⟩
      · have hnextTarget : next.target element = .ok child := by
          unfold target at htarget ⊢
          rw [hcreated]
          exact htarget
        have hrest := ih hgrown hnextKind hnextTarget (hpool ▸ hsmall)
        rw [hname, hpool, hpairs] at hrest
        rw [attributeEdits, List.map_cons, List.foldlM_cons, happly, hok]
        exact hrest
      · refine .inr ⟨fun hfits => hfull ?_, ?_⟩
        · have hle := length_le_length_putPairs (putPair name value (store.attributePairs child)) rest
          exact Nat.le_trans (Nat.add_le_add_left hle _) hfits
        · rw [attributeEdits, List.map_cons, List.foldlM_cons, happly, herror]
          rfl

/-! ## The outline of a document -/

/-- The root comes before all numbers of a listing that begins behind it. -/
theorem map_toNat_cons_rootId {listing : List NodeId} {count : Nat}
    (hlisting : listing.map UInt32.toNat = List.range' 2 count) :
    (rootId :: listing).map UInt32.toNat = List.range' 1 (count + 1) := by
  rw [List.range'_succ, List.map_cons, hlisting]
  rfl

/-- The store holds what the outline says: its open elements are on the path, and all nodes are
listed in the order of their identifiers. -/
structure Built (limits : Limits) (store : Store) (outline : Outline) (growth : Growth)
    (openIds listing : List NodeId) : Prop where
  run : outline.batch.edits.foldlM apply (empty limits).next = .ok store
  sound : store.Sound
  limits_eq : store.limits = limits
  created : store.created.size = outline.batch.created
  targets : outline.openElements.map store.target = openIds.map .ok
  spine : store.Spine growth.grown growth.openElements openIds none listing
  listing_eq : listing.map UInt32.toNat = List.range' 2 growth.count
  nodeCount : store.nodeCount = growth.count + 1

/-- The edits of an outline that opens an element. -/
theorem batch_openElement (outline : Outline) (name : Bytes) (pairs : List (Bytes × Bytes)) :
    (outline.openElement name pairs).batch.edits = outline.batch.edits ++
        (.create (.element name) :: (attributeEdits (.created outline.batch.created) pairs ++
          [.insert .last outline.parent (.created outline.batch.created)])) ∧
      (outline.openElement name pairs).batch.created = outline.batch.created + 1 := by
  have hfold : ∀ batch : Batch,
      (pairs.foldl (fun batch pair =>
        batch.setAttribute (.created outline.batch.created) pair.1 pair.2) batch) =
      ⟨(attributeEdits (.created outline.batch.created) pairs).reverse ++ batch.written,
        batch.created⟩ := by
    induction pairs with
    | nil => exact fun batch => rfl
    | cons pair rest ih =>
        intro batch
        rw [List.foldl_cons, ih]
        simp [Batch.setAttribute, attributeEdits]
  simp [Outline.openElement, Batch.create, hfold, Batch.insert, Batch.edits]

/-- A reference to a node stays good when another node is created. -/
theorem target_of_push (hcreated : store.created = before.created.push child) {target : Target}
    {id : NodeId} (htarget : before.target target = .ok id) : store.target target = .ok id := by
  cases target with
  | node given => exact htarget
  | created index =>
      cases hindex : before.created[index]? with
      | none => simp [Store.target, hindex] at htarget
      | some found =>
          have hlt := (Array.getElem?_eq_some_iff.mp hindex).1
          simp only [Store.target, hindex] at htarget
          simp only [Store.target, hcreated]
          rw [Array.getElem?_push_lt hlt, ← Array.getElem?_eq_getElem hlt, hindex]
          exact htarget

namespace Built

variable {limits : Limits} {outline : Outline} {growth : Growth} {openIds listing : List NodeId}

theorem map_listing (hbuilt : Built limits store outline growth openIds listing) :
    (rootId :: listing).map UInt32.toNat = List.range' 1 store.nodeCount := by
  rw [hbuilt.nodeCount]
  exact map_toNat_cons_rootId hbuilt.listing_eq

theorem nodup_listing (hbuilt : Built limits store outline growth openIds listing) :
    (rootId :: listing).Nodup := by
  refine List.Nodup.of_map UInt32.toNat ?_
  rw [hbuilt.map_listing]
  exact List.nodup_range'

theorem contains_of_mem (hbuilt : Built limits store outline growth openIds listing) {x : NodeId}
    (hx : x ∈ rootId :: listing) : store.contains x = true := by
  have hmember : x.toNat ∈ List.range' 1 store.nodeCount :=
    hbuilt.map_listing ▸ List.mem_map_of_mem hx
  obtain ⟨hpos, hle⟩ := List.mem_range'_1.mp hmember
  refine NodeTable.contains_iff.mpr ⟨?_, ?_⟩
  · rintro rfl
    simp at hpos
  · unfold Store.nodeCount at hle
    omega

theorem innermost_mem (hbuilt : Built limits store outline growth openIds listing) :
    innermost openIds ∈ rootId :: listing := by
  rcases hbuilt.spine.innermost_mem with hroot | hmember
  · rw [hroot]
    exact List.mem_cons_self
  · exact List.mem_cons_of_mem _ hmember

theorem target_parent (hbuilt : Built limits store outline growth openIds listing) :
    store.target outline.parent = .ok (innermost openIds) := by
  have htargets := hbuilt.targets
  unfold Outline.parent innermost
  cases helements : outline.openElements with
  | nil =>
      rw [helements] at htargets
      cases List.map_eq_nil_iff.mp htargets.symm
      rfl
  | cons first rest =>
      rw [helements, List.map_cons] at htargets
      cases openIds with
      | nil => cases htargets
      | cons id others => exact (List.cons.inj htargets).1

/-- The new node becomes the last child of the innermost open element. -/
theorem insert (hbuilt : Built limits before outline growth openIds listing)
    (hsprout : Sprout before store child) :
    ∃ next, store.apply (.insert .last outline.parent (.created outline.batch.created)) =
        .ok next ∧
      next.Sound ∧ next.limits = limits ∧ next.pool = store.pool ∧
      next.created = before.created.push child ∧
      next.nodeCount = growth.count + (1 + (store.attributes child).length) + 1 ∧
      SameAt store next child ∧
      next.Spine growth.grown growth.openElements openIds (some child) listing := by
  have hparent := hbuilt.contains_of_mem hbuilt.innermost_mem
  have hsame := hsprout.others _ hparent
  have hkind : store.kind? (innermost openIds) = some .document ∨
      store.kind? (innermost openIds) = some .element := by
    rw [hsame.kind?]
    exact hbuilt.spine.kind?_innermost hbuilt.sound.wellFormed.root
  have hne : child ≠ innermost openIds := (hsprout.ne_of_contains hparent).symm
  have hcheck := checkInsert_eq_ok hsprout.sound hkind hsprout.kind hsprout.parent?
    hsprout.children hne
  have hmoved : ChildMoved store
      { store with
        table := store.table.attach .last .children (innermost openIds) child }
      (innermost openIds) child (some (innermost openIds))
      (store.children (innermost openIds) ++ [child]) := childMoved_of_insert hsprout.sound hcheck
  have hchildTarget : store.target (.created outline.batch.created) = .ok child := by
    simp [Store.target, hsprout.created, ← hbuilt.created]
  refine ⟨_, ?_, hsprout.sound.of_insert .last hcheck, hsprout.limits.trans hbuilt.limits_eq, rfl,
    hsprout.created, ?_, sameAt_insert hsprout.sound hcheck hne, ?_⟩
  · simp only [apply, target_of_push hsprout.created hbuilt.target_parent, hchildTarget]
    simp [Store.insert, hcheck, bind, Except.bind]
  · have hsize : (store.table.attach .last .children (innermost openIds) child).size =
        store.nodeCount := by
      simp [Store.nodeCount, NodeTable.attach, NodeTable.attachLast]
    refine hsize.trans ?_
    rw [hsprout.nodeCount, hbuilt.nodeCount]
    omega
  · have hroot := hbuilt.contains_of_mem List.mem_cons_self
    have hspine : store.Spine growth.grown growth.openElements openIds none listing :=
      hbuilt.spine.congr
        (fun x hx => hsprout.others x (hbuilt.contains_of_mem (List.mem_cons_of_mem _ hx)))
        (hsprout.others rootId hroot).children
    refine hspine.extend hbuilt.nodup_listing (fun x _ hx => sameAt_insert hsprout.sound hcheck hx)
      (hmoved.kind? _) (hmoved.name? _) (hmoved.attributes _) ?_ hmoved.children
    refine attributePairs_congr (hmoved.attributes _) fun id _ => ?_
    unfold Store.pair?
    rw [hmoved.name?, hmoved.value?]

theorem targets_of_push (hbuilt : Built limits before outline growth openIds listing)
    (hcreated : store.created = before.created.push child) :
    outline.openElements.map store.target = openIds.map .ok := by
  rw [← hbuilt.targets]
  refine List.map_congr_left fun target htarget => ?_
  have hmember : before.target target ∈ openIds.map .ok :=
    hbuilt.targets ▸ List.mem_map_of_mem htarget
  obtain ⟨id, -, hid⟩ := List.mem_map.mp hmember
  rw [← hid]
  exact target_of_push hcreated hid.symm

theorem map_listing_append (hbuilt : Built limits before outline growth openIds listing)
    (hsprout : Sprout before store child) :
    (listing ++ (child :: store.attributes child)).map UInt32.toNat =
      List.range' 2 (growth.count + (1 + (store.attributes child).length)) := by
  have hnew := hsprout.attributes
  rw [hbuilt.nodeCount] at hnew
  rw [List.map_append, hbuilt.listing_eq, hnew,
    show growth.count + 1 + 1 = 2 + growth.count by omega]
  exact List.range'_append_1

/-- Edits that come behind those of the outline are applied to the store, and the first of them
creates a node. -/
theorem foldlM_create (hbuilt : Built limits before outline growth openIds listing) (seed : Seed)
    (edits : List Edit) :
    (outline.batch.edits ++ .create seed :: edits).foldlM apply (empty limits).next =
      if before.nodeCount + 1 ≤ limits.maxNodes then edits.foldlM apply (before.planted seed)
      else .error (.storeFull limits.maxNodes) := by
  have hcreate := apply_create before seed
  rw [hbuilt.limits_eq] at hcreate
  rw [List.foldlM_append, hbuilt.run]
  simp only [bind, Except.bind, List.foldlM_cons, hcreate]
  by_cases hroom : before.nodeCount + 1 ≤ limits.maxNodes
  · rw [if_pos hroom, if_pos hroom]
  · rw [if_neg hroom, if_neg hroom]

/-- A leaf is put into the innermost open element. -/
theorem addLeaf (hbuilt : Built limits store outline growth openIds listing) (kind : LeafKind)
    (content : Bytes) (hsmall : (store.pool.internAll [content]).bytesUsed < UInt32.size) :
    Outcome (growth.count + 2 ≤ limits.maxNodes) limits
      ((outline.addLeaf kind content).batch.edits.foldlM apply (empty limits).next) fun next =>
        next.pool = store.pool.internAll [content] ∧ ∃ openIds listing,
          Built limits next (outline.addLeaf kind content) (growth.put (.leaf kind content)) openIds
            listing := by
  have hedits : (outline.addLeaf kind content).batch.edits = outline.batch.edits ++
      [.create (.leaf kind content),
        .insert .last outline.parent (.created outline.batch.created)] := by
    simp [Outline.addLeaf, Batch.create, Batch.insert, Batch.edits]
  have hrun := hbuilt.foldlM_create (.leaf kind content)
    [.insert .last outline.parent (.created outline.batch.created)]
  rw [← hedits] at hrun
  have hcount := hbuilt.nodeCount
  by_cases hroom : store.nodeCount + 1 ≤ limits.maxNodes
  · have hroom' : store.nodeCount + 1 ≤ store.limits.maxNodes := hbuilt.limits_eq.symm ▸ hroom
    have hsprout := sprout_planted hbuilt.sound hroom' (.inr ⟨kind, rfl⟩)
      (show (store.pool.internAll (Seed.leaf kind content).texts).bytesUsed < UInt32.size from hsmall)
    obtain ⟨next, hok, hsound, hlimits, hpool, hcreated, hnodes, hsame, hspine⟩ :=
      hbuilt.insert hsprout
    rw [if_pos hroom, List.foldlM_cons, hok] at hrun
    have hattributes : (store.planted (.leaf kind content)).attributes store.table.freshId = [] :=
      members_planted_freshId hbuilt.sound hroom' _ .attributes
    have hlisted := hbuilt.map_listing_append hsprout
    rw [hattributes] at hlisted hnodes
    have hstands : next.Stands [.leaf kind content] [store.table.freshId]
        [store.table.freshId] := by
      refine .leaf (hsame.kind?.trans (kind?_planted hroom' _)) ?_ .nil
      rw [hsame.content?, content?_planted hbuilt.sound hroom'
        (by rw [Seed.plant_eq_internAll]; exact hsmall)]
      rfl
    refine .inl ⟨by omega, next, hrun, ?_, openIds, listing ++ [store.table.freshId],
      hrun, hsound, hlimits, ?_, hbuilt.targets_of_push hcreated, hspine.put hstands, ?_, ?_⟩
    · rw [hpool]
      exact Seed.plant_eq_internAll _ _
    · rw [hcreated, Array.size_push, hbuilt.created]
      rfl
    · rw [Growth.count_put]
      exact hlisted
    · rw [Growth.count_put]
      exact hnodes
  · rw [if_neg hroom] at hrun
    exact .inr ⟨by omega, hrun⟩

/-- An element that is complete is inserted, and is then the innermost open one. -/
theorem insert_element (hbuilt : Built limits before outline growth openIds listing) {name : Bytes}
    {pairs : List (Bytes × Bytes)} (hsprout : Sprout before store child)
    (hkind : store.kind? child = some .element) (hname : store.name? child = some name)
    (hpairs : store.attributePairs child = collectPairs pairs)
    (hrun : (outline.openElement name pairs).batch.edits.foldlM apply (empty limits).next =
      store.apply (.insert .last outline.parent (.created outline.batch.created))) :
    ∃ next, (outline.openElement name pairs).batch.edits.foldlM apply (empty limits).next =
        .ok next ∧
      next.pool = store.pool ∧ ∃ openIds listing,
        Built limits next (outline.openElement name pairs) (growth.openElement name pairs) openIds
          listing := by
  obtain ⟨next, hok, hsound, hlimits, hpool, hcreated, hnodes, hsame, hspine⟩ :=
    hbuilt.insert hsprout
  rw [hok] at hrun
  have hlength : (store.attributes child).length = (collectPairs pairs).length := by
    rw [← hsprout.pairs, hpairs]
  have hlisted := hbuilt.map_listing_append hsprout
  rw [hlength] at hlisted hnodes
  refine ⟨next, hrun, hpool, child :: openIds, listing ++ (child :: next.attributes child), hrun,
    hsound, hlimits, ?_, ?_, hspine.openElement (hsame.kind?.trans hkind)
      (hsame.name?.trans hname) (hsame.attributePairs.trans hpairs)
      (hsame.children.trans hsprout.children), ?_, ?_⟩
  · rw [hcreated, Array.size_push, hbuilt.created, (batch_openElement outline name pairs).2]
  · have hopened : (outline.openElement name pairs).openElements =
        .created outline.batch.created :: outline.openElements := rfl
    have hchild : next.target (.created outline.batch.created) = .ok child := by
      simp [Store.target, hcreated, ← hbuilt.created]
    rw [hopened, List.map_cons, List.map_cons, hchild, hbuilt.targets_of_push hcreated]
  · rw [Growth.count_openElement, hsame.attributes, hlisted, Nat.add_assoc]
  · rw [Growth.count_openElement, hnodes]
    omega

/-- An element is opened inside the innermost one. -/
theorem openElement (hbuilt : Built limits store outline growth openIds listing) (name : Bytes)
    (pairs : List (Bytes × Bytes))
    (hsmall : (store.pool.internAll (name :: pairs.flatMap fun pair => [pair.1, pair.2])).bytesUsed <
      UInt32.size) :
    Outcome (growth.count + 2 + (collectPairs pairs).length ≤ limits.maxNodes) limits
      ((outline.openElement name pairs).batch.edits.foldlM apply (empty limits).next) fun next =>
        next.pool = store.pool.internAll (name :: pairs.flatMap fun pair => [pair.1, pair.2]) ∧
          ∃ openIds listing, Built limits next (outline.openElement name pairs)
            (growth.openElement name pairs) openIds listing := by
  have hedits := (batch_openElement outline name pairs).1
  have hrun := hbuilt.foldlM_create (.element name)
    (attributeEdits (.created outline.batch.created) pairs ++
      [.insert .last outline.parent (.created outline.batch.created)])
  rw [← hedits] at hrun
  have hcount := hbuilt.nodeCount
  have hfirst : (store.pool.internAll (Seed.element name).texts).bytesUsed < UInt32.size :=
    Nat.lt_of_le_of_lt (Pool.bytesUsed_le_internAll _ _) hsmall
  by_cases hroom : store.nodeCount + 1 ≤ limits.maxNodes
  · rw [if_pos hroom, List.foldlM_append] at hrun
    have hroom' : store.nodeCount + 1 ≤ store.limits.maxNodes := hbuilt.limits_eq.symm ▸ hroom
    have hsprout := sprout_planted hbuilt.sound hroom' (.inl rfl) hfirst
    have htarget : (store.planted (.element name)).target (.created outline.batch.created) =
        .ok store.table.freshId := by
      simp [Store.target, planted, ← hbuilt.created]
    have hnone : (store.planted (.element name)).attributePairs store.table.freshId = [] := by
      have hattributes : (store.planted (.element name)).attributes store.table.freshId = [] :=
        members_planted_freshId hbuilt.sound hroom' _ .attributes
      simp [attributePairs, hattributes]
    have hrest : ((store.planted (.element name)).pool.internAll
        (pairs.flatMap fun pair => [pair.1, pair.2])).bytesUsed < UInt32.size := hsmall
    have houtcome := hsprout.foldlM_attributeEdits (kind?_planted hroom' _) htarget hrest
    rw [hnone, ← collectPairs_eq, hbuilt.limits_eq] at houtcome
    rcases houtcome with
      ⟨hfits, filled, hfilled, hgrown, hkind, hname, hfilledPool, hpairs⟩ | ⟨hfull, herror⟩
    · rw [hfilled] at hrun
      have hnamed : filled.name? store.table.freshId = some name := by
        rw [hname]
        exact name?_planted hbuilt.sound hroom' (by rw [Seed.plant_eq_internAll]; exact hfirst)
      have hinsert : (outline.openElement name pairs).batch.edits.foldlM apply (empty limits).next =
          filled.apply (.insert .last outline.parent (.created outline.batch.created)) :=
        hrun.trans (bind_pure (filled.apply _))
      obtain ⟨next, hok, hpool, hnext⟩ := hbuilt.insert_element hgrown hkind hnamed hpairs hinsert
      exact .inl ⟨by omega, next, hok, hpool.trans hfilledPool, hnext⟩
    · rw [herror] at hrun
      exact .inr ⟨by omega, hrun⟩
  · rw [if_neg hroom] at hrun
    exact .inr ⟨by omega, hrun⟩

theorem closeElement (hbuilt : Built limits store outline growth openIds listing) :
    Built limits store outline.closeElement growth.closeElement openIds.tail listing := by
  refine ⟨hbuilt.run, hbuilt.sound, hbuilt.limits_eq, hbuilt.created, ?_,
    hbuilt.spine.closeElement, ?_, ?_⟩
  · rw [Outline.closeElement, List.map_tail, hbuilt.targets, List.map_tail]
  · rw [Growth.count_closeElement]
    exact hbuilt.listing_eq
  · rw [Growth.count_closeElement]
    exact hbuilt.nodeCount

theorem count_le (hbuilt : Built limits store outline growth openIds listing) :
    growth.count + 1 ≤ max 1 limits.maxNodes := by
  have hroom : store.nodeCount ≤ max 1 store.limits.maxNodes := hbuilt.sound.size_le
  rw [hbuilt.nodeCount, hbuilt.limits_eq] at hroom
  exact hroom

theorem add (hbuilt : Built limits store outline growth openIds listing) (input : Buffer)
    (whitespace : Whitespace) (entity : Entity)
    (hsmall : (store.pool.internAll (entity.texts input whitespace)).bytesUsed < UInt32.size) :
    Outcome ((growth.add input whitespace entity).count + 1 ≤ max 1 limits.maxNodes) limits
      ((outline.add input whitespace entity).batch.edits.foldlM apply (empty limits).next)
      fun next => next.pool = store.pool.internAll (entity.texts input whitespace) ∧
        ∃ openIds listing, Built limits next (outline.add input whitespace entity)
          (growth.add input whitespace entity) openIds listing := by
  have hstay := hbuilt.count_le
  obtain ⟨kind, span⟩ := entity
  match kind with
  | .opened name attributes selfClosing =>
      have hopened := hbuilt.openElement (name.slice input)
        (attributes.map fun pair => (pair.name.slice input, pair.value.slice input))
        (by simpa [Entity.texts, List.flatMap_map] using hsmall)
      refine hopened.mono ?_ fun next hnext => ?_
      · rw [Growth.add, Growth.count_openElement]
        omega
      · rw [List.flatMap_map] at hnext
        exact hnext
  | .closed name supplied =>
      have hclosed := hbuilt.closeElement
      exact .inl ⟨hclosed.count_le, store, hbuilt.run, rfl, _, _, hclosed⟩
  | .text =>
      simp only [Outline.add, Growth.add, Entity.texts] at hsmall ⊢
      split at hsmall
      · rename_i hdropped
        simp only [if_pos hdropped]
        exact .inl ⟨hstay, store, hbuilt.run, rfl, _, _, hbuilt⟩
      · rename_i hkept
        simp only [if_neg hkept]
        refine (hbuilt.addLeaf .text (span.slice input) hsmall).mono ?_ fun next hnext => hnext
        rw [Growth.count_put, Tree.nodeCount]
        omega
  | .enclosed kind content =>
      refine (hbuilt.addLeaf (.enclosed kind) (content.slice input) hsmall).mono ?_
        fun next hnext => hnext
      rw [Growth.add, Growth.count_put, Tree.nodeCount]
      omega

end Built

/-! ## The whole document -/

theorem edits_prefix_add (input : Buffer) (whitespace : Whitespace) (outline : Outline)
    (entity : Entity) :
    outline.batch.edits <+: (outline.add input whitespace entity).batch.edits := by
  have hleaf : ∀ kind content,
      outline.batch.edits <+: (outline.addLeaf kind content).batch.edits := by
    intro kind content
    simp [Outline.addLeaf, Batch.create, Batch.insert, Batch.edits]
  unfold Outline.add
  split
  · rw [(batch_openElement _ _ _).1]
    exact List.prefix_append _ _
  · exact List.prefix_refl _
  · dsimp only
    split
    · exact List.prefix_refl _
    · exact hleaf _ _
  · exact hleaf _ _

theorem edits_prefix_foldl_add (input : Buffer) (whitespace : Whitespace) (outline : Outline)
    (entities : List Entity) :
    outline.batch.edits <+: (entities.foldl (Outline.add input whitespace) outline).batch.edits := by
  induction entities generalizing outline with
  | nil => exact List.prefix_refl _
  | cons entity rest ih => exact (edits_prefix_add input whitespace outline entity).trans (ih _)

/-- Entities are added one after the other. -/
theorem Built.foldl_add {limits : Limits} {outline : Outline} {growth : Growth}
    {openIds listing : List NodeId} (hbuilt : Built limits store outline growth openIds listing)
    (input : Buffer) (whitespace : Whitespace) (entities : List Entity)
    (hsmall : (store.pool.internAll (entities.flatMap (Entity.texts input whitespace))).bytesUsed <
      UInt32.size) :
    Outcome
      ((entities.foldl (Growth.add input whitespace) growth).count + 1 ≤ max 1 limits.maxNodes)
      limits
      ((entities.foldl (Outline.add input whitespace) outline).batch.edits.foldlM apply
        (empty limits).next)
      fun next => ∃ openIds listing,
        Built limits next (entities.foldl (Outline.add input whitespace) outline)
          (entities.foldl (Growth.add input whitespace) growth) openIds listing := by
  induction entities generalizing store outline growth openIds listing with
  | nil => exact .inl ⟨hbuilt.count_le, store, hbuilt.run, _, _, hbuilt⟩
  | cons entity rest ih =>
      rw [List.flatMap_cons, Pool.internAll_append] at hsmall
      rw [List.foldl_cons, List.foldl_cons]
      rcases hbuilt.add input whitespace entity
        (Nat.lt_of_le_of_lt (Pool.bytesUsed_le_internAll _ _) hsmall) with
        ⟨-, next, -, hpool, openIds, listing, hnext⟩ | ⟨hfull, herror⟩
      · exact ih hnext (hpool ▸ hsmall)
      · refine .inr ⟨fun hfits => hfull ?_, ?_⟩
        · have hle := Growth.count_le_count_foldl_add input whitespace
            (growth.add input whitespace entity) rest
          omega
        · obtain ⟨more, hmore⟩ := edits_prefix_foldl_add input whitespace
            (outline.add input whitespace entity) rest
          rw [← hmore, List.foldlM_append, herror]
          rfl

theorem built_empty (limits : Limits) : Built limits (empty limits).next {} {} [] [] := by
  refine ⟨rfl, (empty_sound limits).of_next, rfl, rfl, rfl, ?_, rfl, rfl⟩
  have hchildren : (empty limits).next.children rootId = [] ++ (none : Option NodeId).toList :=
    NodeTable.members_initial .children rootId
  exact .root hchildren .nil

structure Holds (store : Store) (forest : List Tree) : Prop where
  trees : store.trees rootId = forest
  render : store.render = (Tree.renderAll forest).toArray
  nodeCount : store.nodeCount = Tree.nodeCountAll forest + 1

/-- The trees stand below the root, and their nodes, as they are listed, are numbered one after the
other, beginning behind the root. -/
structure Numbered (store : Store) (forest : List Tree) (listing : List NodeId) : Prop where
  sound : store.Sound
  stands : store.Stands forest (store.children rootId) listing
  listing_eq : listing.map UInt32.toNat = List.range' 2 (Tree.nodeCountAll forest)
  nodeCount : store.nodeCount = Tree.nodeCountAll forest + 1

theorem Numbered.holds {forest : List Tree} {listing : List NodeId}
    (hnumbered : store.Numbered forest listing) : store.Holds forest := by
  have hlength : listing.length ≤ store.nodeCount := by
    have hcount := congrArg List.length hnumbered.listing_eq
    rw [List.length_map, List.length_range'] at hcount
    rw [hnumbered.nodeCount, hcount]
    exact Nat.le_succ _
  exact ⟨hnumbered.stands.trees_eq hlength, hnumbered.stands.render_eq hnumbered.sound,
    hnumbered.nodeCount⟩

/-- The outline of a list of entities numbers the nodes of their trees, unless these have too many
nodes. -/
theorem commit_outline_numbered (limits : Limits) (input : Buffer) (whitespace : Whitespace)
    (entities : List Entity)
    (hsmall : (Pool.empty.internAll (entities.flatMap (Entity.texts input whitespace))).bytesUsed <
      UInt32.size) :
    Outcome
      (Tree.nodeCountAll (Tree.ofEntities input whitespace entities) + 1 ≤ max 1 limits.maxNodes)
      limits ((empty limits).commit (Outline.ofEntities input whitespace entities).batch.edits)
      fun store => ∃ listing, store.Numbered (Tree.ofEntities input whitespace entities) listing := by
  unfold Tree.ofEntities Outline.ofEntities commit
  rw [Growth.nodeCountAll_trees]
  rcases (built_empty limits).foldl_add input whitespace entities hsmall with
    ⟨hfits, applied, hok, openIds, listing, hbuilt⟩ | ⟨hfull, herror⟩
  · refine .inl ⟨hfits, _, by rw [hok]; rfl, listing, ?_⟩
    generalize hedits : (entities.foldl (Outline.add input whitespace) {}).batch.edits = edits
    have hkept : ∀ x, SameAt applied { applied with history := applied.history ++ [edits] } x :=
      fun x => ⟨rfl, rfl, rfl, rfl, rfl, rfl⟩
    exact ⟨hbuilt.sound.record edits, hbuilt.spine.stands.congr fun x _ => hkept x,
      hbuilt.listing_eq.trans (by rw [Growth.nodeCountAll_trees]),
      hbuilt.nodeCount.trans (by rw [Growth.nodeCountAll_trees])⟩
  · exact .inr ⟨hfull, by rw [herror]; rfl⟩

/-- The outline of a list of entities makes a store that holds their trees, unless these have too
many nodes. -/
theorem commit_outline (limits : Limits) (input : Buffer) (whitespace : Whitespace)
    (entities : List Entity)
    (hsmall : (Pool.empty.internAll (entities.flatMap (Entity.texts input whitespace))).bytesUsed <
      UInt32.size) :
    Outcome
      (Tree.nodeCountAll (Tree.ofEntities input whitespace entities) + 1 ≤ max 1 limits.maxNodes)
      limits ((empty limits).commit (Outline.ofEntities input whitespace entities).batch.edits)
      fun store => store.Holds (Tree.ofEntities input whitespace entities) :=
  (commit_outline_numbered limits input whitespace entities hsmall).mono Iff.rfl
    fun _ ⟨_, hnumbered⟩ => hnumbered.holds

end Store

end VersionedXml
