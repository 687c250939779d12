import Mathlib
import VersionedXml.Proofs.Store.Attributes

/-!
# What a node stays

Versions of a store share their identifiers.  A node keeps its kind, its name and its content in all
later versions, a string keeps its identifier, and an attribute stays with its element or stands
nowhere.  Nodes are numbered in the order in which they are added, and no number is given twice.
Only setting an attribute changes a value, and it has to be that attribute.
-/

namespace VersionedXml.Store

variable {store next : Store}

/-! ## One edit -/

theorem Applied.bytesUsed_le {edit : Edit} (happlied : store.Applied edit next) :
    store.pool.bytesUsed ≤ next.pool.bytesUsed := by
  cases happlied with
  | create seed => exact seed.bytesUsed_le_plant store.pool
  | insert => exact Nat.le_refl _
  | remove => exact Nat.le_refl _
  | @setKnown _ _ _ name value => exact (Seed.attribute name value).bytesUsed_le_plant store.pool
  | @setNew _ _ name value => exact (Seed.attribute name value).bytesUsed_le_plant store.pool
  | unsetUnknown => exact Nat.le_refl _
  | unset => exact Nat.le_refl _

theorem bytesUsed_le_of_foldlM_apply {edits : List Edit}
    (hnext : edits.foldlM apply store = .ok next) : store.pool.bytesUsed ≤ next.pool.bytesUsed :=
  foldlM_apply_induction (motive := fun after => store.pool.bytesUsed ≤ after.pool.bytesUsed) hnext
    (Nat.le_refl _) fun happlied hbefore => Nat.le_trans hbefore happlied.bytesUsed_le

/-- The nodes and strings of a store are what they were, and attributes have not moved to other
elements. -/
structure Continues (store next : Store) : Prop where
  strings : next.pool.Extends store.pool
  kind? : ∀ id, store.contains id = true → next.kind? id = store.kind? id
  name? : ∀ id, store.contains id = true → next.name? id = store.name? id
  content? : ∀ id, store.contains id = true → next.content? id = store.content? id
  parent? : ∀ id, store.kind? id = some .attribute →
    next.parent? id = store.parent? id ∨ next.parent? id = none

theorem contains_of_kind? {id : NodeId} {kind : NodeKind} (hkind : store.kind? id = some kind) :
    store.contains id = true :=
  (NodeTable.contains_eq_kind? store.table id).trans (congrArg Option.isSome hkind)

namespace Continues

theorem refl (store : Store) : Continues store store :=
  ⟨fun _ _ hid => hid, fun _ _ => rfl, fun _ _ => rfl, fun _ _ => rfl, fun _ _ => .inl rfl⟩

theorem contains {id : NodeId} (hnext : Continues store next) (hid : store.contains id = true) :
    next.contains id = true := by
  have hkind := congrArg Option.isSome (hnext.kind? id hid)
  exact (NodeTable.contains_eq_kind? next.table id).trans
    (hkind.trans ((NodeTable.contains_eq_kind? store.table id).symm.trans hid))

theorem trans {middle : Store} (hmiddle : Continues store middle) (hnext : Continues middle next) :
    Continues store next where
  strings := hnext.strings.trans hmiddle.strings
  kind? id hid := (hnext.kind? id (hmiddle.contains hid)).trans (hmiddle.kind? id hid)
  name? id hid := (hnext.name? id (hmiddle.contains hid)).trans (hmiddle.name? id hid)
  content? id hid := (hnext.content? id (hmiddle.contains hid)).trans (hmiddle.content? id hid)
  parent? id hkind := by
    have hmiddleKind := (hmiddle.kind? id (contains_of_kind? hkind)).trans hkind
    rcases hnext.parent? id hmiddleKind with hsame | hnone
    · rw [hsame]
      exact hmiddle.parent? id hkind
    · exact .inr hnone

/-- A node that moves leaves all others what they were.  An attribute moves nowhere but away. -/
theorem of_relinked {after : NodeTable} {family : Family} {owner id : NodeId}
    {parent : Option NodeId} {ids : List NodeId}
    (hmoved : NodeTable.Relinked store.table after family owner id parent ids)
    (haway : store.kind? id = some .attribute → parent = none) :
    Continues store { store with table := after } := by
  have hstrings := sameStrings_of_relinked hmoved
  refine ⟨fun _ _ hid => hid, fun x _ => hmoved.kind? x, fun x _ => (hstrings x).name?,
    fun x _ => (hstrings x).content?, fun x hkind => ?_⟩
  have hparent := hmoved.parent? x
  by_cases hx : x = id
  · rw [if_pos hx, haway (hx ▸ hkind)] at hparent
    exact .inr hparent
  · rw [if_neg hx] at hparent
    exact .inl hparent

theorem of_create (hstore : store.Sound) (seed : Seed)
    (hroom : store.nodeCount + 1 ≤ store.limits.maxNodes)
    (hsmall : (seed.plant store.pool).1.bytesUsed < UInt32.size) :
    Continues store (store.planted seed) := by
  have hsize := Sound.size_lt_of_room store hroom
  have hsame := fun {x} => sameAt_planted hstore hroom seed hsmall (x := x)
  exact ⟨seed.plant_extends store.pool, fun _ hid => (hsame hid).kind?,
    fun _ hid => (hsame hid).name?, fun _ hid => (hsame hid).content?, fun id _ =>
      .inl (NodeTable.parent?_push hsize (seed.isFresh_plant store.pool).parent id)⟩

theorem of_setKnown (hstore : store.Sound) (id : NodeId) {name value : Bytes}
    (hsmall : ((Seed.attribute name value).plant store.pool).1.bytesUsed < UInt32.size) :
    Continues store (store.revalued id name value) := by
  exact ⟨(Seed.attribute name value).plant_extends store.pool, fun x _ => kind?_revalued x,
    fun x _ => name?_revalued hstore hsmall x, fun x _ => content?_revalued hstore hsmall x,
    fun x _ => .inl (NodeTable.parent?_modify store.table id _ (Node.parent_setValue _) x)⟩

/-- The new attribute is the only one that receives a parent, and it was not there before. -/
theorem of_setNew (hstore : store.Sound) {element : NodeId} {name value : Bytes}
    (hsmall : ((Seed.attribute name value).plant store.pool).1.bytesUsed < UInt32.size)
    (hcheck : store.table.checkElement element = .ok ())
    (hroom : store.nodeCount + 1 ≤ store.limits.maxNodes) :
    Continues store (store.attributed element name value) := by
  have hsize := Sound.size_lt_of_room store hroom
  obtain ⟨hmoved, -⟩ := relinked_attributed hstore name value hcheck hroom
  have hplanted := of_create hstore (.attribute name value) hroom hsmall
  have hstrings := fun {x} =>
    sameStrings_attributed hstore name value hcheck hroom hsmall (x := x)
  refine ⟨hplanted.strings, fun x hx => (hmoved.kind? x).trans (hplanted.kind? x hx),
    fun _ hx => (hstrings hx).name?, fun _ hx => (hstrings hx).content?, fun x hkind => .inl ?_⟩
  have hne : x ≠ store.table.freshId := NodeTable.ne_freshId hsize (contains_of_kind? hkind)
  refine (hmoved.parent? x).trans ((if_neg hne).trans ?_)
  exact NodeTable.parent?_push hsize
    ((Seed.attribute name value).isFresh_plant store.pool).parent x

/-- Every edit leaves nodes and strings what they were. -/
theorem of_applied {edit : Edit} (hstore : store.Sound) (happlied : store.Applied edit next)
    (hsmall : next.pool.bytesUsed < UInt32.size) : Continues store next := by
  cases happlied with
  | create seed hroom => exact of_create hstore seed hroom hsmall
  | insert place hparent hchild hcheck =>
      have hinsert := NodeTable.insertable_of_checkInsert hcheck
      refine of_relinked (hinsert.relinked hstore.wellFormed place) fun hkind => ?_
      cases hinsert.family.symm.trans (NodeTable.family?_eq_attributes_iff.mpr hkind)
  | remove hparent hchild hcheck =>
      have hmember := NodeTable.mem_children_of_checkRemove hcheck
      exact of_relinked (NodeTable.detach_relinked hstore.wellFormed hmember) fun _ => rfl
  | setKnown htarget hcheck hfound => exact of_setKnown hstore _ hsmall
  | setNew htarget hcheck hfound hroom => exact of_setNew hstore hsmall hcheck hroom
  | unsetUnknown => exact refl store
  | unset htarget hcheck hname hfound =>
      have hmember := (NodeTable.findNamed_eq_ok hfound).1
      exact of_relinked (NodeTable.detach_relinked hstore.wellFormed hmember) fun _ => rfl

theorem of_foldlM_apply {edits : List Edit} (hstore : store.Sound)
    (hnext : edits.foldlM apply store = .ok next) (hsmall : next.pool.bytesUsed < UInt32.size) :
    Continues store next := by
  have hrun : next.Sound ∧ (next.pool.bytesUsed < UInt32.size → Continues store next) := by
    refine foldlM_apply_induction (motive := fun after =>
      after.Sound ∧ (after.pool.bytesUsed < UInt32.size → Continues store after)) hnext
      ⟨hstore, fun _ => refl store⟩ ?_
    rintro before after edit happlied ⟨hbefore, hcontinues⟩
    refine ⟨hbefore.of_applied happlied, fun hafter => ?_⟩
    exact (hcontinues (Nat.lt_of_le_of_lt happlied.bytesUsed_le hafter)).trans
      (of_applied hbefore happlied hafter)
  exact hrun.2 hsmall

end Continues

/-! ## Numbers -/

def added (store next : Store) : List NodeId :=
  ((List.range' 1 next.nodeCount).map Nat.toUInt32).filter fun id => !store.contains id

def allocations (store : Store) : List Edit → List NodeId
  | [] => []
  | edit :: rest =>
      match store.apply edit with
      | .error _ => []
      | .ok next => store.added next ++ next.allocations rest

theorem contains_toUInt32_iff {number : Nat} (hpos : 0 < number) (hlt : number < UInt32.size) :
    store.contains number.toUInt32 = true ↔ number ≤ store.nodeCount := by
  have hexact : number.toUInt32.toNat = number := UInt32.toNat_ofNat_of_lt' hlt
  have hzero : number.toUInt32 ≠ 0 := by
    intro heq
    rw [heq] at hexact
    exact Nat.ne_of_lt hpos hexact
  refine NodeTable.contains_iff.trans ?_
  rw [and_iff_right hzero, hexact]
  rfl

/-- A store with more nodes has them under the numbers that come next. -/
theorem map_toNat_added (hcount : store.nodeCount ≤ next.nodeCount)
    (hsize : next.nodeCount < UInt32.size) :
    (store.added next).map UInt32.toNat =
      List.range' (store.nodeCount + 1) (next.nodeCount - store.nodeCount) := by
  have hsplit : List.range' 1 next.nodeCount = List.range' 1 store.nodeCount ++
      List.range' (store.nodeCount + 1) (next.nodeCount - store.nodeCount) := by
    rw [Nat.add_comm store.nodeCount, List.range'_append_1, Nat.add_sub_cancel' hcount]
  have hold : ∀ id ∈ (List.range' 1 store.nodeCount).map Nat.toUInt32,
      ¬ (!store.contains id) = true := by
    intro id hid
    obtain ⟨number, hnumber, rfl⟩ := List.mem_map.mp hid
    have hrange := List.mem_range'_1.mp hnumber
    have hlive : store.contains number.toUInt32 = true :=
      (contains_toUInt32_iff (by omega) (by omega)).mpr (by omega)
    rw [hlive]
    exact Bool.false_ne_true
  have hnew : ∀ id ∈ (List.range' (store.nodeCount + 1)
      (next.nodeCount - store.nodeCount)).map Nat.toUInt32, (!store.contains id) = true := by
    intro id hid
    obtain ⟨number, hnumber, rfl⟩ := List.mem_map.mp hid
    have hrange := List.mem_range'_1.mp hnumber
    have hdead : ¬ store.contains number.toUInt32 = true :=
      mt (contains_toUInt32_iff (by omega) (by omega)).mp (by omega)
    simpa using hdead
  rw [added, hsplit, List.map_append, List.filter_append, List.filter_eq_nil_iff.mpr hold,
    List.filter_eq_self.mpr hnew, List.nil_append, List.map_map]
  refine (List.map_congr_left fun number hnumber => ?_).trans (List.map_id _)
  have hrange := List.mem_range'_1.mp hnumber
  exact UInt32.toNat_ofNat_of_lt' (by omega)

/-- An edit adds one node or none, and lists it as created or not. -/
theorem Applied.counted {edit : Edit} (hstore : store.Sound) (happlied : store.Applied edit next) :
    (next.nodeCount = store.nodeCount ∧ next.created = store.created) ∨
      (next.nodeCount = store.nodeCount + 1 ∧
        (next.created = store.created ∨ next.created = store.created.push store.table.freshId)) := by
  cases happlied with
  | create seed => exact .inr ⟨NodeTable.size_push _ _, .inr rfl⟩
  | insert place hparent hchild hcheck =>
      have hinsert := NodeTable.insertable_of_checkInsert hcheck
      exact .inl ⟨(hinsert.relinked hstore.wellFormed place).size, rfl⟩
  | remove hparent hchild hcheck =>
      have hmember := NodeTable.mem_children_of_checkRemove hcheck
      exact .inl ⟨(NodeTable.detach_relinked hstore.wellFormed hmember).size, rfl⟩
  | setKnown => exact .inl ⟨NodeTable.size_modify _ _ _, rfl⟩
  | @setNew _ _ name value _ hcheck _ hroom =>
      obtain ⟨hmoved, -⟩ := relinked_attributed hstore name value hcheck hroom
      exact .inr ⟨hmoved.size.trans (NodeTable.size_push _ _), .inl rfl⟩
  | unsetUnknown => exact .inl ⟨rfl, rfl⟩
  | unset htarget hcheck hname hfound =>
      have hmember := (NodeTable.findNamed_eq_ok hfound).1
      exact .inl ⟨(NodeTable.detach_relinked hstore.wellFormed hmember).size, rfl⟩

/-- What an edit lists as created, it has added. -/
theorem Applied.created_added {edit : Edit} (hstore : store.Sound)
    (happlied : store.Applied edit next) :
    store.nodeCount ≤ next.nodeCount ∧ ∃ created, created.Sublist (store.added next) ∧
      next.created.toList = store.created.toList ++ created := by
  have hsize : next.nodeCount < UInt32.size := (hstore.of_applied happlied).wellFormed.size_lt
  rcases happlied.counted hstore with ⟨hcount, hcreated⟩ | ⟨hcount, hcreated⟩
  · exact ⟨Nat.le_of_eq hcount.symm, [], List.nil_sublist _, by simp [hcreated]⟩
  · have hle : store.nodeCount ≤ next.nodeCount := by omega
    refine ⟨hle, ?_⟩
    rcases hcreated with hcreated | hcreated
    · exact ⟨[], List.nil_sublist _, by simp [hcreated]⟩
    · refine ⟨[store.table.freshId], ?_, by simp [hcreated]⟩
      have hadded := map_toNat_added hle hsize
      have hfresh : store.table.freshId.toNat = store.nodeCount + 1 :=
        NodeTable.toNat_freshId (by unfold nodeCount at hcount hsize; omega)
      rw [hcount, Nat.add_sub_cancel_left, ← hfresh] at hadded
      have hone : store.added next = [store.table.freshId] :=
        List.map_injective_iff.mpr (fun _ _ => UInt32.toNat_inj.mp) hadded
      rw [hone]

/-- A run of edits numbers the nodes that it adds from the first free number on, and leaves no number
out. -/
theorem map_toNat_allocations {edits : List Edit} (hstore : store.Sound)
    (hnext : edits.foldlM apply store = .ok next) :
    store.nodeCount ≤ next.nodeCount ∧ (store.allocations edits).map UInt32.toNat =
      List.range' (store.nodeCount + 1) (next.nodeCount - store.nodeCount) := by
  induction edits generalizing store with
  | nil =>
      cases hnext
      simp [allocations]
  | cons edit rest ih =>
      rw [List.foldlM_cons] at hnext
      obtain ⟨middle, hmiddle, hrest⟩ := bind_eq_ok hnext
      have happlied := applied_of_apply hmiddle
      have hsound := hstore.of_applied happlied
      have hfirst := (happlied.created_added hstore).1
      obtain ⟨hsecond, hnumbers⟩ := ih hsound hrest
      refine ⟨Nat.le_trans hfirst hsecond, ?_⟩
      have hadded := map_toNat_added hfirst hsound.wellFormed.size_lt
      rw [allocations, hmiddle, List.map_append, hadded, hnumbers]
      have hstart : middle.nodeCount + 1 =
          store.nodeCount + 1 + (middle.nodeCount - store.nodeCount) := by omega
      rw [hstart, List.range'_append_1]
      congr 1
      omega

theorem mem_allocations {edits : List Edit} (hstore : store.Sound)
    (hnext : edits.foldlM apply store = .ok next) (id : NodeId) :
    id ∈ store.allocations edits ↔ store.nodeCount < id.toNat ∧ id.toNat ≤ next.nodeCount := by
  obtain ⟨hcount, hnumbers⟩ := map_toNat_allocations hstore hnext
  rw [← List.mem_map_of_injective (fun _ _ => UInt32.toNat_inj.mp), hnumbers, List.mem_range'_1]
  omega

/-- A node is there after a run of edits if it was there before, or if it has been added. -/
theorem contains_iff_of_foldlM_apply {edits : List Edit} (hstore : store.Sound)
    (hnext : edits.foldlM apply store = .ok next) (id : NodeId) :
    next.contains id = true ↔ store.contains id = true ∨ id ∈ store.allocations edits := by
  have hcount := (map_toNat_allocations hstore hnext).1
  have hold : store.contains id = true ↔ id ≠ 0 ∧ id.toNat ≤ store.nodeCount :=
    NodeTable.contains_iff
  have hnew : next.contains id = true ↔ id ≠ 0 ∧ id.toNat ≤ next.nodeCount :=
    NodeTable.contains_iff
  have hzero : store.nodeCount < id.toNat → id ≠ 0 := by
    rintro hgreater rfl
    exact Nat.not_lt_zero _ hgreater
  rw [mem_allocations hstore hnext, hold, hnew]
  by_cases hle : id.toNat ≤ store.nodeCount
  · have hlater : id.toNat ≤ next.nodeCount := Nat.le_trans hle hcount
    simp [hle, hlater, Nat.not_lt.mpr hle]
  · have hgreater : store.nodeCount < id.toNat := Nat.lt_of_not_le hle
    simp [hle, hgreater, hzero hgreater]

theorem pairwise_allocations {edits : List Edit} (hstore : store.Sound)
    (hnext : edits.foldlM apply store = .ok next) :
    (store.allocations edits).Pairwise (· < ·) := by
  refine List.Pairwise.of_map UInt32.toNat (fun _ _ => UInt32.lt_iff_toNat_lt.mpr) ?_
  rw [(map_toNat_allocations hstore hnext).2]
  exact List.pairwise_lt_range'

/-- What a run of edits lists as created, it has added, in this order. -/
theorem created_sublist_allocations {edits : List Edit} (hstore : store.Sound)
    (hnext : edits.foldlM apply store = .ok next) :
    ∃ created, created.Sublist (store.allocations edits) ∧
      next.created.toList = store.created.toList ++ created := by
  induction edits generalizing store with
  | nil =>
      cases hnext
      exact ⟨[], List.nil_sublist _, (List.append_nil _).symm⟩
  | cons edit rest ih =>
      rw [List.foldlM_cons] at hnext
      obtain ⟨middle, hmiddle, hrest⟩ := bind_eq_ok hnext
      have happlied := applied_of_apply hmiddle
      obtain ⟨-, first, hfirst, hmiddleCreated⟩ := happlied.created_added hstore
      obtain ⟨second, hsecond, hcreated⟩ := ih (hstore.of_applied happlied) hrest
      refine ⟨first ++ second, ?_, by rw [hcreated, hmiddleCreated, List.append_assoc]⟩
      rw [allocations, hmiddle]
      exact hfirst.append hsecond

/-! ## Values -/

/-- One of the edits sets an attribute to a value: where the run has come to it, it resolves to the
element that owns the attribute, and has its name. -/
def SetsValue (store : Store) (edits : List Edit) (id : NodeId) (value : Bytes) : Prop :=
  ∃ (front back : List Edit) (element : Target) (name : Bytes) (before : Store) (owner : NodeId),
    edits = front ++ .setAttribute element name value :: back ∧
      front.foldlM apply store = .ok before ∧ before.target element = .ok owner ∧
      store.parent? id = some owner ∧ store.name? id = some name

/-- Only setting the attribute itself changes its value. -/
theorem Applied.value?_eq {edit : Edit} (hstore : store.Sound) (happlied : store.Applied edit next)
    (hsmall : next.pool.bytesUsed < UInt32.size) {id : NodeId}
    (hkind : store.kind? id = some .attribute) :
    next.value? id = store.value? id ∨ ∃ (element : Target) (owner : NodeId) (name value : Bytes),
      edit = .setAttribute element name value ∧ store.target element = .ok owner ∧
        store.parent? id = some owner ∧ store.name? id = some name ∧
        next.value? id = some value := by
  have hid := contains_of_kind? hkind
  cases happlied with
  | create seed hroom => exact .inl (sameStrings_planted hstore hroom seed hsmall hid).value?
  | insert place hparent hchild hcheck => exact .inl ((childMoved_of_insert hstore hcheck).value? id)
  | remove hparent hchild hcheck => exact .inl ((childMoved_of_remove hstore hcheck).value? id)
  | @setKnown element owner found name value htarget hcheck hfound =>
      by_cases hsame : id = found
      · subst hsame
        obtain ⟨hmember, hnamed, -⟩ := NodeTable.findNamed_eq_ok hfound
        have hbefore := (Seed.attribute name value).bytesUsed_lt_of_plant hsmall
        obtain ⟨-, held, old, -, -, hpair⟩ := hstore.exists_pair? hbefore hmember
        cases (name?_eq_intern_iff hstore hbefore hmember hpair).mp hnamed
        have hnew := pair?_revalued hstore hsmall hkind hpair
        exact .inr ⟨element, owner, held, value, rfl, htarget,
          (hstore.wellFormed.mem_members.mp hmember).2, (pair?_iff.mp hpair).1,
          (pair?_iff.mp hnew).2⟩
      · exact .inl (string_revalued hstore hsmall Node.mem_strings_of_value? (.inl hsame))
  | @setNew element owner name value htarget hcheck hfound hroom =>
      exact .inl (sameStrings_attributed hstore name value hcheck hroom hsmall hid).value?
  | unsetUnknown => exact .inl rfl
  | unset htarget hcheck hname hfound =>
      have hmember := (NodeTable.findNamed_eq_ok hfound).1
      have hmoved := NodeTable.detach_relinked hstore.wellFormed hmember
      exact .inl (sameStrings_of_relinked hmoved id).value?

/-- An attribute whose value a run of edits has changed has the value to which one of them sets it. -/
theorem value?_of_foldlM_apply {edits : List Edit} (hstore : store.Sound)
    (hnext : edits.foldlM apply store = .ok next) (hsmall : next.pool.bytesUsed < UInt32.size)
    {id : NodeId} (hkind : store.kind? id = some .attribute) :
    next.value? id = store.value? id ∨
      ∃ value, store.SetsValue edits id value ∧ next.value? id = some value := by
  induction edits generalizing store with
  | nil =>
      cases hnext
      exact .inl rfl
  | cons edit rest ih =>
      rw [List.foldlM_cons] at hnext
      obtain ⟨middle, hmiddle, hrest⟩ := bind_eq_ok hnext
      have happlied := applied_of_apply hmiddle
      have hsound := hstore.of_applied happlied
      have hmiddleSmall : middle.pool.bytesUsed < UInt32.size :=
        Nat.lt_of_le_of_lt (bytesUsed_le_of_foldlM_apply hrest) hsmall
      have hcontinues := Continues.of_applied hstore happlied hmiddleSmall
      have hid := contains_of_kind? hkind
      rcases ih hsound hrest ((hcontinues.kind? id hid).trans hkind) with
        hlater | ⟨value, hset, hvalue⟩
      · rcases happlied.value?_eq hstore hmiddleSmall hkind with
          hsame | ⟨element, owner, name, value, rfl, htarget, hparent, hname, hvalue⟩
        · exact .inl (hlater.trans hsame)
        · exact .inr ⟨value, ⟨[], rest, element, name, store, owner, rfl, rfl, htarget, hparent,
            hname⟩, hlater.trans hvalue⟩
      · -- An attribute that has an owner after the first edit had the same one before it.
        obtain ⟨front, back, element, name, before, owner, rfl, hbefore, htarget, hparent, hname⟩ :=
          hset
        refine .inr ⟨value, ⟨edit :: front, back, element, name, before, owner, rfl, ?_, htarget,
          ?_, (hcontinues.name? id hid).symm.trans hname⟩, hvalue⟩
        · rw [List.foldlM_cons, hmiddle]
          exact hbefore
        · rcases hcontinues.parent? id hkind with hsame | hnone
          · exact hsame.symm.trans hparent
          · cases hnone.symm.trans hparent

/-! ## Versions -/

/-- What a batch leaves of the version to which it is committed. -/
structure Inherits (store : Store) (edits : List Edit) (next : Store) : Prop where
  /-- Every node is still there. -/
  contains : ∀ id, store.contains id = true → next.contains id = true
  kind? : ∀ id, store.contains id = true → next.kind? id = store.kind? id
  name? : ∀ id, store.contains id = true → next.name? id = store.name? id
  content? : ∀ id, store.contains id = true → next.content? id = store.content? id
  /-- Identifiers of strings keep their meaning. -/
  strings : ∀ string : StrId, string.toNat < store.pool.size → ∃ text,
    store.pool.get? string = some text ∧ next.pool.get? string = some text
  /-- A node that is there now was there before, or it has been added. -/
  ids : ∀ id, next.contains id = true ↔
    store.contains id = true ∨ id ∈ store.next.allocations edits
  /-- The number of an added node is greater than all before, and none of them is used again. -/
  fresh : ∀ id ∈ store.next.allocations edits,
    store.nodeCount < id.toNat ∧ store.contains id = false
  /-- Nodes are numbered in the order in which they are added. -/
  increasing : (store.next.allocations edits).Pairwise (· < ·)
  created : next.created.toList.Sublist (store.next.allocations edits)
  /-- An attribute stays where it is, or it is taken off. -/
  attribute_parent : ∀ id, store.kind? id = some .attribute →
    next.parent? id = store.parent? id ∨ next.parent? id = none
  document_parent : ∀ id, next.kind? id = some .document → next.parent? id = none
  /-- Only setting an attribute changes its value. -/
  value? : ∀ id, store.kind? id = some .attribute → next.value? id ≠ store.value? id →
    ∃ value, store.next.SetsValue edits id value ∧ next.value? id = some value

/-- Whatever a batch does, nodes and strings stay what they are. -/
theorem Reachable.inherits_commit {edits : List Edit} (hstore : store.Reachable)
    (hnext : store.commit edits = .ok next) (hsmall : next.pool.bytesUsed < UInt32.size) :
    store.Inherits edits next := by
  obtain ⟨applied, hrun, hresult⟩ := bind_eq_ok hnext
  cases hresult
  have hbefore := hstore.sound.of_next
  have hsound := hbefore.of_foldlM_apply hrun
  obtain ⟨hstrings, hkind, hname, hcontent, hparent⟩ :=
    Continues.of_foldlM_apply hbefore hrun hsmall
  obtain ⟨created, hcreated, hlisted⟩ := created_sublist_allocations hbefore hrun
  have hmember : ∀ id, id ∈ store.next.allocations edits ↔
      store.nodeCount < id.toNat ∧ id.toNat ≤ applied.nodeCount := mem_allocations hbefore hrun
  have hids : ∀ id, applied.contains id = true ↔
      store.contains id = true ∨ id ∈ store.next.allocations edits :=
    contains_iff_of_foldlM_apply hbefore hrun
  refine ⟨fun id hid => (hids id).mpr (.inl hid), hkind, hname, hcontent, ?_, hids, ?_,
    pairwise_allocations hbefore hrun, ?_, hparent, fun _ => hsound.wellFormed.document, ?_⟩
  · intro string hstring
    have hstoreSmall := Nat.lt_of_le_of_lt (bytesUsed_le_of_foldlM_apply hrun) hsmall
    obtain ⟨texts, hpool, -⟩ := hbefore.serves hstoreSmall
    have htext := List.getElem?_eq_getElem (hpool.size ▸ hstring)
    rw [← hpool.get?_eq] at htext
    exact ⟨_, htext, hstrings string _ htext⟩
  · intro id hid
    have hgreater := ((hmember id).mp hid).1
    refine ⟨hgreater, Bool.eq_false_iff.mpr fun hlive => ?_⟩
    have hle : id.toNat ≤ store.nodeCount := (NodeTable.contains_iff.mp hlive).2
    omega
  · have hall : applied.created.toList = created := hlisted
    rw [hall]
    exact hcreated
  · intro id hattribute hchanged
    exact (value?_of_foldlM_apply hbefore hrun hsmall hattribute).resolve_left hchanged

/-- An attribute that is set and then taken off has the last value that it was given.  The new
attribute and the text are numbered in the order in which they were added. -/
theorem Reachable.inherits_commit_set_unset :
    ∃ store next : Store, store.Reachable ∧ store.parent? 3 = some 2 ∧
      store.value? 3 = some [0x76] ∧
      store.commit [.setAttribute (.node 2) [0x6b] [0x77], .setAttribute (.node 2) [0x6c] [0x76],
        .create (.leaf .text [0x76]), .unsetAttribute (.node 2) [0x6b]] = .ok next ∧
      next.pool.bytesUsed < UInt32.size ∧ next.parent? 3 = none ∧ next.value? 3 = some [0x77] ∧
      next.created = #[6] ∧
      store.Inherits [.setAttribute (.node 2) [0x6b] [0x77],
        .setAttribute (.node 2) [0x6c] [0x76], .create (.leaf .text [0x76]),
        .unsetAttribute (.node 2) [0x6b]] next := by
  obtain ⟨store, next, hfirst, hparent, hvalue, hsecond, hsmall, hdetached, hset, hcreated⟩ :
      ∃ store next : Store, (Store.empty {}).commit
          [.create (.element [0x61]), .insert .last (.node 1) (.created 0),
            .setAttribute (.created 0) [0x6b] [0x76], .create (.leaf .text [0x61])] =
          .ok store ∧ store.parent? 3 = some 2 ∧ store.value? 3 = some [0x76] ∧
        store.commit [.setAttribute (.node 2) [0x6b] [0x77],
          .setAttribute (.node 2) [0x6c] [0x76], .create (.leaf .text [0x76]),
          .unsetAttribute (.node 2) [0x6b]] = .ok next ∧
        next.pool.bytesUsed < UInt32.size ∧ next.parent? 3 = none ∧
        next.value? 3 = some [0x77] ∧ next.created = #[6] :=
    ⟨_, _, by cbv, by decide, by decide, by cbv, by decide, by decide, by decide, by decide⟩
  have hstore : store.Reachable := .commit _ (.empty {}) hfirst
  exact ⟨store, next, hstore, hparent, hvalue, hsecond, hsmall, hdetached, hset, hcreated,
    hstore.inherits_commit hsecond hsmall⟩

end VersionedXml.Store
