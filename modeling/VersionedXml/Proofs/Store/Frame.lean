import VersionedXml.Proofs.Store.AttributeMap
import VersionedXml.Proofs.Store.Descendants
import VersionedXml.Proofs.Store.Identity
import VersionedXml.Proofs.Store.Markup

/-!
# What edits leave alone

An edit changes the lists of one node, its parent or its element, and a creation changes no list at
all.  About every other node the store answers as before, although all nodes share one table and one
pool.  So a region that goes down to the leaves, like the tree of the root, is listed, written and
searched as before if no edit has its parent or its element in it, and so even with names that the
pool did not know.
-/

namespace VersionedXml

def Edit.owner? : Edit → Option Target
  | .create _ => none
  | .insert _ parent _ => some parent
  | .remove parent _ => some parent
  | .setAttribute element _ _ => some element
  | .unsetAttribute element _ => some element

namespace Store

open Relation (ReflTransGen TransGen)

def owner? (store : Store) (edit : Edit) : Option NodeId :=
  edit.owner?.bind fun target => (store.target target).toOption

/-- The nodes whose lists a run of edits changes.  Each reference is resolved where the run has come
to its edit. -/
def owners (store : Store) : List Edit → List NodeId
  | [] => []
  | edit :: rest =>
      (store.owner? edit).toList ++
        match store.apply edit with
        | .error _ => []
        | .ok next => next.owners rest

variable {store next : Store} {id x : NodeId}

/-! ## Nodes that are left alone -/

theorem sameAt_detach (hstore : store.Sound) {family : Family} {owner : NodeId}
    (hmember : id ∈ store.table.members family owner) (hx : x ≠ owner) :
    SameAt store { store with table := store.table.detach family owner id } x :=
  sameAt_of_relinked (NodeTable.detach_relinked hstore.wellFormed hmember)
    (NodeTable.detach_wellFormed hstore.wellFormed hmember).2 hx

/-- An edit leaves all nodes alone but the one whose lists it changes. -/
theorem Applied.sameAt {edit : Edit} (hstore : store.Sound) (happlied : store.Applied edit next)
    (hsmall : next.pool.bytesUsed < UInt32.size) (hx : store.contains x = true)
    (howner : store.owner? edit ≠ some x) : SameAt store next x := by
  have hne : ∀ {target owner}, edit.owner? = some target → store.target target = .ok owner →
      x ≠ owner := by
    rintro target owner hedit htarget rfl
    exact howner (by rw [owner?, hedit, Option.bind_some, htarget]; rfl)
  cases happlied with
  | create seed hroom => exact sameAt_planted hstore hroom seed hsmall hx
  | insert place hparent hchild hcheck => exact sameAt_insert hstore hcheck (hne rfl hparent)
  | remove hparent hchild hcheck =>
      exact sameAt_detach hstore (NodeTable.mem_children_of_checkRemove hcheck) (hne rfl hparent)
  | setKnown htarget hcheck hfound =>
      exact (attributeSet_known hstore hsmall hfound).others x hx (hne rfl htarget)
  | setNew htarget hcheck hfound hroom =>
      exact (attributeSet_new hstore _ _ hcheck hroom hsmall hfound).others x hx (hne rfl htarget)
  | unsetUnknown => exact .refl store x
  | unset htarget hcheck hname hfound =>
      exact sameAt_detach hstore (NodeTable.findNamed_eq_ok hfound).1 (hne rfl htarget)

theorem sameAt_of_foldlM_apply {edits : List Edit} (hstore : store.Sound)
    (hnext : edits.foldlM apply store = .ok next) (hsmall : next.pool.bytesUsed < UInt32.size)
    (hx : store.contains x = true) (howners : x ∉ store.owners edits) : SameAt store next x := by
  induction edits generalizing store with
  | nil =>
      cases hnext
      exact .refl next x
  | cons edit rest ih =>
      rw [List.foldlM_cons] at hnext
      obtain ⟨middle, hmiddle, hrest⟩ := bind_eq_ok hnext
      have happlied := applied_of_apply hmiddle
      have hmiddleSmall : middle.pool.bytesUsed < UInt32.size :=
        Nat.lt_of_le_of_lt (bytesUsed_le_of_foldlM_apply hrest) hsmall
      rw [owners, hmiddle, List.mem_append, not_or] at howners
      obtain ⟨hone, hothers⟩ := howners
      have hfirst : SameAt store middle x := happlied.sameAt hstore hmiddleSmall hx fun howner =>
        hone (Option.mem_toList.mpr howner)
      have hlater := (Continues.of_applied hstore happlied hmiddleSmall).contains hx
      exact hfirst.trans (ih (hstore.of_applied happlied) hrest hlater hothers)

theorem sameAt_of_commit {edits : List Edit} (hstore : store.Sound)
    (hnext : store.commit edits = .ok next) (hsmall : next.pool.bytesUsed < UInt32.size)
    (hx : store.contains x = true) (howners : x ∉ store.next.owners edits) :
    SameAt store next x := by
  obtain ⟨applied, hrun, hresult⟩ := bind_eq_ok hnext
  cases hresult
  obtain ⟨hkind, hname, hcontent, hattributes, hpairs, hchildren⟩ :=
    sameAt_of_foldlM_apply hstore.of_next hrun hsmall hx howners
  exact ⟨hkind, hname, hcontent, hattributes, hpairs, hchildren⟩

/-! ## Selecting -/

/-- From a document or an element, a path selects what the naive reading leads to, whether or not
its strings are found. -/
theorem Sound.select_of_kind (hstore : store.Sound) (hsmall : store.pool.bytesUsed < UInt32.size)
    (hkind : store.kind? id = some .document ∨ store.kind? id = some .element) (path : Path) :
    store.select id path = store.walk path.steps id := by
  rw [select, if_pos (isSome_links?_children_iff.mpr hkind)]
  cases hresolved : path.steps.mapM (PathStep.resolve? store.pool) with
  | none => exact (hstore.walk_of_mapM_eq_none hsmall hresolved id).symm
  | some resolved =>
      have hdescend := hstore.descend_eq_flatMap_walk hsmall hresolved [id]
      rwa [List.flatMap_singleton] at hdescend

theorem select_of_kind_ne (hkind : ¬ (store.kind? id = some .document ∨
    store.kind? id = some .element)) (path : Path) : store.select id path = [] := by
  rw [select, if_neg fun hlinks => hkind (isSome_links?_children_iff.mp hlinks)]

/-- A batch takes no bytes from the pool, and no node changes its kind. -/
theorem Sound.kept_of_commit {edits : List Edit} (hstore : store.Sound)
    (hnext : store.commit edits = .ok next) (hsmall : next.pool.bytesUsed < UInt32.size) :
    store.pool.bytesUsed ≤ next.pool.bytesUsed ∧
      ∀ id, store.contains id = true → next.kind? id = store.kind? id := by
  obtain ⟨applied, hrun, hresult⟩ := bind_eq_ok hnext
  cases hresult
  have hbytes := bytesUsed_le_of_foldlM_apply hrun
  exact ⟨hbytes, (Continues.of_foldlM_apply hstore.of_next hrun hsmall).kind?⟩

/-! ## Regions that are left alone -/

/-- Two stores answer alike about a region, which has the children of all its nodes, and no
attributes. -/
structure AgreeOn (store next : Store) (region : NodeId → Prop) : Prop where
  sameAt : ∀ id, region id → SameAt store next id
  closed : ∀ id, region id → ∀ child ∈ store.children id, region child
  kind? : ∀ id, region id → store.kind? id ≠ some .attribute

namespace AgreeOn

variable {region : NodeId → Prop} (hagree : store.AgreeOn next region)
include hagree

theorem of_transGen (hid : region id) (hbelow : TransGen store.table.IsChild id x) : region x := by
  induction hbelow with
  | single hchild => exact hagree.closed id hid _ hchild
  | tail _ hchild ih => exact hagree.closed _ ih _ hchild

theorem preorder {ids listing : List NodeId} (hids : ∀ id ∈ ids, region id)
    (hlisting : store.table.Preorder ids listing) : next.table.Preorder ids listing := by
  induction hlisting with
  | nil => exact .nil
  | @cons id rest inner behind _ _ ihInner ihRest =>
      have hid := hids id List.mem_cons_self
      have hchildren : next.table.children id = store.table.children id :=
        (hagree.sameAt id hid).children
      have hinner := ihInner (hagree.closed id hid)
      rw [← hchildren] at hinner
      exact .cons hinner (ihRest fun other hother => hids other (List.mem_cons_of_mem id hother))

theorem ownText (hid : region id) : next.ownText id = store.ownText id := by
  have hsame := hagree.sameAt id hid
  unfold Store.ownText
  rw [hsame.kind?, hsame.content?]

/-- Around the same markup of its children, the same is written for a node of the region. -/
theorem markupAround (hid : region id) (inner : Bytes) :
    next.markupAround id inner = store.markupAround id inner := by
  have hsame := hagree.sameAt id hid
  have hkind := hagree.kind? id hid
  match hown : store.kind? id with
  | some .attribute => exact absurd hown hkind
  | some (.leaf kind) =>
      rw [Store.markupAround_of_leaf hown, Store.markupAround_of_leaf (hsame.kind?.trans hown),
        hsame.content?]
  | none | some .document | some .element =>
      unfold Store.markupAround
      rw [hsame.kind?, hsame.name?, hsame.attributePairs, hown]

section Sound

variable (hstore : store.Sound)
include hstore

/-- The markup of a node of the region is the same: by induction, that of its children is. -/
theorem markup {written rewritten : NodeId → Bytes} (hwritten : store.IsMarkup written)
    (hrewritten : next.IsMarkup rewritten) (hid : region id) : rewritten id = written id := by
  induction id using hstore.wellFormed.wellFounded_isChild.induction with
  | _ id ih =>
      have hinner : (store.children id).flatMap rewritten = (store.children id).flatMap written :=
        List.flatMap_congr fun child hchild => ih child hchild (hagree.closed id hid child hchild)
      rw [hrewritten id, hwritten id, (hagree.sameAt id hid).children, hinner,
        hagree.markupAround hid]

variable (hnext : next.Sound)
include hnext

theorem descendants (hid : region id) : next.descendants id = store.descendants id := by
  have hchildren : next.table.children id = store.table.children id :=
    (hagree.sameAt id hid).children
  refine hnext.wellFormed.descendants_eq ?_
  rw [hchildren]
  exact hagree.preorder (hagree.closed id hid) (hstore.wellFormed.preorder_descendants id)

theorem textContent (hid : region id) : next.textContent id = store.textContent id := by
  have hkind := hagree.kind? id hid
  have htexts : (next.descendants id).flatMap next.ownText =
      (store.descendants id).flatMap store.ownText := by
    rw [hagree.descendants hstore hnext hid]
    exact List.flatMap_congr fun x hx =>
      hagree.ownText (hagree.of_transGen hid (hstore.mem_descendants.mp hx))
  unfold Store.textContent
  rw [(hagree.sameAt id hid).kind?, htexts, hagree.ownText hid]
  match hown : store.kind? id with
  | some .attribute => exact absurd hown hkind
  | none => rfl
  | some .document => rfl
  | some .element => rfl
  | some (.leaf kind) => rfl

theorem renderNode (hid : region id) : next.renderNode id = store.renderNode id := by
  obtain ⟨written, hwritten⟩ := hstore.exists_isMarkup
  obtain ⟨rewritten, hrewritten⟩ := hnext.exists_isMarkup
  obtain ⟨steps, hsteps, hwrites⟩ := hstore.exists_writes hwritten id
  obtain ⟨laterSteps, hlaterSteps, hrewrites⟩ := hnext.exists_writes hrewritten id
  have hbefore : store.renderNode id = #[] ++ written id := hwrites.writeAll_eq hsteps #[]
  have hafter : next.renderNode id = #[] ++ rewritten id := hrewrites.writeAll_eq hlaterSteps #[]
  rw [hbefore, hafter, hagree.markup hstore hwritten hrewritten hid]

variable (hsmall : store.pool.bytesUsed < UInt32.size)
  (hnextSmall : next.pool.bytesUsed < UInt32.size)
include hsmall hnextSmall

theorem answers (step : PathStep) (hid : region id) :
    next.answers step id = store.answers step id := by
  have hsame := hagree.sameAt id hid
  have hattribute : ∀ name, next.attribute? id name = store.attribute? id name := by
    intro name
    rw [hnext.attribute?_eq_lookup hnextSmall, hstore.attribute?_eq_lookup hsmall,
      hsame.attributePairs]
  unfold Store.answers
  rw [hsame.kind?, hsame.name?]
  simp only [hattribute]

/-- A path that is read in the naive way leads to the same nodes of the region. -/
theorem walk (steps : List PathStep) (hid : region id) :
    next.walk steps id = store.walk steps id := by
  induction steps generalizing id with
  | nil => rfl
  | cons step rest ih =>
      have hclosed := hagree.closed id hid
      have hmatching : (store.children id).filter (next.answers step) =
          (store.children id).filter (store.answers step) :=
        List.filter_congr fun child hchild =>
          hagree.answers hstore hnext hsmall hnextSmall step (hclosed child hchild)
      rw [Store.walk, Store.walk, (hagree.sameAt id hid).children, hmatching]
      exact List.flatMap_congr fun child hchild =>
        ih (hclosed child (List.mem_of_mem_filter hchild))

theorem select (path : Path) (hid : region id) : next.select id path = store.select id path := by
  have hkind := (hagree.sameAt id hid).kind?
  by_cases hinner : store.kind? id = some .document ∨ store.kind? id = some .element
  · rw [hnext.select_of_kind hnextSmall (hkind ▸ hinner), hstore.select_of_kind hsmall hinner,
      hagree.walk hstore hnext hsmall hnextSmall path.steps hid]
  · rw [select_of_kind_ne (hkind ▸ hinner), select_of_kind_ne hinner]

end Sound

end AgreeOn

/-! ## The tree of the root -/

/-- A node to which the parents lead down from the root is the root, lies below it, or is an
attribute. -/
theorem Sound.reflTransGen_isChild_of_parents (hstore : store.Sound)
    (hx : ReflTransGen (fun parent child => store.parent? child = some parent) rootId x)
    (hkind : store.kind? x ≠ some .attribute) : ReflTransGen store.table.IsChild rootId x := by
  rcases Relation.reflTransGen_iff_eq_or_transGen.mp hx with rfl | hbelow
  · exact .refl
  · exact (hstore.transGen_isChild_iff.mpr ⟨hkind, hbelow⟩).to_reflTransGen

/-- A batch that has neither the root nor a node below it as an owner leaves the tree of the root
alone. -/
theorem agreeOn_of_commit {edits : List Edit} (hstore : store.Sound)
    (hnext : store.commit edits = .ok next) (hsmall : next.pool.bytesUsed < UInt32.size)
    (howners : ∀ id ∈ store.next.owners edits, id ≠ rootId ∧ id ∉ store.descendants rootId) :
    store.AgreeOn next (ReflTransGen store.table.IsChild rootId) := by
  have hwf := hstore.wellFormed
  refine ⟨fun id hid => ?_, fun _ hid _ hchild => hid.tail hchild, fun id hid => ?_⟩
  · rcases Relation.reflTransGen_iff_eq_or_transGen.mp hid with rfl | hbelow
    · exact sameAt_of_commit hstore hnext hsmall (contains_of_kind? hwf.root)
        fun howner => (howners _ howner).1 rfl
    · obtain ⟨parent, -, hchild⟩ := TransGen.tail'_iff.mp hbelow
      exact sameAt_of_commit hstore hnext hsmall (hwf.contains_of_mem hchild)
        fun howner => (howners id howner).2 (hstore.mem_descendants.mpr hbelow)
  · rcases Relation.reflTransGen_iff_eq_or_transGen.mp hid with rfl | hbelow
    · have hroot : store.kind? rootId = some .document := hwf.root
      rw [hroot]
      intro hkind
      cases hkind
    · exact (hstore.transGen_isChild_iff.mp hbelow).1

/-- An attribute has no attributes, and no path leads anywhere from it. -/
theorem nothing_of_kind_attribute (hkind : store.kind? id = some .attribute) :
    store.attributePairs id = [] ∧ ∀ path, store.select id path = [] := by
  have hlinks : store.table.links? .attributes id = none := by
    rw [NodeTable.links?, Option.bind_eq_none_iff]
    intro node hnode
    have hnodeKind : some node.kind = some NodeKind.attribute := by
      rw [← hkind, kind?, get?, hnode, Option.map_some]
    rw [← Option.not_isSome_iff_eq_none, Node.isSome_links?_attributes_iff,
      Option.some.inj hnodeKind]
    intro heq
    cases heq
  have hattributes : store.attributes id = [] := NodeTable.members_of_links?_eq_none hlinks
  refine ⟨by rw [attributePairs, hattributes, List.filterMap_nil], select_of_kind_ne ?_⟩
  rw [hkind]
  rintro (heq | heq) <;> cases heq

/-- A batch whose insertions, removals and attributes concern neither the root nor a node below it
cannot be seen from the root.  The document is written, listed and read as before, and from every
node of its tree every path selects what it selected before, even if the batch has interned names
that were not in the pool. -/
theorem Reachable.commit_unseen {edits : List Edit} (hstore : store.Reachable)
    (hnext : store.commit edits = .ok next) (hsmall : next.pool.bytesUsed < UInt32.size)
    (howners : ∀ id ∈ store.next.owners edits, id ≠ rootId ∧ id ∉ store.descendants rootId) :
    next.render = store.render ∧
      next.descendants rootId = store.descendants rootId ∧
      next.textContent rootId = store.textContent rootId ∧
      ∀ id, ReflTransGen (fun parent child => store.parent? child = some parent) rootId id →
        next.attributePairs id = store.attributePairs id ∧
          ∀ path, next.select id path = store.select id path := by
  have hsound := hstore.sound
  have hnextSound := (Reachable.commit edits hstore hnext).sound
  have hagree := agreeOn_of_commit hsound hnext hsmall howners
  have hroot : ReflTransGen store.table.IsChild rootId rootId := .refl
  refine ⟨hagree.renderNode hsound hnextSound hroot, hagree.descendants hsound hnextSound hroot,
    hagree.textContent hsound hnextSound hroot, fun id hid => ?_⟩
  obtain ⟨hbytes, hkinds⟩ := hsound.kept_of_commit hnext hsmall
  by_cases hkind : store.kind? id = some .attribute
  · -- an attribute stays one
    have hlater := (hkinds id (contains_of_kind? hkind)).trans hkind
    obtain ⟨hpairs, hselect⟩ := nothing_of_kind_attribute hkind
    obtain ⟨hlaterPairs, hlaterSelect⟩ := nothing_of_kind_attribute hlater
    exact ⟨hlaterPairs.trans hpairs.symm, fun path =>
      (hlaterSelect path).trans (hselect path).symm⟩
  · have hregion := hsound.reflTransGen_isChild_of_parents hid hkind
    exact ⟨(hagree.sameAt id hregion).attributePairs, fun path =>
      hagree.select hsound hnextSound (Nat.lt_of_le_of_lt hbytes hsmall) hsmall path hregion⟩

/-- A second batch builds on the detached element 5 only.  It interns the name of the element 7, for
which a path asks that was given up before. -/
theorem Reachable.commit_unseen_detached :
    ∃ store next : Store, store.Reachable ∧
      store.commit [.create (.element [0x7a]), .insert .first (.node 5) (.created 0),
        .remove (.node 5) (.node 6), .setAttribute (.created 0) [0x6b] [0x77],
        .insert .last (.created 0) (.node 6), .unsetAttribute (.node 5) [0x6b]] = .ok next ∧
      next.pool.bytesUsed < UInt32.size ∧
      store.next.owners [.create (.element [0x7a]), .insert .first (.node 5) (.created 0),
        .remove (.node 5) (.node 6), .setAttribute (.created 0) [0x6b] [0x77],
        .insert .last (.created 0) (.node 6), .unsetAttribute (.node 5) [0x6b]] =
          [5, 5, 7, 7, 5] ∧
      store.pool.find? [0x7a] = none ∧ (next.pool.find? [0x7a]).isSome = true ∧
      store.descendants rootId = [2, 4] ∧ next.render = store.render ∧
      next.select rootId ⟨[⟨"z", none⟩]⟩ = store.select rootId ⟨[⟨"z", none⟩]⟩ := by
  obtain ⟨store, next, hfirst, hsecond, hsmall, howners, hunknown, hknown, hlisting⟩ :
      ∃ store next : Store, (Store.empty {}).commit
        [.create (.element [0x61]), .insert .last (.node 1) (.created 0),
          .setAttribute (.created 0) [0x6b] [0x76], .create (.leaf .text [0x74]),
          .insert .last (.created 0) (.created 1), .create (.element [0x64]),
          .create (.leaf .text [0x74]), .insert .last (.created 2) (.created 3)] = .ok store ∧
      store.commit [.create (.element [0x7a]), .insert .first (.node 5) (.created 0),
        .remove (.node 5) (.node 6), .setAttribute (.created 0) [0x6b] [0x77],
        .insert .last (.created 0) (.node 6), .unsetAttribute (.node 5) [0x6b]] = .ok next ∧
      next.pool.bytesUsed < UInt32.size ∧
      store.next.owners [.create (.element [0x7a]), .insert .first (.node 5) (.created 0),
        .remove (.node 5) (.node 6), .setAttribute (.created 0) [0x6b] [0x77],
        .insert .last (.created 0) (.node 6), .unsetAttribute (.node 5) [0x6b]] =
          [5, 5, 7, 7, 5] ∧
      store.pool.find? [0x7a] = none ∧ (next.pool.find? [0x7a]).isSome = true ∧
      store.descendants rootId = [2, 4] :=
    ⟨_, _, by cbv, by cbv, by decide, by cbv, by cbv, by cbv, by decide⟩
  have hstore : store.Reachable := .commit _ (.empty {}) hfirst
  have hspared : ∀ id ∈ ([5, 5, 7, 7, 5] : List NodeId), id ≠ rootId ∧ id ∉ [2, 4] := by
    simp [rootId]
  rw [← hlisting, ← howners] at hspared
  obtain ⟨hrender, -, -, htree⟩ := hstore.commit_unseen hsecond hsmall hspared
  exact ⟨store, next, hstore, hsecond, hsmall, howners, hunknown, hknown, hlisting, hrender,
    (htree rootId .refl).2 _⟩

end Store

end VersionedXml
