import VersionedXml.Proofs.Store.Standing
import VersionedXml.Proofs.Tree.Growth

/-!
# Documents that are being built

While a document is built, its open elements form a path from the root along last children.  What
is complete stands beside the path.  A new node becomes the last child of the innermost open element
and comes last in the listing of all nodes, so nothing that is complete ever changes.
-/

namespace VersionedXml.Store

/-- The open elements are the nodes on a path, the innermost first, and the complete trees stand
beside it.  The innermost open element, or the root, has one more child if `inner` names it. -/
inductive Spine (store : Store) (grown : List Tree) :
    List OpenElement → List NodeId → Option NodeId → List NodeId → Prop where
  | root {inner : Option NodeId} {ids listing : List NodeId}
      (hchildren : store.children rootId = ids ++ inner.toList)
      (hstands : store.Stands grown.reverse ids listing) : Spine store grown [] [] inner listing
  | element {element : OpenElement} {outerElements : List OpenElement} {id : NodeId}
      {outerIds : List NodeId} {inner : Option NodeId} {ids outer below : List NodeId}
      (hkind : store.kind? id = some .element) (hname : (store.name? id).getD [] = element.name)
      (hpairs : store.attributePairs id = element.attributes)
      (hchildren : store.children id = ids ++ inner.toList)
      (hstands : store.Stands element.children.reverse ids below)
      (houter : Spine store grown outerElements outerIds (some id) outer) :
      Spine store grown (element :: outerElements) (id :: outerIds) inner
        (outer ++ (id :: (store.attributes id ++ below)))

def innermost (openIds : List NodeId) : NodeId := openIds.headD rootId

namespace Spine

variable {store next : Store} {grown : List Tree} {elements : List OpenElement}
  {openIds listing : List NodeId} {inner : Option NodeId}

/-- A path stays what it is if none of its nodes changes. -/
theorem congr (hsame : ∀ x ∈ listing, store.SameAt next x)
    (hroot : next.children rootId = store.children rootId)
    (hspine : store.Spine grown elements openIds inner listing) :
    next.Spine grown elements openIds inner listing := by
  induction hspine with
  | root hchildren hstands => exact .root (hroot.trans hchildren) (hstands.congr hsame)
  | @element element outerElements id outerIds inner ids outer below hkind hname hpairs hchildren
      hstands houter ih =>
      have hid := hsame id (List.mem_append_right _ List.mem_cons_self)
      have hbelow := hstands.congr fun x hx => hsame x
        (List.mem_append_right _ (List.mem_cons_of_mem id (List.mem_append_right _ hx)))
      have hbefore := ih fun x hx => hsame x (List.mem_append_left _ hx)
      rw [← hid.attributes]
      refine .element (hid.kind?.trans hkind) ?_ (hid.attributePairs.trans hpairs)
        (hid.children.trans hchildren) hbelow hbefore
      rw [hid.name?, hname]

theorem kind?_innermost (hspine : store.Spine grown elements openIds inner listing)
    (hroot : store.kind? rootId = some .document) :
    store.kind? (innermost openIds) = some .document ∨
      store.kind? (innermost openIds) = some .element := by
  cases hspine with
  | root _ _ => exact .inl hroot
  | element hkind _ _ _ _ _ => exact .inr hkind

theorem innermost_mem (hspine : store.Spine grown elements openIds inner listing) :
    innermost openIds = rootId ∨ innermost openIds ∈ listing := by
  cases hspine with
  | root _ _ => exact .inl rfl
  | element _ _ _ _ _ _ => exact .inr (List.mem_append_right _ List.mem_cons_self)

/-- The innermost open element receives a child. -/
theorem extend {child : NodeId} (hspine : store.Spine grown elements openIds none listing)
    (hlisting : (rootId :: listing).Nodup)
    (hsame : ∀ x ∈ rootId :: listing, x ≠ innermost openIds → store.SameAt next x)
    (hkind : next.kind? (innermost openIds) = store.kind? (innermost openIds))
    (hname : next.name? (innermost openIds) = store.name? (innermost openIds))
    (hattributes : next.attributes (innermost openIds) = store.attributes (innermost openIds))
    (hpairs : next.attributePairs (innermost openIds) =
      store.attributePairs (innermost openIds))
    (hchildren : next.children (innermost openIds) =
      store.children (innermost openIds) ++ [child]) :
    next.Spine grown elements openIds (some child) listing := by
  obtain ⟨hroot, hnodup⟩ := List.nodup_cons.mp hlisting
  cases hspine with
  | @root _ ids _ hids hstands =>
      simp only [innermost, List.headD_nil] at hsame hchildren
      have hgrown : next.children rootId = ids ++ (some child).toList := by
        rw [hchildren, hids]
        simp
      refine .root hgrown (hstands.congr fun x hx => ?_)
      refine hsame x (List.mem_cons_of_mem rootId hx) ?_
      rintro rfl
      exact hroot hx
  | @element element outerElements id outerIds _ ids outer below hidKind hidName hidPairs hids
      hstands houter =>
      simp only [innermost, List.headD_cons] at hsame hkind hname hattributes hpairs hchildren
      have hgrown : next.children id = ids ++ (some child).toList := by
        rw [hchildren, hids]
        simp
      obtain ⟨-, hinside, hapart⟩ := List.nodup_append.mp hnodup
      have hbelow : ∀ x ∈ below, store.SameAt next x := by
        intro x hx
        have hmember := List.mem_append_right (store.attributes id) hx
        refine hsame x (List.mem_cons_of_mem rootId
          (List.mem_append_right _ (List.mem_cons_of_mem id hmember))) ?_
        rintro rfl
        exact (List.nodup_cons.mp hinside).1 hmember
      have houterSame : ∀ x ∈ outer, store.SameAt next x := by
        intro x hx
        refine hsame x (List.mem_cons_of_mem rootId (List.mem_append_left _ hx)) ?_
        rintro rfl
        exact hapart _ hx _ List.mem_cons_self rfl
      have hrootSame : next.children rootId = store.children rootId := by
        refine (hsame rootId List.mem_cons_self ?_).children
        intro heq
        exact hroot (heq ▸ List.mem_append_right _ List.mem_cons_self)
      rw [← hattributes]
      refine .element (hkind.trans hidKind) ?_ (hpairs.trans hidPairs) hgrown
        (hstands.congr hbelow) (houter.congr houterSame hrootSame)
      rw [hname, hidName]

variable {growth : Growth}

/-- The last child of the innermost open element is complete. -/
theorem put {child : NodeId} {tree : Tree} {mine : List NodeId}
    (hspine : store.Spine growth.grown growth.openElements openIds (some child) listing)
    (hstands : store.Stands [tree] [child] mine) :
    store.Spine (growth.put tree).grown (growth.put tree).openElements openIds none
      (listing ++ mine) := by
  obtain ⟨grown, elements⟩ := growth
  cases hspine with
  | @root _ ids _ hchildren hgrown =>
      have hids : store.children rootId = (ids ++ [child]) ++ (none : Option NodeId).toList := by
        simpa using hchildren
      refine .root hids ?_
      have hmore := hgrown.append hstands
      rw [← List.reverse_cons] at hmore
      exact hmore
  | @element element outerElements id outerIds _ ids outer below hkind hname hpairs hchildren
      hinside houter =>
      have hids : store.children id = (ids ++ [child]) ++ (none : Option NodeId).toList := by
        simpa using hchildren
      have hmore := hinside.append hstands
      rw [← List.reverse_cons] at hmore
      have hlonger : store.Spine grown
          ({ element with children := tree :: element.children } :: outerElements)
          (id :: outerIds) none (outer ++ (id :: (store.attributes id ++ (below ++ mine)))) :=
        .element hkind hname hpairs hids hmore houter
      simpa [Growth.put] using hlonger

/-- A new element is opened inside the innermost one. -/
theorem openElement {child : NodeId} {name : Bytes} {pairs : List (Bytes × Bytes)}
    (hspine : store.Spine growth.grown growth.openElements openIds (some child) listing)
    (hkind : store.kind? child = some .element) (hname : store.name? child = some name)
    (hpairs : store.attributePairs child = collectPairs pairs)
    (hchildren : store.children child = []) :
    store.Spine (growth.openElement name pairs).grown (growth.openElement name pairs).openElements
      (child :: openIds) none (listing ++ (child :: store.attributes child)) := by
  have hopened : store.Spine growth.grown (⟨name, collectPairs pairs, []⟩ :: growth.openElements)
      (child :: openIds) none (listing ++ (child :: (store.attributes child ++ []))) := by
    refine .element hkind ?_ hpairs ?_ .nil hspine
    · rw [hname]
      rfl
    · simpa using hchildren
  rw [List.append_nil] at hopened
  exact hopened

theorem closeElement (hspine : store.Spine growth.grown growth.openElements openIds none listing) :
    store.Spine growth.closeElement.grown growth.closeElement.openElements openIds.tail none
      listing := by
  obtain ⟨grown, elements⟩ := growth
  cases hspine with
  | root hchildren hstands => exact .root hchildren hstands
  | @element element outerElements id outerIds _ ids outer below hkind hname hpairs hchildren
      hinside houter =>
      have hids : store.children id = ids := by simpa using hchildren
      have hstands : store.Stands [element.toTree] [id]
          (id :: (store.attributes id ++ below ++ [])) :=
        .element hkind hname hpairs (hids.symm ▸ hinside) .nil
      rw [List.append_nil] at hstands
      exact put (show store.Spine (Growth.mk grown outerElements).grown
        (Growth.mk grown outerElements).openElements outerIds (some id) outer from houter) hstands

/-- When all elements are completed, the trees stand at the children of the root. -/
theorem stands (hspine : store.Spine growth.grown growth.openElements openIds none listing) :
    store.Stands growth.trees (store.children rootId) listing := by
  generalize hlength : growth.openElements.length = length
  induction length generalizing growth openIds with
  | zero =>
      obtain ⟨grown, elements⟩ := growth
      cases List.eq_nil_of_length_eq_zero hlength
      cases hspine with
      | root hchildren hstands =>
          rw [hchildren]
          simpa [Growth.trees, Growth.complete] using hstands
  | succ length ih =>
      rw [← Growth.trees_closeElement]
      refine ih hspine.closeElement ?_
      rw [Growth.length_openElements_closeElement, hlength]
      rfl

end Spine

end VersionedXml.Store
