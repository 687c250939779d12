import VersionedXml.Proofs.Store.Answers
import VersionedXml.Proofs.Store.Markup

/-!
# Trees that stand in a store

A list of trees stands in a store at a list of nodes if the store answers every question about these
nodes, and about all that lie below them, as the trees say.  The nodes of the trees are listed on
the way, each element before its attributes and these before its children.  As long as the list is
not longer than the store, no bound on depth is ever met, and the store has exactly these trees.  It
writes exactly their markup.
-/

namespace VersionedXml

namespace Store

/-- The trees stand at the nodes `ids`, and `listing` lists all their nodes. -/
inductive Stands (store : Store) : List Tree → List NodeId → List NodeId → Prop where
  | nil : Stands store [] [] []
  | leaf {kind : LeafKind} {content : Bytes} {id : NodeId} {rest : List Tree}
      {ids listing : List NodeId} (hkind : store.kind? id = some (.leaf kind))
      (hcontent : (store.content? id).getD [] = content) (hrest : Stands store rest ids listing) :
      Stands store (.leaf kind content :: rest) (id :: ids) (id :: listing)
  | element {name : Bytes} {pairs : List (Bytes × Bytes)} {id : NodeId} {inner rest : List Tree}
      {ids below listing : List NodeId} (hkind : store.kind? id = some .element)
      (hname : (store.name? id).getD [] = name) (hpairs : store.attributePairs id = pairs)
      (hinner : Stands store inner (store.children id) below)
      (hrest : Stands store rest ids listing) :
      Stands store (.element name pairs inner :: rest) (id :: ids)
        (id :: (store.attributes id ++ below ++ listing))

namespace Stands

variable {store next : Store} {forest more : List Tree} {ids others listing moreListing : List NodeId}

/-- Trees stand wherever their nodes have not changed. -/
theorem congr (hsame : ∀ id ∈ listing, store.SameAt next id)
    (hstands : store.Stands forest ids listing) : next.Stands forest ids listing := by
  induction hstands with
  | nil => exact .nil
  | @leaf kind content id rest ids listing hkind hcontent hrest ih =>
      have hid := hsame id List.mem_cons_self
      refine .leaf (hid.kind?.trans hkind) ?_ (ih fun x hx => hsame x (List.mem_cons_of_mem id hx))
      rw [hid.content?, hcontent]
  | @element name pairs id inner rest ids below listing hkind hname hpairs hinner hrest ihInner
      ihRest =>
      have hid := hsame id List.mem_cons_self
      have hbelow := ihInner fun x hx => hsame x
        (List.mem_cons_of_mem id (List.mem_append_left _ (List.mem_append_right _ hx)))
      have hbehind := ihRest fun x hx => hsame x
        (List.mem_cons_of_mem id (List.mem_append_right _ hx))
      rw [← hid.attributes]
      refine .element (hid.kind?.trans hkind) ?_ (hid.attributePairs.trans hpairs) ?_ hbehind
      · rw [hid.name?, hname]
      · rw [hid.children]
        exact hbelow

theorem append (hstands : store.Stands forest ids listing)
    (hmore : store.Stands more others moreListing) :
    store.Stands (forest ++ more) (ids ++ others) (listing ++ moreListing) := by
  induction hstands with
  | nil => exact hmore
  | leaf hkind hcontent _ ih => exact .leaf hkind hcontent ih
  | @element name pairs id inner rest ids below listing hkind hname hpairs hinner _ _ ih =>
      have hlist := Stands.element hkind hname hpairs hinner ih
      rw [← List.append_assoc] at hlist
      exact hlist

/-- A depth that the listing does not exceed is deep enough for all trees. -/
theorem filterMap_treeTo? (hstands : store.Stands forest ids listing) {depth : Nat}
    (hdepth : listing.length ≤ depth) : ids.filterMap (store.treeTo? depth) = forest := by
  induction hstands generalizing depth with
  | nil => rfl
  | leaf hkind hcontent hrest ih =>
      cases depth with
      | zero => simp at hdepth
      | succ depth =>
          simp only [List.length_cons] at hdepth
          rw [List.filterMap_cons, treeTo?, hkind, ih (by omega)]
          simp only [hcontent]
  | element hkind hname hpairs hinner hrest ihInner ihRest =>
      cases depth with
      | zero => simp at hdepth
      | succ depth =>
          simp only [List.length_cons, List.length_append] at hdepth
          rw [List.filterMap_cons, treeTo?, hkind, ihRest (by omega)]
          simp only [hname, hpairs, ihInner (show _ ≤ depth by omega)]

theorem trees_eq {id : NodeId} (hstands : store.Stands forest (store.children id) listing)
    (hlength : listing.length ≤ store.nodeCount) : store.trees id = forest :=
  hstands.filterMap_treeTo? hlength

theorem flatMap_eq_renderAll (hstands : store.Stands forest ids listing) {markup : NodeId → Bytes}
    (hmarkup : store.IsMarkup markup) : ids.flatMap markup = Tree.renderAll forest := by
  induction hstands with
  | nil => rfl
  | leaf hkind hcontent _ ih =>
      rw [List.flatMap_cons, ih, hmarkup, markupAround_of_leaf hkind, hcontent, Tree.renderAll,
        Tree.render]
  | element hkind hname hpairs _ _ ihInner ihRest =>
      rw [List.flatMap_cons, ihRest, hmarkup, markupAround, hkind, ihInner, Tree.renderAll,
        Tree.render]
      simp only [hname, hpairs]

/-- The store writes exactly the markup of the trees that stand at the children of the root. -/
theorem render_eq (hstore : store.Sound) (hstands : store.Stands forest (store.children rootId) listing) :
    store.render = (Tree.renderAll forest).toArray := by
  obtain ⟨markup, hmarkup⟩ := hstore.exists_isMarkup
  obtain ⟨steps, hsteps, hwrites⟩ := hstore.exists_writes hmarkup rootId
  have hroot : store.kind? rootId = some .document := hstore.wellFormed.root
  rw [render, renderNode, write, hwrites.writeAll_eq hsteps, hmarkup, markupAround, hroot]
  simp only [hstands.flatMap_eq_renderAll hmarkup]
  simp

end Stands

end Store

end VersionedXml
