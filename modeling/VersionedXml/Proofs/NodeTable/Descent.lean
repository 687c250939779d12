import Mathlib.Logic.Relation
import VersionedXml.Proofs.NodeTable.WellFormed

/-!
# Descent

Going down from a node to its children, to their children and so on comes to an end in a well-formed
table, because every child lies one level deeper than its parent.  On the way no node is met twice,
since a node has one parent.  So all nodes below a node can be listed, each before those below it,
and the list is not longer than the table.  A walk that keeps on a stack where to go on meets
exactly the listed nodes, in this order.
-/

namespace VersionedXml.NodeTable

def IsChild (table : NodeTable) (parent child : NodeId) : Prop :=
  child ∈ table.children parent

/-- The number of nodes from a node up to the top of its tree. -/
def depth (table : NodeTable) (id : NodeId) : Nat :=
  (table.lineage id).length

/-- The subtrees at the nodes `ids` have the nodes `listing`, each before those below it. -/
inductive Preorder (table : NodeTable) : List NodeId → List NodeId → Prop where
  | nil : Preorder table [] []
  | cons {id : NodeId} {rest inner behind : List NodeId}
      (hinner : Preorder table (table.children id) inner) (hrest : Preorder table rest behind) :
      Preorder table (id :: rest) (id :: (inner ++ behind))

/-- Taking nodes from a stack, and pushing for each the node behind it and its first child, visits
exactly `visited` and then finds the stack empty. -/
inductive Visits (table : NodeTable) : List NodeId → List NodeId → Prop where
  | done : Visits table [] []
  | pop {id : NodeId} {stack visited : List NodeId}
      (hrest : Visits table (((table.links? .children id).bind Links.first).toList ++
        (table.next? id).toList ++ stack) visited) :
      Visits table (id :: stack) (id :: visited)

open Relation (ReflTransGen TransGen)

variable {table : NodeTable} {parent child id x : NodeId}

/-! ## Levels -/

namespace WellFormed

variable (hwf : table.WellFormed)
include hwf

theorem parent?_of_isChild (hchild : table.IsChild parent child) :
    table.parent? child = some parent :=
  (hwf.mem_members.mp hchild).2

theorem lineage_eq_cons (hparent : table.parent? child = some parent) :
    table.lineage child = child :: table.lineage parent := by
  have hlive : table.contains child = true := by
    obtain ⟨node, hnode, -⟩ := Option.bind_eq_some_iff.mp hparent
    exact Option.isSome_iff_exists.mpr ⟨node, hnode⟩
  have habove := hwf.lineage_chain (hwf.contains_of_parent? hparent)
  rw [← hparent] at habove
  exact (hwf.lineage_chain hlive).unique ⟨rfl, habove⟩

theorem depth_of_isChild (hchild : table.IsChild parent child) :
    table.depth child = table.depth parent + 1 := by
  rw [depth, hwf.lineage_eq_cons (hwf.parent?_of_isChild hchild)]
  rfl

theorem depth_lt_of_transGen (hbelow : TransGen table.IsChild id x) :
    table.depth id < table.depth x := by
  induction hbelow with
  | single hchild =>
      rw [hwf.depth_of_isChild hchild]
      exact Nat.lt_succ_self _
  | tail _ hchild ih =>
      rw [hwf.depth_of_isChild hchild]
      exact Nat.lt_succ_of_lt ih

theorem wellFounded_isChild : WellFounded fun child parent => table.IsChild parent child := by
  refine Subrelation.wf (fun {child parent} hchild => ?_)
    (measure fun id => table.size - table.depth id).wf
  have hdeeper := hwf.depth_of_isChild hchild
  have hbound : table.depth child ≤ table.size := length_follow_le _ _ _ _
  change table.size - table.depth child < table.size - table.depth parent
  omega

/-- What is computed from the results at the children of a node is defined for every node. -/
theorem exists_fold {β : Type} (combine : NodeId → List β → β) :
    ∃ result : NodeId → β, ∀ id, result id = combine id ((table.children id).map result) := by
  refine ⟨hwf.wellFounded_isChild.fix fun id below =>
    combine id ((table.children id).attach.map fun child => below child.1 child.2), fun id => ?_⟩
  rw [WellFounded.fix_eq]
  simp only [List.map_attach_eq_pmap, List.pmap_eq_map]

theorem reflTransGen_total {first second : NodeId} (hfirst : ReflTransGen table.IsChild first x)
    (hsecond : ReflTransGen table.IsChild second x) :
    ReflTransGen table.IsChild first second ∨ ReflTransGen table.IsChild second first := by
  induction hfirst with
  | refl => exact .inr hsecond
  | @tail middle x hmiddle hchild ih =>
      rcases Relation.ReflTransGen.cases_tail hsecond with rfl | ⟨other, hother, hotherChild⟩
      · exact .inl (hmiddle.tail hchild)
      · have hsame : other = middle := Option.some.inj
          ((hwf.parent?_of_isChild hotherChild).symm.trans (hwf.parent?_of_isChild hchild))
        exact ih (hsame ▸ hother)

/-- The subtrees of siblings have no node in common. -/
theorem pairwise_children (id : NodeId) :
    (table.children id).Pairwise fun first second => ∀ x, ReflTransGen table.IsChild first x →
      ¬ ReflTransGen table.IsChild second x := by
  have hapart : ∀ {first second}, table.IsChild id first → table.IsChild id second →
      ReflTransGen table.IsChild first second → first = second := by
    intro first second hfirst hsecond habove
    rcases Relation.reflTransGen_iff_eq_or_transGen.mp habove with heq | hbelow
    · exact heq.symm
    · have hlevel := hwf.depth_lt_of_transGen hbelow
      rw [hwf.depth_of_isChild hfirst, hwf.depth_of_isChild hsecond] at hlevel
      exact absurd hlevel (Nat.lt_irrefl _)
  refine (hwf.nodup_members .children id).imp_of_mem ?_
  intro first second hfirst hsecond hne x hx hx'
  rcases hwf.reflTransGen_total hx hx' with habove | habove
  · exact hne (hapart hfirst hsecond habove)
  · exact hne (hapart hsecond hfirst habove).symm

end WellFormed

/-! ## Listings -/

namespace Preorder

variable {ids listing : List NodeId}

theorem mem_iff (hlisting : table.Preorder ids listing) :
    x ∈ listing ↔ ∃ id ∈ ids, ReflTransGen table.IsChild id x := by
  induction hlisting with
  | nil => simp
  | @cons id rest inner behind hinner hrest ihInner ihRest =>
      have hsubtree : ReflTransGen table.IsChild id x ↔ x = id ∨ x ∈ inner := by
        rw [ihInner, Relation.reflTransGen_iff_eq_or_transGen, TransGen.head'_iff]
        rfl
      simp only [List.mem_cons, List.mem_append, or_and_right, exists_or, exists_eq_left, hsubtree,
        ihRest, or_assoc]

theorem mem_iff_transGen (hlisting : table.Preorder (table.children id) listing) :
    x ∈ listing ↔ TransGen table.IsChild id x := by
  rw [hlisting.mem_iff, TransGen.head'_iff]
  rfl

/-- The subtrees of the given nodes are listed without repetition if they have no node in common. -/
theorem nodup (hwf : table.WellFormed) (hlisting : table.Preorder ids listing)
    (hapart : ids.Pairwise fun first second => ∀ x, ReflTransGen table.IsChild first x →
      ¬ ReflTransGen table.IsChild second x) : listing.Nodup := by
  induction hlisting with
  | nil => exact List.nodup_nil
  | @cons id rest inner behind hinner hrest ihInner ihRest =>
      obtain ⟨hfirst, hothers⟩ := List.pairwise_cons.mp hapart
      have hbehind : ∀ y ∈ behind, ¬ ReflTransGen table.IsChild id y := by
        intro y hy hid
        obtain ⟨other, hother, hbelow⟩ := hrest.mem_iff.mp hy
        exact hfirst other hother y hid hbelow
      have hinside : ∀ y ∈ inner, TransGen table.IsChild id y := fun y hy =>
        hinner.mem_iff_transGen.mp hy
      refine List.nodup_cons.mpr ⟨?_, List.nodup_append.mpr
        ⟨ihInner (hwf.pairwise_children id), ihRest hothers, ?_⟩⟩
      · intro hmember
        rcases List.mem_append.mp hmember with hinner | hbelow
        · exact Nat.lt_irrefl _ (hwf.depth_lt_of_transGen (hinside id hinner))
        · exact hbehind id hbelow .refl
      · rintro y hy _ hbelow rfl
        exact hbehind y hbelow (hinside y hy).to_reflTransGen

end Preorder

namespace WellFormed

variable (hwf : table.WellFormed)
include hwf

theorem exists_preorder (ids : List NodeId) : ∃ listing, table.Preorder ids listing := by
  have hlist : ∀ ids, (∀ id ∈ ids, ∃ inner, table.Preorder (table.children id) inner) →
      ∃ listing, table.Preorder ids listing := by
    intro ids hids
    induction ids with
    | nil => exact ⟨[], .nil⟩
    | cons id rest ih =>
        obtain ⟨inner, hinner⟩ := hids id List.mem_cons_self
        obtain ⟨behind, hbehind⟩ := ih fun other hother => hids other (List.mem_cons_of_mem id hother)
        exact ⟨_, .cons hinner hbehind⟩
  have hinner : ∀ id, ∃ inner, table.Preorder (table.children id) inner := fun id =>
    hwf.wellFounded_isChild.induction id fun id ih => hlist (table.children id) ih
  exact hlist ids fun id _ => hinner id

/-- Nodes with no node in common below them have no more nodes below them than the table has. -/
theorem length_preorder_le {ids listing : List NodeId} (hlisting : table.Preorder ids listing)
    (hapart : ids.Pairwise fun first second => ∀ x, ReflTransGen table.IsChild first x →
      ¬ ReflTransGen table.IsChild second x)
    (hlive : ∀ id ∈ ids, table.contains id = true) : listing.length ≤ table.size := by
  refine length_le_size (hlisting.nodup hwf hapart) fun x hx => ?_
  obtain ⟨id, hid, hbelow⟩ := hlisting.mem_iff.mp hx
  rcases ReflTransGen.cases_tail hbelow with rfl | ⟨parent, -, hparent⟩
  · exact hlive x hid
  · exact hwf.contains_of_mem hparent

theorem chain_children (id : NodeId) : Chain table.next?
    ((table.links? .children id).bind Links.first) (table.children id) none := by
  cases hlinks : table.links? .children id with
  | none =>
      rw [children, members_of_links?_eq_none hlinks]
      rfl
  | some links => exact (hwf.isList hlinks).chain

end WellFormed

/-! ## Walks with a stack -/

/-- With steps for all nodes that are visited, the walk is complete. -/
theorem Visits.visit_eq {stack visited : List NodeId} (hvisits : table.Visits stack visited)
    {steps : Nat} (hsteps : visited.length ≤ steps) : table.visit steps stack = visited := by
  induction hvisits generalizing steps with
  | done => cases steps <;> rfl
  | @pop id stack visited hrest ih =>
      cases steps with
      | zero => simp at hsteps
      | succ steps =>
          exact congrArg (id :: ·) (ih (Nat.le_of_succ_le_succ hsteps))

/-- From the first of linked siblings, the walk lists their subtrees before it goes on with what was
on the stack. -/
theorem Preorder.visits (hwf : table.WellFormed) {ids listing : List NodeId}
    (hlisting : table.Preorder ids listing) {start : Option NodeId} {stack visited : List NodeId}
    (hchain : Chain table.next? start ids none) (hrest : table.Visits stack visited) :
    table.Visits (start.toList ++ stack) (listing ++ visited) := by
  induction hlisting generalizing start stack visited with
  | nil =>
      cases (show start = none from hchain)
      exact hrest
  | @cons id rest inner behind _ _ ihInner ihRest =>
      obtain ⟨rfl, hbehind⟩ := hchain
      have hinside := ihInner (hwf.chain_children id) (ihRest hbehind hrest)
      rw [← List.append_assoc, ← List.append_assoc] at hinside
      exact .pop hinside

namespace WellFormed

variable (hwf : table.WellFormed)
include hwf

theorem visits_of_preorder {listing : List NodeId}
    (hlisting : table.Preorder (table.children id) listing) :
    table.Visits ((table.links? .children id).bind Links.first).toList listing := by
  have hvisits := hlisting.visits hwf (hwf.chain_children id) .done
  rwa [List.append_nil, List.append_nil] at hvisits

theorem descendants_eq {listing : List NodeId}
    (hlisting : table.Preorder (table.children id) listing) : table.descendants id = listing :=
  (hwf.visits_of_preorder hlisting).visit_eq
    (hwf.length_preorder_le hlisting (hwf.pairwise_children id) fun _ => hwf.contains_of_mem)

theorem preorder_descendants (id : NodeId) :
    table.Preorder (table.children id) (table.descendants id) := by
  obtain ⟨listing, hlisting⟩ := hwf.exists_preorder (table.children id)
  exact hwf.descendants_eq hlisting ▸ hlisting

theorem preorder_eq_flatMap {ids listing : List NodeId} (hlisting : table.Preorder ids listing) :
    listing = ids.flatMap fun id => id :: table.descendants id := by
  induction hlisting with
  | nil => rfl
  | cons hinner _ _ ihRest => rw [List.flatMap_cons, hwf.descendants_eq hinner, ← ihRest]; rfl

end WellFormed

end VersionedXml.NodeTable
