import Mathlib.Data.List.Nodup
import Mathlib.Data.List.Permutation
import VersionedXml.NodeTable.Links

/-!
# Chains of links

A table is walked from link to link.  A chain is what such a walk meets when nothing bounds it: the
nodes from a start on, in order, up to a stop.  Since a link leads to one node only, a chain that
stops at nothing meets no node twice, and a walk with enough steps meets exactly the chain.
-/

namespace VersionedXml

/-- Following `link` from `start` on meets exactly `ids`, in this order, and then arrives at
`stop`. -/
def Chain (link : NodeId → Option NodeId) :
    Option NodeId → List NodeId → Option NodeId → Prop
  | start, [], stop => start = stop
  | start, id :: rest, stop => start = some id ∧ Chain link (link id) rest stop

namespace Chain

variable {link other : NodeId → Option NodeId} {start stop : Option NodeId} {ids : List NodeId}

theorem append_iff {left right : List NodeId} :
    Chain link start (left ++ right) stop ↔
      ∃ middle, Chain link start left middle ∧ Chain link middle right stop := by
  induction left generalizing start with
  | nil =>
      constructor
      · intro hright
        exact ⟨start, rfl, hright⟩
      · rintro ⟨middle, hstart, hright⟩
        cases (show start = middle from hstart)
        exact hright
  | cons id rest ih =>
      constructor
      · rintro ⟨hstart, hrest⟩
        obtain ⟨middle, hleft, hright⟩ := ih.mp hrest
        exact ⟨middle, ⟨hstart, hleft⟩, hright⟩
      · rintro ⟨middle, ⟨hstart, hleft⟩, hright⟩
        exact ⟨hstart, ih.mpr ⟨middle, hleft, hright⟩⟩

theorem congr (hsame : ∀ id ∈ ids, other id = link id) (hids : Chain link start ids stop) :
    Chain other start ids stop := by
  induction ids generalizing start with
  | nil => exact hids
  | cons id rest ih =>
      obtain ⟨hstart, hrest⟩ := hids
      refine ⟨hstart, ih (fun member hmember => hsame member (List.mem_cons_of_mem id hmember)) ?_⟩
      rw [hsame id List.mem_cons_self]
      exact hrest

theorem unique {more : List NodeId} (hids : Chain link start ids none)
    (hmore : Chain link start more none) : ids = more := by
  induction ids generalizing start more with
  | nil =>
      cases (show start = none from hids)
      cases more with
      | nil => rfl
      | cons id rest => cases hmore.1
  | cons id rest ih =>
      obtain ⟨hstart, hrest⟩ := hids
      subst hstart
      cases more with
      | nil => cases (show some id = none from hmore)
      | cons second tail =>
          obtain ⟨hsecond, htail⟩ := hmore
          cases hsecond
          rw [ih hrest htail]

/-- Coming back to a member would make the chain endless. -/
theorem nodup (hids : Chain link start ids none) : ids.Nodup := by
  induction ids generalizing start with
  | nil => exact List.nodup_nil
  | cons id rest ih =>
      obtain ⟨-, hrest⟩ := hids
      refine List.nodup_cons.mpr ⟨?_, ih hrest⟩
      intro hagain
      obtain ⟨left, right, rfl⟩ := List.append_of_mem hagain
      obtain ⟨middle, -, hmiddle⟩ := append_iff.mp hrest
      obtain ⟨-, hright⟩ := hmiddle
      have hlength := congrArg List.length (unique hrest hright)
      simp only [List.length_append, List.length_cons] at hlength
      omega

theorem head?_eq (hids : Chain link start ids none) : ids.head? = start := by
  cases ids with
  | nil => exact (show start = none from hids).symm
  | cons id rest => exact hids.1.symm

theorem link_getLast? {last : NodeId} (hids : Chain link start ids none)
    (hlast : ids.getLast? = some last) : link last = none := by
  obtain ⟨front, rfl⟩ := List.getLast?_eq_some_iff.mp hlast
  obtain ⟨middle, -, hmiddle⟩ := append_iff.mp hids
  exact hmiddle.2

theorem mem_of_link {id next : NodeId} (hids : Chain link start ids none) (hid : id ∈ ids)
    (hnext : link id = some next) : next ∈ ids := by
  obtain ⟨left, right, rfl, -⟩ := List.eq_append_cons_of_mem hid
  obtain ⟨middle, -, -, hright⟩ := append_iff.mp hids
  cases right with
  | nil => cases hnext.symm.trans hright
  | cons first rest =>
      cases hnext.symm.trans hright.1
      simp

/-! ## Changing a chain at one place -/

/-- A node linked from the last member becomes the last member. -/
theorem addLast {id : NodeId} (hids : Chain link start ids none)
    (hlast : ∀ last, ids.getLast? = some last → other last = some id)
    (hsame : ∀ member ∈ ids, ids.getLast? ≠ some member → other member = link member)
    (hend : other id = none) :
    Chain other (start <|> some id) (ids ++ [id]) none := by
  rcases List.eq_nil_or_concat ids with rfl | ⟨front, last, rfl⟩
  · cases (show start = none from hids)
    exact ⟨rfl, hend⟩
  rw [List.concat_eq_append] at *
  have hstart : (start <|> some id) = start := by
    cases start with
    | none => simpa using hids.head?_eq
    | some first => rfl
  have hfresh : last ∉ front := by
    intro hmember
    exact (List.nodup_append.mp hids.nodup).2.2 last hmember last List.mem_cons_self rfl
  obtain ⟨middle, hfront, hmiddle, -⟩ := append_iff.mp hids
  subst hmiddle
  rw [hstart, List.append_assoc]
  refine append_iff.mpr ⟨some last, hfront.congr ?_, rfl, ?_, hend⟩
  · intro member hmember
    refine hsame member (List.mem_append_left [last] hmember) ?_
    rw [List.getLast?_concat]
    intro heq
    exact hfresh (Option.some.inj heq ▸ hmember)
  · exact hlast last List.getLast?_concat

theorem addFirst {id : NodeId} (hids : Chain link start ids none) (hfirst : other id = start)
    (hsame : ∀ member ∈ ids, other member = link member) :
    Chain other (some id) (id :: ids) none := by
  refine ⟨rfl, ?_⟩
  rw [hfirst]
  exact hids.congr hsame

end Chain

open NodeTable (before?)

/-- What stands right before the first occurrence of a node is the end of all that stands before
it. -/
theorem before?_append {id : NodeId} {left right : List NodeId} (hid : id ∉ left) :
    before? id (left ++ id :: right) = left.getLast? := by
  induction left with
  | nil => cases right <;> simp [before?]
  | cons head rest ih =>
      have hhead : head ≠ id := fun heq => hid (heq ▸ List.mem_cons_self)
      have hrest : id ∉ rest := fun hmember => hid (List.mem_cons_of_mem head hmember)
      cases rest with
      | nil => simp [before?, hhead]
      | cons second tail =>
          have hsecond : second ≠ id := fun heq => hrest (heq ▸ List.mem_cons_self)
          simp only [List.cons_append, before?, hhead, hsecond, if_false]
          rw [List.getLast?_cons_cons]
          exact ih hrest

theorem mem_of_before? {id previous : NodeId} {ids : List NodeId} (hid : id ∈ ids)
    (hbefore : before? id ids = some previous) : previous ∈ ids ∧ previous ≠ id := by
  obtain ⟨left, right, rfl, hleft⟩ := List.eq_append_cons_of_mem hid
  rw [before?_append hleft] at hbefore
  have hmember := List.mem_of_getLast? hbefore
  exact ⟨List.mem_append_left _ hmember, fun heq => hleft (heq ▸ hmember)⟩

/-- Linking past a member takes it out of the chain. -/
theorem Chain.erase {link other : NodeId → Option NodeId} {start : Option NodeId}
    {ids : List NodeId} {id : NodeId} (hids : Chain link start ids none) (hid : id ∈ ids)
    (hbefore : ∀ previous, before? id ids = some previous → other previous = link id)
    (hsame : ∀ member ∈ ids, member ≠ id → before? id ids ≠ some member →
      other member = link member) :
    Chain other (if (before? id ids).isNone then link id else start) (ids.erase id) none := by
  obtain ⟨left, right, rfl, hleft⟩ := List.eq_append_cons_of_mem hid
  have hnodup := hids.nodup
  have hright : id ∉ right := (List.nodup_cons.mp (List.nodup_append.mp hnodup).2.1).1
  rw [before?_append hleft] at *
  rw [List.erase_append_right _ hleft, List.erase_cons_head]
  obtain ⟨middle, hfront, hmiddle, htail⟩ := append_iff.mp hids
  subst hmiddle
  have hapart : ∀ member ∈ right, left.getLast? ≠ some member := by
    intro member hmember hlast
    exact (List.nodup_append.mp hnodup).2.2 member (List.mem_of_getLast? hlast) member
      (List.mem_cons_of_mem id hmember) rfl
  have htail' : Chain other (link id) right none := by
    refine htail.congr fun member hmember => ?_
    have hmember' := List.mem_append_right left (List.mem_cons_of_mem id hmember)
    exact hsame member hmember' (fun heq => hright (heq ▸ hmember)) (hapart member hmember)
  -- the member before `id` takes over its link, and without one the start does
  rcases List.eq_nil_or_concat left with rfl | ⟨front, previous, rfl⟩
  · exact htail'
  rw [List.concat_eq_append] at *
  obtain ⟨middle, hbegin, hprevious, hlink⟩ := append_iff.mp hfront
  subst hprevious
  have hfresh : previous ∉ front := by
    intro hmember
    exact (List.nodup_append.mp (List.nodup_append.mp hnodup).1).2.2 previous hmember previous
      List.mem_cons_self rfl
  simp only [List.getLast?_concat, Option.isNone_some, Bool.false_eq_true, if_false]
  rw [List.append_assoc]
  refine append_iff.mpr ⟨some previous, hbegin.congr ?_, rfl, ?_⟩
  · intro member hmember
    have hmember' : member ∈ front ++ [previous] ++ id :: right := by simp [hmember]
    refine hsame member hmember' ?_ ?_
    · intro heq
      exact hleft (List.mem_append_left [previous] (heq ▸ hmember))
    · rw [List.getLast?_concat]
      intro heq
      exact hfresh (Option.some.inj heq ▸ hmember)
  · rw [hbefore previous List.getLast?_concat]
    exact htail'

namespace NodeTable

/-! ## Walks -/

def next? (table : NodeTable) (id : NodeId) : Option NodeId :=
  (table.get? id).bind Node.next

def parent? (table : NodeTable) (id : NodeId) : Option NodeId :=
  (table.get? id).bind Node.parent

theorem follow_eq {table : NodeTable} {link : Node → Option NodeId} {start : Option NodeId}
    {ids : List NodeId} {steps : Nat}
    (hids : Chain (fun id => (table.get? id).bind link) start ids none)
    (hsteps : ids.length ≤ steps) : table.follow link steps start = ids := by
  induction ids generalizing start steps with
  | nil =>
      cases (show start = none from hids)
      exact follow_none table link steps
  | cons id rest ih =>
      obtain ⟨rfl, hrest⟩ := hids
      cases steps with
      | zero => simp at hsteps
      | succ steps =>
          rw [follow, ih hrest (by simpa using hsteps)]

theorem contains_iff {table : NodeTable} {id : NodeId} :
    table.contains id = true ↔ id ≠ 0 ∧ id.toNat ≤ table.size := by
  unfold contains get? size
  by_cases hzero : id = 0
  · simp [hzero]
  · have hpos : id.toNat ≠ 0 := fun h => hzero (UInt32.toNat_inj.mp (by simpa using h))
    rw [if_neg hzero, and_iff_right hzero, Option.isSome_iff_ne_none, Ne,
      Array.getElem?_eq_none_iff]
    omega

theorem length_le_size {table : NodeTable} {ids : List NodeId} (hnodup : ids.Nodup)
    (hlive : ∀ id ∈ ids, table.contains id = true) : ids.length ≤ table.size := by
  have hsubset : ids.map UInt32.toNat ⊆ (List.range table.size).map (· + 1) := by
    intro number hnumber
    obtain ⟨id, hid, rfl⟩ := List.mem_map.mp hnumber
    obtain ⟨hzero, hle⟩ := contains_iff.mp (hlive id hid)
    have hpos : id.toNat ≠ 0 := fun h => hzero (UInt32.toNat_inj.mp (by simpa using h))
    exact List.mem_map.mpr ⟨id.toNat - 1, List.mem_range.mpr (by omega), by omega⟩
  have hinjective : (ids.map UInt32.toNat).Nodup :=
    hnodup.map fun _ _ heq => UInt32.toNat_inj.mp heq
  simpa using (List.subperm_of_subset hinjective hsubset).length_le

end NodeTable

end VersionedXml
