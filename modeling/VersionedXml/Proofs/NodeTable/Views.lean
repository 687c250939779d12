import VersionedXml.Proofs.NodeTable.Chain

/-!
# Views of a table

A table is seen through four views: the parent of a node, the node behind it, the lists that it
owns, and its label, which is all the rest.  Every change of a table is described by what it does to
the four views, and no later proof looks at a record again.
-/

namespace VersionedXml

namespace Node

def label (node : Node) : NodeKind × Option StrId × Option StrId × Option StrId :=
  (node.kind, node.name?, node.value?, node.content?)

/-- The family of lists in which a node may stand. -/
def family (node : Node) : Family :=
  if node.kind = .attribute then .attributes else .children

@[simp]
theorem label_mapLinks (family : Family) (change : Links → Links) (node : Node) :
    (node.mapLinks family change).label = node.label := by
  obtain ⟨parent, next, data⟩ := node
  cases family <;> cases data <;> rfl

@[simp]
theorem label_place (parent next : Option NodeId) (node : Node) :
    (node.place parent next).label = node.label := rfl

@[simp]
theorem links?_place (family : Family) (parent next : Option NodeId) (node : Node) :
    (node.place parent next).links? family = node.links? family := rfl

@[simp]
theorem kind_setValue (value : StrId) (node : Node) : (node.setValue value).kind = node.kind := by
  obtain ⟨parent, next, data⟩ := node
  cases data <;> rfl

@[simp]
theorem parent_setValue (value : StrId) (node : Node) :
    (node.setValue value).parent = node.parent := by
  obtain ⟨parent, next, data⟩ := node
  cases data <;> rfl

@[simp]
theorem next_setValue (value : StrId) (node : Node) : (node.setValue value).next = node.next := by
  obtain ⟨parent, next, data⟩ := node
  cases data <;> rfl

@[simp]
theorem links?_setValue (family : Family) (value : StrId) (node : Node) :
    (node.setValue value).links? family = node.links? family := by
  obtain ⟨parent, next, data⟩ := node
  cases family <;> cases data <;> rfl

theorem canBeChild_iff (node : Node) :
    node.canBeChild = true ↔ node.kind ≠ .document ∧ node.kind ≠ .attribute := by
  obtain ⟨parent, next, data⟩ := node
  cases data <;> simp [canBeChild, kind]

theorem canHaveChildren_iff (node : Node) :
    node.canHaveChildren = true ↔ node.kind = .document ∨ node.kind = .element := by
  obtain ⟨parent, next, data⟩ := node
  cases data <;> simp [canHaveChildren, kind, links?]

theorem isSome_links?_attributes_iff (node : Node) :
    (node.links? .attributes).isSome = true ↔ node.kind = .element := by
  obtain ⟨parent, next, data⟩ := node
  cases data <;> simp [kind, links?]

end Node

namespace NodeTable

def kind? (table : NodeTable) (id : NodeId) : Option NodeKind :=
  (table.get? id).map Node.kind

def family? (table : NodeTable) (id : NodeId) : Option Family :=
  (table.get? id).map Node.family

def label? (table : NodeTable) (id : NodeId) :
    Option (NodeKind × Option StrId × Option StrId × Option StrId) :=
  (table.get? id).map Node.label

theorem kind?_eq_label? (table : NodeTable) (id : NodeId) :
    table.kind? id = (table.label? id).map Prod.fst := by
  simp [kind?, label?, Function.comp_def, Node.label]

theorem family?_eq_kind? (table : NodeTable) (id : NodeId) :
    table.family? id =
      (table.kind? id).map fun kind => if kind = .attribute then .attributes else .children := by
  unfold family? kind?
  cases table.get? id <;> rfl

theorem contains_eq_kind? (table : NodeTable) (id : NodeId) :
    table.contains id = (table.kind? id).isSome := by
  simp [contains, kind?]

theorem contains_of_family? {table : NodeTable} {id : NodeId} {family : Family}
    (hfamily : table.family? id = some family) : table.contains id = true := by
  obtain ⟨node, hnode, -⟩ := Option.map_eq_some_iff.mp hfamily
  simp [contains, hnode]

theorem contains_of_links? {table : NodeTable} {family : Family} {owner : NodeId} {links : Links}
    (hlinks : table.links? family owner = some links) : table.contains owner = true := by
  obtain ⟨node, hnode, -⟩ := Option.bind_eq_some_iff.mp hlinks
  simp [contains, hnode]

theorem family?_of_links?_children {table : NodeTable} {id : NodeId} {links : Links}
    (hlinks : table.links? .children id = some links) : table.family? id = some .children := by
  obtain ⟨⟨parent, next, data⟩, hnode, hdata⟩ := Option.bind_eq_some_iff.mp hlinks
  match data with
  | .document _ => simp [family?, hnode, Node.family, Node.kind]
  | .element _ _ _ => simp [family?, hnode, Node.family, Node.kind]
  | .attribute _ _ => cases hdata
  | .leaf _ _ => cases hdata

/-! ## Views of a changed table -/

section Modify

variable (table : NodeTable) (id : NodeId) (change : Node → Node)

theorem get?_modify (other : NodeId) :
    (table.modify id change).get? other =
      if other = id then (table.get? other).map change else table.get? other := by
  by_cases hsame : other = id
  · subst hsame
    simp
  · rw [if_neg hsame, get?_modify_of_ne table change hsame]

theorem parent?_modify (hparent : ∀ node, (change node).parent = node.parent) (other : NodeId) :
    (table.modify id change).parent? other = table.parent? other := by
  unfold parent?
  rw [get?_modify]
  split
  · cases table.get? other <;> simp [hparent]
  · rfl

theorem next?_modify (hnext : ∀ node, (change node).next = node.next) (other : NodeId) :
    (table.modify id change).next? other = table.next? other := by
  unfold next?
  rw [get?_modify]
  split
  · cases table.get? other <;> simp [hnext]
  · rfl

theorem label?_modify (hlabel : ∀ node, (change node).label = node.label) (other : NodeId) :
    (table.modify id change).label? other = table.label? other := by
  unfold label?
  rw [get?_modify]
  split
  · cases table.get? other <;> simp [hlabel]
  · rfl

theorem kind?_modify (hkind : ∀ node, (change node).kind = node.kind) (other : NodeId) :
    (table.modify id change).kind? other = table.kind? other := by
  unfold kind?
  rw [get?_modify]
  split
  · cases table.get? other <;> simp [hkind]
  · rfl

theorem links?_modify (family : Family)
    (hlinks : ∀ node, (change node).links? family = node.links? family) (other : NodeId) :
    (table.modify id change).links? family other = table.links? family other := by
  unfold links?
  rw [get?_modify]
  split
  · cases table.get? other <;> simp [hlinks]
  · rfl

end Modify

/-- Changing a list of one node changes that list only. -/
theorem links?_modify_mapLinks (table : NodeTable) (family : Family) (owner : NodeId)
    (change : Links → Links) (asked : Family) (other : NodeId) :
    (table.modify owner (Node.mapLinks family change)).links? asked other =
      if asked = family ∧ other = owner then (table.links? family owner).map change
      else table.links? asked other := by
  unfold links?
  rw [get?_modify]
  by_cases hother : other = owner
  · subst hother
    by_cases hasked : asked = family
    · subst hasked
      cases table.get? other <;> simp
    · cases table.get? other <;> simp [hasked, Node.links?_mapLinks_of_ne]
  · simp [hother]

theorem parent?_modify_place (table : NodeTable) {id : NodeId} (parent next : Option NodeId)
    (hid : table.contains id = true) (other : NodeId) :
    (table.modify id (Node.place parent next)).parent? other =
      if other = id then parent else table.parent? other := by
  obtain ⟨node, hnode⟩ := Option.isSome_iff_exists.mp hid
  unfold parent?
  rw [get?_modify]
  split
  · rename_i hsame
    simp [hsame, hnode, Node.place]
  · rfl

theorem next?_modify_place (table : NodeTable) {id : NodeId} (parent next : Option NodeId)
    (hid : table.contains id = true) (other : NodeId) :
    (table.modify id (Node.place parent next)).next? other =
      if other = id then next else table.next? other := by
  obtain ⟨node, hnode⟩ := Option.isSome_iff_exists.mp hid
  unfold next?
  rw [get?_modify]
  split
  · rename_i hsame
    simp [hsame, hnode, Node.place]
  · rfl

@[simp]
theorem contains_modify (table : NodeTable) (id : NodeId) (change : Node → Node)
    (other : NodeId) : (table.modify id change).contains other = table.contains other := by
  unfold contains
  rw [get?_modify]
  split <;> simp

@[simp]
theorem contains_modify? (table : NodeTable) (id? : Option NodeId) (change : Node → Node)
    (other : NodeId) : (table.modify? id? change).contains other = table.contains other := by
  cases id? <;> simp [modify?]

@[simp]
theorem size_modify? (table : NodeTable) (id? : Option NodeId) (change : Node → Node) :
    (table.modify? id? change).size = table.size := by
  cases id? <;> simp [modify?]

/-- Linking a node to another one changes nothing but the link. -/
theorem next?_modify?_setNext (table : NodeTable) {id? : Option NodeId} (next : Option NodeId)
    (hid : ∀ id, id? = some id → table.contains id = true) (other : NodeId) :
    (table.modify? id? (Node.setNext next)).next? other =
      if id? = some other then next else table.next? other := by
  cases id? with
  | none => simp [modify?]
  | some id =>
      obtain ⟨node, hnode⟩ := Option.isSome_iff_exists.mp (hid id rfl)
      unfold modify? next?
      rw [get?_modify]
      by_cases hsame : other = id
      · simp [hsame, hnode, Node.setNext]
      · simp [hsame, Ne.symm hsame]

theorem parent?_modify?_setNext (table : NodeTable) (id? next : Option NodeId) (other : NodeId) :
    (table.modify? id? (Node.setNext next)).parent? other = table.parent? other := by
  cases id? with
  | none => rfl
  | some id => exact parent?_modify table id (Node.setNext next) (fun _ => rfl) other

theorem label?_modify?_setNext (table : NodeTable) (id? next : Option NodeId) (other : NodeId) :
    (table.modify? id? (Node.setNext next)).label? other = table.label? other := by
  cases id? with
  | none => rfl
  | some id => exact label?_modify table id (Node.setNext next) (fun _ => rfl) other

theorem links?_modify?_setNext (table : NodeTable) (id? next : Option NodeId) (family : Family)
    (other : NodeId) :
    (table.modify? id? (Node.setNext next)).links? family other = table.links? family other := by
  cases id? with
  | none => rfl
  | some id => exact links?_modify table id (Node.setNext next) family (fun _ => rfl) other

/-! ## Views of an enlarged table -/

def freshId (table : NodeTable) : NodeId := (table.size + 1).toUInt32

def push (table : NodeTable) (node : Node) : NodeTable := ⟨table.nodes.push node⟩

theorem add_eq_ok {limits : Limits} {table : NodeTable} {node : Node}
    {added : NodeTable × NodeId} (hadded : table.add limits node = .ok added) :
    table.size + 1 ≤ limits.maxNodes ∧ added = (table.push node, table.freshId) := by
  simp only [add] at hadded
  split at hadded
  · rename_i hroom
    exact ⟨hroom, (Except.ok.inj hadded).symm⟩
  · cases hadded

@[simp]
theorem size_push (table : NodeTable) (node : Node) : (table.push node).size = table.size + 1 := by
  simp [push, size]

section Push

variable {table : NodeTable} (hsize : table.size + 1 < UInt32.size)
include hsize

theorem toNat_freshId : table.freshId.toNat = table.size + 1 :=
  UInt32.toNat_ofNat_of_lt' hsize

theorem get?_freshId : table.get? table.freshId = none := by
  have hnot : ¬ table.contains table.freshId = true := by
    rw [contains_iff, toNat_freshId hsize]
    omega
  simpa [contains] using hnot

theorem ne_freshId {id : NodeId} (hid : table.contains id = true) : id ≠ table.freshId := by
  rintro rfl
  simp [contains, get?_freshId hsize] at hid

/-- The new node is found under the fresh identifier, and all others where they were. -/
theorem get?_push (node : Node) (other : NodeId) :
    (table.push node).get? other =
      if other = table.freshId then some node else table.get? other := by
  have hfresh := toNat_freshId hsize
  by_cases hother : other = table.freshId
  · have hzero : other ≠ 0 := by
      intro heq
      rw [← hother, heq] at hfresh
      simp at hfresh
    rw [if_pos hother, get?, if_neg hzero, hother, hfresh]
    exact Array.getElem?_push_size
  · rw [if_neg hother]
    unfold get? push
    split
    · rfl
    · rename_i hzero
      have hpos : other.toNat ≠ 0 := fun h => hzero (UInt32.toNat_inj.mp (by simpa using h))
      have hindex : other.toNat - 1 ≠ table.nodes.size := by
        intro heq
        refine hother (UInt32.toNat_inj.mp ?_)
        rw [hfresh, size]
        omega
      rw [Array.getElem?_push, if_neg hindex]

theorem get?_push_of_ne (node : Node) {other : NodeId} (hne : other ≠ table.freshId) :
    (table.push node).get? other = table.get? other := by
  rw [get?_push hsize, if_neg hne]

theorem parent?_push {node : Node} (hparent : node.parent = none) (other : NodeId) :
    (table.push node).parent? other = table.parent? other := by
  unfold parent?
  rw [get?_push hsize]
  split
  · rename_i heq
    simp [heq, get?_freshId hsize, hparent]
  · rfl

theorem next?_push {node : Node} (hnext : node.next = none) (other : NodeId) :
    (table.push node).next? other = table.next? other := by
  unfold next?
  rw [get?_push hsize]
  split
  · rename_i heq
    simp [heq, get?_freshId hsize, hnext]
  · rfl

theorem links?_push (node : Node) (family : Family) (other : NodeId) :
    (table.push node).links? family other =
      if other = table.freshId then node.links? family else table.links? family other := by
  unfold links?
  rw [get?_push hsize]
  split <;> rfl

theorem kind?_push (node : Node) (other : NodeId) :
    (table.push node).kind? other =
      if other = table.freshId then some node.kind else table.kind? other := by
  unfold kind?
  rw [get?_push hsize]
  split <;> rfl

theorem label?_push (node : Node) (other : NodeId) :
    (table.push node).label? other =
      if other = table.freshId then some node.label else table.label? other := by
  unfold label?
  rw [get?_push hsize]
  split <;> rfl

end Push

end NodeTable

end VersionedXml
