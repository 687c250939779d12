import VersionedXml.Proofs.NodeTable.Descent
import VersionedXml.Proofs.Store.Sound
import VersionedXml.Store.Render
import VersionedXml.Tree

/-!
# The markup of a node

Markup is defined by recursion: what is written for a node has the markup of its children within it.
A reachable store has exactly one function that satisfies this definition, as going down from a node
comes to an end.  The loop that writes a node has a stack of nodes and closing tags instead; it ends,
and it writes exactly the markup of the node behind what is written already.
-/

namespace VersionedXml

theorem Buffer.append_append (written : Buffer) (left right : Bytes) :
    written ++ left ++ right = written ++ (left ++ right) := by
  apply Array.ext'
  simp

namespace Store

variable {store : Store} {id : NodeId} {markup : NodeId → Bytes}

/-- What is written for a node, with `inner` in the place of its children. -/
def markupAround (store : Store) (id : NodeId) (inner : Bytes) : Bytes :=
  match store.kind? id with
  | none => []
  | some .document => inner
  | some .element =>
      [Byte.less] ++ (store.name? id).getD [] ++ Tree.renderAttributes (store.attributePairs id) ++
        [Byte.greater] ++ inner ++
        [Byte.less, Byte.slash] ++ (store.name? id).getD [] ++ [Byte.greater]
  | some .attribute =>
      (store.name? id).getD [] ++ [Byte.equals, Byte.doubleQuote] ++ (store.value? id).getD [] ++
        [Byte.doubleQuote]
  | some (.leaf .text) => (store.content? id).getD []
  | some (.leaf (.enclosed .comment)) =>
      [0x3c, 0x21, 0x2d, 0x2d] ++ (store.content? id).getD [] ++ [0x2d, 0x2d, 0x3e]
  | some (.leaf (.enclosed .instruction)) =>
      [0x3c, 0x3f] ++ (store.content? id).getD [] ++ [0x3f, 0x3e]
  | some (.leaf (.enclosed .cdata)) =>
      [0x3c, 0x21, 0x5b, 0x43, 0x44, 0x41, 0x54, 0x41, 0x5b] ++ (store.content? id).getD [] ++
        [0x5d, 0x5d, 0x3e]

theorem markupAround_of_leaf {kind : LeafKind} (hkind : store.kind? id = some (.leaf kind))
    (inner : Bytes) :
    store.markupAround id inner = kind.opening ++ (store.content? id).getD [] ++ kind.ending := by
  rw [markupAround, hkind]
  match kind with
  | .text => exact (List.append_nil _).symm
  | .enclosed .comment => rfl
  | .enclosed .instruction => rfl
  | .enclosed .cdata => rfl

/-- The recursive definition: the markup of a node has the markup of its children within it. -/
def IsMarkup (store : Store) (markup : NodeId → Bytes) : Prop :=
  ∀ id, markup id = store.markupAround id ((store.children id).flatMap markup)

/-- Writing pending items until none is left, each with what it leaves pending before the others,
takes as many steps and gives these bytes. -/
inductive Writes (store : Store) : Nat → List Pending → Bytes → Prop where
  | done : Writes store 0 [] []
  | step {item : Pending} {now later : Bytes} {left rest : List Pending} {steps : Nat}
      (hone : store.writeOne item = (now, left)) (hrest : Writes store steps (left ++ rest) later) :
      Writes store (steps + 1) (item :: rest) (now ++ later)

/-! ## The recursive definition -/

theorem Sound.exists_isMarkup (hstore : store.Sound) : ∃ markup, store.IsMarkup markup :=
  hstore.wellFormed.exists_fold fun id parts => store.markupAround id parts.flatten

theorem IsMarkup.unique (hstore : store.Sound) {other : NodeId → Bytes}
    (hmarkup : store.IsMarkup markup) (hother : store.IsMarkup other) : other = markup := by
  funext id
  induction id using hstore.wellFormed.wellFounded_isChild.induction with
  | _ id ih =>
      have hinner : (store.children id).map other = (store.children id).map markup :=
        List.map_congr_left ih
      rw [hmarkup id, hother id, List.flatMap_def, List.flatMap_def, hinner]

/-! ## The loop -/

/-- With steps for all items, everything is written behind what is written already. -/
theorem Writes.writeAll_eq {steps : Nat} {pending : List Pending} {bytes : Bytes}
    (hwrites : store.Writes steps pending bytes) {bound : Nat} (hsteps : steps ≤ bound)
    (written : Buffer) : store.writeAll bound pending written = written ++ bytes := by
  induction hwrites generalizing bound written with
  | done => cases bound <;> simp [writeAll]
  | step hone _ ih =>
      cases bound with
      | zero => simp at hsteps
      | succ bound =>
          rw [writeAll, hone, ih (Nat.le_of_succ_le_succ hsteps), Buffer.append_append]

/-- What is neither a document nor an element is written at once. -/
theorem writeOne_at_once (hdocument : store.kind? id ≠ some .document)
    (helement : store.kind? id ≠ some .element) (inner : Bytes) :
    store.writeOne (.node id) = (store.markupAround id inner, []) := by
  cases hnode : store.get? id with
  | none =>
      have hkind : store.kind? id = none := by rw [kind?, hnode]; rfl
      simp [writeOne, markupAround, hnode, hkind]
  | some node =>
      obtain ⟨parent, next, data⟩ := node
      have hkind : store.kind? id = some (Node.mk parent next data).kind := by
        rw [kind?, hnode]; rfl
      match data with
      | .document _ => exact absurd hkind hdocument
      | .element _ _ _ => exact absurd hkind helement
      | .attribute name value =>
          simp [writeOne, markupAround, hnode, hkind, Node.kind, renderPair, stringOf, name?,
            nameId?, value?, Node.name?, Node.value?]
      | .leaf kind content =>
          rw [markupAround_of_leaf hkind]
          simp [writeOne, hnode, stringOf, content?, Node.content?]

theorem writeOne_of_document (hkind : store.kind? id = some .document) :
    store.writeOne (.node id) = ([], (store.children id).map .node) := by
  obtain ⟨⟨parent, next, data⟩, hnode, hdata⟩ := Option.map_eq_some_iff.mp hkind
  match data with
  | .document _ => simp [writeOne, hnode]
  | .element _ _ _ => cases hdata
  | .attribute _ _ => cases hdata
  | .leaf _ _ => cases hdata

theorem renderOpening_eq (store : Store) (id : NodeId) (name : StrId) :
    store.renderOpening id name = [Byte.less] ++ store.stringOf name ++
      Tree.renderAttributes (store.attributePairs id) ++ [Byte.greater] := by
  have hpair : (fun pair : Bytes × Bytes => Byte.blank :: renderPair pair) = fun pair =>
      [Byte.blank] ++ pair.1 ++ [Byte.equals, Byte.doubleQuote] ++ pair.2 ++
        [Byte.doubleQuote] := by
    funext pair
    simp [renderPair]
  rw [renderOpening, hpair]
  rfl

/-- Of an element, the tag is written, and its children and its end are left to be written. -/
theorem writeOne_of_element (hkind : store.kind? id = some .element) :
    store.writeOne (.node id) =
      ([Byte.less] ++ (store.name? id).getD [] ++ Tree.renderAttributes (store.attributePairs id) ++
          [Byte.greater],
        (store.children id).map .node ++ [.closing id]) := by
  obtain ⟨⟨parent, next, data⟩, hnode, hdata⟩ := Option.map_eq_some_iff.mp hkind
  match data with
  | .element string _ _ =>
      have hname : (store.name? id).getD [] = store.stringOf string := by
        simp [name?, nameId?, hnode, Node.name?, stringOf]
      simp only [writeOne, hnode, Option.map_some]
      rw [renderOpening_eq, hname]
  | .document _ => cases hdata
  | .attribute _ _ => cases hdata
  | .leaf _ _ => cases hdata

/-- Nodes on the stack are written with all that lies below them, before what is pending under them.
Each node takes one step, and an element one more for its closing tag. -/
theorem writes_of_preorder (hmarkup : store.IsMarkup markup) {ids listing : List NodeId}
    (hlisting : store.table.Preorder ids listing) {steps : Nat} {pending : List Pending}
    {later : Bytes} (hpending : store.Writes steps pending later) :
    ∃ more, more ≤ 2 * listing.length ∧
      store.Writes (more + steps) (ids.map .node ++ pending) (ids.flatMap markup ++ later) := by
  induction hlisting generalizing steps pending later with
  | nil => exact ⟨0, Nat.le_refl _, by simpa using hpending⟩
  | @cons id rest inner behind _ _ ihInner ihRest =>
      obtain ⟨after, hafter, hrest⟩ := ihRest hpending
      rw [List.map_cons, List.cons_append, List.flatMap_cons, List.append_assoc, hmarkup id]
      by_cases hdocument : store.kind? id = some .document
      · obtain ⟨within, hwithin, hinner⟩ := ihInner hrest
        refine ⟨within + after + 1, ?_, ?_⟩
        · simp only [List.length_cons, List.length_append]
          omega
        · have hall := Writes.step (writeOne_of_document hdocument) hinner
          rw [show within + after + 1 + steps = within + (after + steps) + 1 by omega, markupAround,
            hdocument]
          exact hall
      by_cases helement : store.kind? id = some .element
      · -- the closing tag stays on the stack while the children are written
        have hclosing : store.Writes (after + steps + 1)
            (.closing id :: (rest.map .node ++ pending))
            (store.renderClosing id ++ (rest.flatMap markup ++ later)) := .step rfl hrest
        obtain ⟨within, hwithin, hinner⟩ := ihInner hclosing
        rw [List.append_cons] at hinner
        have hall := Writes.step (writeOne_of_element helement) hinner
        refine ⟨within + after + 2, ?_, ?_⟩
        · simp only [List.length_cons, List.length_append]
          omega
        · rw [show within + after + 2 + steps = within + (after + steps + 1) + 1 by omega,
            markupAround, helement]
          simpa only [children, renderClosing, List.append_assoc] using hall
      · refine ⟨after + 1, ?_, ?_⟩
        · simp only [List.length_cons, List.length_append]
          omega
        · rw [Nat.add_right_comm]
          exact .step (writeOne_at_once hdocument helement _) hrest

/-- A node is written in no more steps than its loop is given. -/
theorem Sound.exists_writes (hstore : store.Sound) (hmarkup : store.IsMarkup markup)
    (id : NodeId) :
    ∃ steps, steps ≤ 2 * store.nodeCount + 1 ∧ store.Writes steps [.node id] (markup id) := by
  have hwf := hstore.wellFormed
  cases hkind : store.kind? id with
  | none =>
      have hone : store.writeOne (.node id) = (markup id, []) := by
        rw [hmarkup id]
        exact writeOne_at_once (by simp [hkind]) (by simp [hkind]) _
      have hall := Writes.step hone .done
      rw [List.append_nil] at hall
      exact ⟨1, Nat.le_add_left _ _, hall⟩
  | some kind =>
      obtain ⟨listing, hlisting⟩ := hwf.exists_preorder [id]
      obtain ⟨steps, hsteps, hwrites⟩ := writes_of_preorder hmarkup hlisting .done
      have hlength : listing.length ≤ store.nodeCount := by
        refine hwf.length_preorder_le hlisting (List.pairwise_singleton _ _) fun x hx => ?_
        rw [List.mem_singleton.mp hx, NodeTable.contains_eq_kind?]
        exact Option.isSome_iff_exists.mpr ⟨kind, hkind⟩
      exact ⟨steps, by omega, by simpa using hwrites⟩

/-- The loop that writes a node comes to an end, and it writes behind what is written already, which
stays as it is, the markup of the node.  The markup of all nodes is what the recursive definition
says, and this definition has one solution only. -/
theorem Reachable.write_markup (hstore : store.Reachable) :
    ∃ markup, store.IsMarkup markup ∧ (∀ other, store.IsMarkup other → other = markup) ∧
      ∀ (id : NodeId) (written : Buffer),
        (∃ steps, store.Writes steps [.node id] (markup id)) ∧
          store.write id written = written ++ markup id := by
  have hsound := hstore.sound
  obtain ⟨markup, hmarkup⟩ := hsound.exists_isMarkup
  refine ⟨markup, hmarkup, fun other hother => hmarkup.unique hsound hother, fun id written => ?_⟩
  obtain ⟨steps, hsteps, hwrites⟩ := hsound.exists_writes hmarkup id
  exact ⟨⟨steps, hwrites⟩, hwrites.writeAll_eq hsteps written⟩

/-- A detached element `<a k="v"><b></b>x</a>` is written behind an exclamation mark. -/
theorem Reachable.write_markup_detached :
    ∃ store : Store, store.Reachable ∧ store.parent? 2 = none ∧
      ∃ markup, store.IsMarkup markup ∧ (∃ steps, store.Writes steps [.node 2] (markup 2)) ∧
        (#[0x21] : Buffer) ++ markup 2 = #[0x21, 0x3c, 0x61, 0x20, 0x6b, 0x3d, 0x22, 0x76, 0x22, 0x3e,
          0x3c, 0x62, 0x3e, 0x3c, 0x2f, 0x62, 0x3e, 0x78, 0x3c, 0x2f, 0x61, 0x3e] := by
  obtain ⟨store, hcommit, hparent, hwrite⟩ :
      ∃ store : Store, (Store.empty {}).commit
        [.create (.element [0x61]), .create (.element [0x62]), .create (.leaf .text [0x78]),
          .insert .last (.created 0) (.created 2), .insert .first (.created 0) (.created 1),
          .setAttribute (.created 0) [0x6b] [0x76]] = .ok store ∧
        store.parent? 2 = none ∧
        store.write 2 #[0x21] = #[0x21, 0x3c, 0x61, 0x20, 0x6b, 0x3d, 0x22, 0x76, 0x22, 0x3e, 0x3c,
          0x62, 0x3e, 0x3c, 0x2f, 0x62, 0x3e, 0x78, 0x3c, 0x2f, 0x61, 0x3e] :=
    ⟨_, by cbv, by decide, by decide⟩
  have hstore : store.Reachable := .commit _ (.empty {}) hcommit
  obtain ⟨markup, hmarkup, -, hwritten⟩ := hstore.write_markup
  obtain ⟨hsteps, heq⟩ := hwritten 2 #[0x21]
  exact ⟨store, hstore, hparent, markup, hmarkup, hsteps, heq.symm.trans hwrite⟩

end Store

end VersionedXml
