import VersionedXml.Proofs.Tree.Readable

/-!
# Reading trees back

Scanning the markup of readable trees emits entities from which the same trees grow, with adjacent
texts joined.  The induction is on the trees.  Between two trees the scanner is in character data,
and the text in progress is carried along: it is complete only where the next markup begins.
-/

namespace VersionedXml

open ScanState VersionedXml.Tree

variable {maxAttributes : Nat} {input : Buffer}

theorem textEntity_of_cons (start : Nat) (b : UInt8) (rest : Bytes) :
    textEntity start (start + (b :: rest).length) =
      [⟨.text, ⟨start, start + (b :: rest).length⟩⟩] :=
  if_pos (Nat.lt_add_of_pos_right (Nat.succ_pos _))

theorem foldl_textEntity {before pending tail : Bytes}
    (hinput : input.toList = before ++ (pending ++ tail)) (growth : Growth) :
    (textEntity before.length (before.length + pending.length)).foldl (Growth.add input .preserve)
      growth = growth.putAll (flush pending) := by
  cases pending with
  | nil => simp [textEntity, flush, Growth.putAll]
  | cons b pending =>
      have hslice := Span.slice_eq_of_append hinput rfl rfl
      rw [textEntity_of_cons]
      simp only [List.foldl_cons, List.foldl_nil, Growth.add, hslice]
      rfl

theorem totalLength_textEntity {before pending tail : Bytes}
    (hinput : input.toList = before ++ (pending ++ tail)) :
    Entity.totalLength input .preserve
      (textEntity before.length (before.length + pending.length)) = pending.length := by
  cases pending with
  | nil => simp [textEntity, Entity.totalLength]
  | cons b pending =>
      have hslice := Span.slice_eq_of_append hinput rfl rfl
      rw [textEntity_of_cons]
      simp only [Entity.totalLength, Entity.texts, hslice, List.flatMap_cons, List.flatMap_nil]
      simp [Outline.isDropped]

/-- Markup completes the text before it and adds an entity of its own. -/
theorem foldl_markup {before pending tail : Bytes}
    (hinput : input.toList = before ++ (pending ++ tail)) (entity : Entity) (growth : Growth) :
    (textEntity before.length (before.length + pending.length) ++ [entity]).foldl
      (Growth.add input .preserve) growth =
        (growth.putAll (flush pending)).add input .preserve entity := by
  rw [List.foldl_append, foldl_textEntity hinput]
  rfl

theorem totalLength_markup {before pending tail : Bytes}
    (hinput : input.toList = before ++ (pending ++ tail)) (entity : Entity) :
    Entity.totalLength input .preserve
      (textEntity before.length (before.length + pending.length) ++ [entity]) =
        pending.length + ((entity.texts input .preserve).map List.length).sum := by
  rw [Entity.totalLength_append, totalLength_textEntity hinput]
  simp [Entity.totalLength]

/-- The scanner goes from one text in progress to another one.  What it emits makes the trees grow,
and the bytes of the strings are accounted for. -/
structure Reads (maxAttributes : Nat) (input : Buffer) (before pending rest : Bytes)
    (merged : List Tree) (weight : Nat) (entities : List Entity)
    (before' pending' rest' : Bytes) : Prop where
  input_eq : input.toList = before' ++ (pending' ++ rest')
  leads : Leads maxAttributes ⟨.text before.length, ⟨before.length + pending.length, rest⟩⟩ entities
    ⟨.text before'.length, ⟨before'.length + pending'.length, rest'⟩⟩
  grows : ∀ growth : Growth,
    (entities.foldl (Growth.add input .preserve) growth).putAll (flush pending') =
      growth.putAll merged
  weighs : Entity.totalLength input .preserve entities + pending'.length =
    pending.length + weight

/-- A text is read back with what comes before it if what follows it is. -/
theorem reads_text {content before pending last behind before' pending' : Bytes} {rest : List Tree}
    {entities : List Entity} (hless : Byte.less ∉ content)
    (hreads : Reads maxAttributes input before (pending ++ content) behind
      (mergeAll (pending ++ content) rest) (weightAll rest) entities before' pending' last) :
    Reads maxAttributes input before pending (content ++ behind)
      (mergeAll pending (.leaf .text content :: rest)) (weightAll (.leaf .text content :: rest))
      entities before' pending' last := by
  have hleads := hreads.leads
  rw [List.length_append, ← Nat.add_assoc] at hleads
  refine ⟨hreads.input_eq, (leads_text hless _ _ _).silent_trans hleads, fun growth => ?_, ?_⟩
  · rw [hreads.grows, mergeAll]
  · rw [hreads.weighs, List.length_append, weightAll, weight, Nat.add_assoc]

/-- An enclosed section is read back if what follows it is. -/
theorem reads_enclosed {kind : Enclosure} {content : Bytes} {rest : List Tree}
    (hending : ¬ kind.ending <:+: content)
    {before pending behind last before' pending' : Bytes} {entities : List Entity}
    (hinput : input.toList =
      before ++ (pending ++ (kind.opening ++ (content ++ (kind.ending ++ behind)))))
    (hreads : Reads maxAttributes input
      (before ++ (pending ++ (kind.opening ++ (content ++ kind.ending)))) [] behind
      (mergeAll [] rest) (weightAll rest) entities before' pending' last) :
    ∃ entities, Reads maxAttributes input before pending
      (kind.opening ++ (content ++ (kind.ending ++ behind)))
      (mergeAll pending (.leaf (.enclosed kind) content :: rest))
      (weightAll (.leaf (.enclosed kind) content :: rest)) entities before' pending' last := by
  have hfirst : Leads maxAttributes _ _ _ := leads_enclosed kind hending before.length
    (before.length + pending.length) behind
  have hslice : (⟨before.length + pending.length + kind.opening.length,
      before.length + pending.length + kind.opening.length + content.length⟩ : Span).slice
        input = content := by
    have hinside : input.toList = (before ++ pending ++ kind.opening) ++
        (content ++ (kind.ending ++ behind)) := by
      rw [hinput]
      simp
    exact Span.slice_eq_of_append hinside (by simp; omega) (by simp; omega)
  have hleads := hreads.leads
  simp only [List.length_append, List.length_nil, Nat.add_zero, ← Nat.add_assoc] at hleads
  refine ⟨_, hreads.input_eq, hfirst.trans hleads, fun growth => ?_, ?_⟩
  · rw [List.foldl_append, foldl_markup hinput, hreads.grows, mergeAll, Growth.putAll_append]
    simp only [Growth.add, hslice]
    rfl
  · rw [Entity.totalLength_append, totalLength_markup hinput, Nat.add_assoc, hreads.weighs]
    simp only [Entity.texts, hslice, weightAll, weight, List.map_cons, List.map_nil,
      List.sum_cons, List.sum_nil, List.length_nil]
    omega

/-- An element is read back if its children and what follows it are. -/
theorem reads_element {name : Bytes} {pairs : List (Bytes × Bytes)} {children rest : List Tree}
    (hname : name.IsTagName) (hlast : pairs = [] → name.getLast? ≠ some Byte.slash)
    (hpairs : ∀ pair ∈ pairs, pair.1.IsAttributeName ∧ Byte.doubleQuote ∉ pair.2)
    (hnodup : (pairs.map Prod.fst).Nodup) (hroom : pairs.length ≤ maxAttributes)
    {before pending behind last beforeClose pendingClose before' pending' : Bytes}
    {inner entities : List Entity}
    (hinput : input.toList = before ++ (pending ++ (openingTag name pairs ++
      (renderAll children ++ (closingTag name ++ behind)))))
    (hinner : Reads maxAttributes input (before ++ (pending ++ openingTag name pairs)) []
      (renderAll children ++ (closingTag name ++ behind)) (mergeAll [] children)
      (weightAll children) inner beforeClose pendingClose (closingTag name ++ behind))
    (houter : Reads maxAttributes input (beforeClose ++ (pendingClose ++ closingTag name)) [] behind
      (mergeAll [] rest) (weightAll rest) entities before' pending' last) :
    ∃ entities, Reads maxAttributes input before pending
      (openingTag name pairs ++ (renderAll children ++ (closingTag name ++ behind)))
      (mergeAll pending (.element name pairs children :: rest))
      (weightAll (.element name pairs children :: rest)) entities before' pending' last := by
  have hopened : Leads maxAttributes _ _ _ := leads_opening hname hlast hpairs hroom before.length
    (before.length + pending.length) (renderAll children ++ (closingTag name ++ behind))
  obtain ⟨span, hclosed⟩ : ∃ span, Leads maxAttributes _ _ _ := leads_closing hname
    beforeClose.length (beforeClose.length + pendingClose.length) behind
  have hnameSlice : (⟨before.length + pending.length + 1,
      before.length + pending.length + 1 + name.length⟩ : Span).slice input = name := by
    have hinside : input.toList = (before ++ pending ++ [Byte.less]) ++
        (name ++ ((renderAttributes pairs ++ [Byte.greater]) ++
          (renderAll children ++ (closingTag name ++ behind)))) := by
      rw [hinput]
      simp [openingTag]
    exact Span.slice_eq_of_append hinside (by simp; omega) (by simp; omega)
  have hpairSlices : ((placePairs (before.length + pending.length + 1 + name.length) pairs).map
      fun pair => (pair.name.slice input, pair.value.slice input)) = pairs := by
    have hinside : input.toList = (before ++ pending ++ [Byte.less] ++ name) ++
        renderAttributes pairs ++ ([Byte.greater] ++
          (renderAll children ++ (closingTag name ++ behind))) := by
      rw [hinput]
      simp [openingTag]
    exact slice_placePairs hinside (by simp; omega)
  have hinnerLeads := hinner.leads
  have houterLeads := houter.leads
  simp only [List.length_append, List.length_nil, Nat.add_zero, ← Nat.add_assoc]
    at hinnerLeads houterLeads
  refine ⟨_, houter.input_eq,
    hopened.trans (hinnerLeads.trans (hclosed.trans houterLeads)), fun growth => ?_, ?_⟩
  · rw [List.foldl_append, foldl_markup hinput, List.foldl_append, List.foldl_append,
      foldl_markup hinner.input_eq, hinner.grows, houter.grows, mergeAll, Growth.putAll_append]
    simp only [Growth.add, hnameSlice, hpairSlices]
    rw [Growth.closeElement_putAll, collectPairs_of_nodup hnodup]
    rfl
  · have hinnerWeight := hinner.weighs
    have houterWeight := houter.weighs
    rw [Entity.totalLength_append, totalLength_markup hinput, Entity.totalLength_append,
      Entity.totalLength_append, totalLength_markup hinner.input_eq, weightAll, weight]
    rw [Entity.length_texts_opened, hnameSlice, hpairSlices]
    simp only [Entity.texts, List.map_nil, List.sum_nil, List.length_nil] at hinnerWeight houterWeight ⊢
    omega

/-- Readable trees are read back. -/
theorem reads_renderAll {forest : List Tree} (hreadable : Readable maxAttributes forest)
    {before pending tail : Bytes}
    (hinput : input.toList = before ++ (pending ++ (renderAll forest ++ tail))) :
    ∃ entities before' pending', Reads maxAttributes input before pending (renderAll forest ++ tail)
      (mergeAll pending forest) (weightAll forest) entities before' pending' tail := by
  induction hreadable generalizing before pending tail with
  | nil =>
      refine ⟨[], before, pending, hinput, Leads.refl _, fun growth => ?_, Nat.zero_add _⟩
      rw [mergeAll]
      rfl
  | @text content rest hless hrest ih =>
      have hbytes : renderAll (.leaf .text content :: rest) ++ tail =
          content ++ (renderAll rest ++ tail) := by
        simp [renderAll, render, LeafKind.opening, LeafKind.ending]
      rw [hbytes] at hinput ⊢
      obtain ⟨entities, before', pending', hreads⟩ :=
        @ih before (pending ++ content) tail (by rw [hinput, List.append_assoc])
      exact ⟨entities, before', pending', reads_text hless hreads⟩
  | @enclosed kind content rest hending hrest ih =>
      have hbytes : renderAll (.leaf (.enclosed kind) content :: rest) ++ tail =
          kind.opening ++ (content ++ (kind.ending ++ (renderAll rest ++ tail))) := by
        simp [renderAll, render, LeafKind.opening, LeafKind.ending]
      rw [hbytes] at hinput ⊢
      obtain ⟨others, before', pending', hothers⟩ :=
        @ih (before ++ (pending ++ (kind.opening ++ (content ++ kind.ending)))) [] tail
          (by rw [hinput]; simp)
      obtain ⟨entities, hreads⟩ := reads_enclosed hending hinput hothers
      exact ⟨entities, before', pending', hreads⟩
  | @element name pairs children rest hname hlast hpairs hnodup hroom hchildren hrest ihChildren
      ihRest =>
      have hbytes : renderAll (.element name pairs children :: rest) ++ tail =
          openingTag name pairs ++ (renderAll children ++ (closingTag name ++
            (renderAll rest ++ tail))) := by
        simp [renderAll, render, openingTag, closingTag]
      rw [hbytes] at hinput ⊢
      obtain ⟨inner, beforeClose, pendingClose, hinner⟩ := @ihChildren
        (before ++ (pending ++ openingTag name pairs)) [] (closingTag name ++ (renderAll rest ++ tail))
        (by rw [hinput]; simp)
      obtain ⟨outer, before', pending', houter⟩ := @ihRest
        (beforeClose ++ (pendingClose ++ closingTag name)) [] tail (by rw [hinner.input_eq]; simp)
      obtain ⟨entities, hreads⟩ :=
        reads_element hname hlast hpairs hnodup hroom hinput hinner houter
      exact ⟨entities, before', pending', hreads⟩

/-- Scanning the markup of readable trees emits entities that mean these trees. -/
theorem scan_renderAll {forest : List Tree} (hreadable : Readable maxAttributes forest)
    (hinput : input.toList = renderAll forest) :
    ∃ entities, scan maxAttributes input = ⟨entities, none⟩ ∧
      Tree.ofEntities input .preserve entities = mergeAll [] forest ∧
      Entity.totalLength input .preserve entities = weightAll forest := by
  have hwhole : input.toList = [] ++ ([] ++ (renderAll forest ++ [])) := by simp [hinput]
  obtain ⟨entities, before, pending, hreads⟩ := reads_renderAll hreadable hwhole
  refine ⟨entities ++ textEntity before.length (before.length + pending.length), ?_, ?_, ?_⟩
  · have hend : ∀ emitted, (⟨.text before.length, ⟨before.length + pending.length, []⟩⟩ :
        ScanState).run maxAttributes emitted =
          ⟨emitted.toList ++ textEntity before.length (before.length + pending.length), none⟩ :=
      fun emitted => run_of_rest_eq_nil rfl emitted
    have hleads := (hreads.leads #[]).trans (hend _)
    rw [scan, ScanState.start, Cursor.start, hinput]
    simpa using hleads
  · rw [Tree.ofEntities, List.foldl_append, foldl_textEntity hreads.input_eq, hreads.grows,
      Growth.trees_putAll_empty]
  · have hweight := hreads.weighs
    rw [Entity.totalLength_append, totalLength_textEntity hreads.input_eq, hweight]
    simp

end VersionedXml
