import VersionedXml.Proofs.Entity.Markup

/-!
# Trees that can be read back

The markup of a tree can be read back if its names end where they should and its values hold no
double quote.  Texts that stand side by side come back as one, and empty texts do not come back.
-/

namespace VersionedXml.Tree

/-- Trees whose markup is read back as it was meant. -/
inductive Readable (maxAttributes : Nat) : List Tree → Prop where
  | nil : Readable maxAttributes []
  | text {content : Bytes} {rest : List Tree} (hless : Byte.less ∉ content)
      (hrest : Readable maxAttributes rest) : Readable maxAttributes (.leaf .text content :: rest)
  | enclosed {kind : Enclosure} {content : Bytes} {rest : List Tree}
      (hending : ¬ kind.ending <:+: content) (hrest : Readable maxAttributes rest) :
      Readable maxAttributes (.leaf (.enclosed kind) content :: rest)
  | element {name : Bytes} {pairs : List (Bytes × Bytes)} {children rest : List Tree}
      (hname : name.IsTagName) (hlast : pairs = [] → name.getLast? ≠ some Byte.slash)
      (hpairs : ∀ pair ∈ pairs, pair.1.IsAttributeName ∧ Byte.doubleQuote ∉ pair.2)
      (hnodup : (pairs.map Prod.fst).Nodup) (hroom : pairs.length ≤ maxAttributes)
      (hchildren : Readable maxAttributes children) (hrest : Readable maxAttributes rest) :
      Readable maxAttributes (.element name pairs children :: rest)

/-! ## Merging texts -/

def flush (pending : Bytes) : List Tree :=
  if pending.isEmpty then [] else [.leaf .text pending]

def mergeAll (pending : Bytes) : List Tree → List Tree
  | [] => flush pending
  | .leaf .text content :: rest => mergeAll (pending ++ content) rest
  | .leaf (.enclosed kind) content :: rest =>
      flush pending ++ (.leaf (.enclosed kind) content :: mergeAll [] rest)
  | .element name pairs children :: rest =>
      flush pending ++ (.element name pairs (mergeAll [] children) :: mergeAll [] rest)

theorem renderAll_flush (pending : Bytes) : renderAll (flush pending) = pending := by
  cases pending with
  | nil => rfl
  | cons b pending => simp [flush, renderAll, render, LeafKind.opening, LeafKind.ending]

theorem renderAll_mergeAll (pending : Bytes) (forest : List Tree) :
    renderAll (mergeAll pending forest) = pending ++ renderAll forest := by
  induction pending, forest using mergeAll.induct with
  | case1 pending => simp [mergeAll, renderAll_flush, renderAll]
  | case2 pending content rest ih =>
      rw [mergeAll, ih]
      simp [renderAll, render, LeafKind.opening, LeafKind.ending]
  | case3 pending kind content rest ih =>
      rw [mergeAll, renderAll_append, renderAll_flush, renderAll, ih, renderAll, List.nil_append]
  | case4 pending name pairs children rest ihChildren ihRest =>
      rw [mergeAll, renderAll_append, renderAll_flush, renderAll, ihRest, renderAll, render, render,
        ihChildren, List.nil_append, List.nil_append]

theorem nodeCountAll_flush_le (pending : Bytes) : nodeCountAll (flush pending) ≤ 1 := by
  cases pending with
  | nil => exact Nat.zero_le _
  | cons b pending => exact Nat.le_refl _

theorem nodeCountAll_mergeAll_le (pending : Bytes) (forest : List Tree) :
    nodeCountAll (mergeAll pending forest) ≤
      nodeCountAll (flush pending) + nodeCountAll forest := by
  induction pending, forest using mergeAll.induct with
  | case1 pending => simp [mergeAll, nodeCountAll]
  | case2 pending content rest ih =>
      have hflush := nodeCountAll_flush_le (pending ++ content)
      rw [mergeAll, nodeCountAll, nodeCount]
      omega
  | case3 pending kind content rest ih =>
      have hnone : nodeCountAll (flush []) = 0 := rfl
      rw [mergeAll, nodeCountAll_append, nodeCountAll, nodeCountAll, nodeCount]
      omega
  | case4 pending name pairs children rest ihChildren ihRest =>
      have hnone : nodeCountAll (flush []) = 0 := rfl
      rw [mergeAll, nodeCountAll_append, nodeCountAll, nodeCountAll, nodeCount, nodeCount]
      omega

/-! ## Bytes of strings -/

mutual

def weight : Tree → Nat
  | element name pairs children =>
      name.length + (pairs.map fun pair => pair.1.length + pair.2.length).sum + weightAll children
  | leaf _ content => content.length

def weightAll : List Tree → Nat
  | [] => 0
  | tree :: rest => weight tree + weightAll rest

end

theorem weightAll_append (left right : List Tree) :
    weightAll (left ++ right) = weightAll left + weightAll right := by
  induction left with
  | nil => simp [weightAll]
  | cons tree rest ih =>
      simp only [List.cons_append, weightAll, ih]
      omega

theorem sum_le_length_renderAttributes (pairs : List (Bytes × Bytes)) :
    (pairs.map fun pair => pair.1.length + pair.2.length).sum ≤ (renderAttributes pairs).length := by
  induction pairs with
  | nil => exact Nat.le_refl _
  | cons pair pairs ih =>
      obtain ⟨name, value⟩ := pair
      rw [ScanState.length_renderAttributes_cons, List.map_cons, List.sum_cons]
      dsimp only
      omega

mutual

theorem weight_le_length_render (tree : Tree) : tree.weight ≤ tree.render.length := by
  match tree with
  | .element name pairs children =>
      have hpairs := sum_le_length_renderAttributes pairs
      have hchildren := weightAll_le_length_renderAll children
      simp only [weight, render, List.length_append, List.length_cons]
      omega
  | .leaf kind content =>
      simp only [weight, render, List.length_append]
      omega

theorem weightAll_le_length_renderAll (forest : List Tree) :
    weightAll forest ≤ (renderAll forest).length := by
  match forest with
  | [] => exact Nat.zero_le _
  | tree :: rest =>
      have htree := weight_le_length_render tree
      have hrest := weightAll_le_length_renderAll rest
      simp only [weightAll, renderAll, List.length_append]
      omega

end

end VersionedXml.Tree
