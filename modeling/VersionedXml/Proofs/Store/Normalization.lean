import VersionedXml.Proofs.Store.RoundTrip
import VersionedXml.Proofs.Tree.Formed

/-!
# Normal forms

Rendering a parsed document gives its normal form.  The normal form of a normal form is the same
again, provided that the document can be quoted: the renderer puts every value in double quotes and
escapes nothing, so a value with a double quote ends too early when it is read again, and a `/` at
the end of a name is taken for the end of the tag.
-/

namespace VersionedXml.Store

open VersionedXml.Tree

/-- A parsed store holds the trees of the scanned entities. -/
theorem holds_of_parse {options : Options} {input : Buffer} {store : Store}
    (hsize : input.size < 2 ^ 32) (hparse : parse options input = .ok store) :
    ∃ entities, scan options.limits.maxAttributes input = ⟨entities, none⟩ ∧
      store.Holds (Tree.ofEntities input options.whitespace entities) ∧
      nodeCountAll (Tree.ofEntities input options.whitespace entities) + 1 ≤
        max 1 options.limits.maxNodes := by
  cases hscan : scan options.limits.maxAttributes input with
  | mk entities failure =>
      cases failure with
      | some failure =>
          rw [parse, hscan] at hparse
          cases hparse
      | none =>
          obtain ⟨-, hlength, -⟩ := formed_ofEntities hscan options.whitespace
          rcases parse_of_scan options hscan (Nat.lt_of_le_of_lt hlength hsize) with
            ⟨hfits, found, hfound, hholds⟩ | ⟨-, herror⟩
          · cases hparse.symm.trans hfound
            exact ⟨entities, rfl, hholds, hfits⟩
          · rw [herror] at hparse
            cases hparse

/-- An input that has been scanned makes a store if there is room for its trees. -/
theorem parse_eq_ok_of_scan {options : Options} {input : Buffer} {entities : List Entity}
    (hscan : scan options.limits.maxAttributes input = ⟨entities, none⟩)
    (hsize : input.size < 2 ^ 32)
    (hfits : nodeCountAll (Tree.ofEntities input options.whitespace entities) + 1 ≤
      options.limits.maxNodes) :
    ∃ store, parse options input = .ok store ∧
      store.Holds (Tree.ofEntities input options.whitespace entities) := by
  obtain ⟨-, hlength, -⟩ := formed_ofEntities hscan options.whitespace
  rcases parse_of_scan options hscan (Nat.lt_of_le_of_lt hlength hsize) with
    ⟨-, store, hok, hholds⟩ | ⟨hfull, -⟩
  · exact ⟨store, hok, hholds⟩
  · exact absurd (Nat.le_trans hfits (Nat.le_max_right _ _)) hfull

/-- The normal form of a document that can be quoted is its own normal form. -/
theorem parse_render_of_quotable {limits : Limits} {input : Buffer} {store : Store}
    (hsize : input.size < 2 ^ 32) (hparse : parse ⟨.preserve, limits⟩ input = .ok store)
    (hquotable : ∀ tree ∈ store.trees rootId, tree.Quotable) :
    ∃ again, parse ⟨.preserve, limits⟩ store.render = .ok again ∧ again.render = store.render ∧
      again.trees rootId = mergeAll [] (store.trees rootId) := by
  obtain ⟨entities, hscan, hholds, hfits⟩ := holds_of_parse hsize hparse
  obtain ⟨hformed, hlength, hweight⟩ := formed_ofEntities hscan .preserve
  generalize Tree.ofEntities input .preserve entities = forest at hholds hfits hformed hweight
  rw [hholds.trees] at hquotable ⊢
  have hrender : store.render.toList = renderAll forest := by rw [hholds.render]
  obtain ⟨others, hagain, htrees, htotal⟩ :=
    scan_renderAll (readable_of_formed hformed hquotable) hrender
  have hsmall : Entity.totalLength store.render .preserve others < UInt32.size := by
    rw [htotal]
    exact Nat.lt_of_le_of_lt (Nat.le_trans hweight hlength) hsize
  rcases parse_of_scan ⟨.preserve, limits⟩ hagain hsmall with
    ⟨-, again, hok, hheld⟩ | ⟨hfull, -⟩
  · rw [htrees] at hheld
    refine ⟨again, hok, ?_, hheld.trees⟩
    rw [hheld.render, renderAll_mergeAll, List.nil_append, hholds.render]
  · have hmerged := nodeCountAll_mergeAll_le [] forest
    have hnone : nodeCountAll (flush []) = 0 := rfl
    rw [htrees] at hfull
    dsimp only at hfits hfull
    omega

/-- The input `<a k='v' f/>t</b>u`, whose normal form is `<a k="v" f=""></a>tu`. -/
def untidy : Buffer :=
  #[0x3c, 0x61, 0x20, 0x6b, 0x3d, 0x27, 0x76, 0x27, 0x20, 0x66, 0x2f, 0x3e, 0x74, 0x3c, 0x2f, 0x62,
    0x3e, 0x75]

theorem parse_render_untidy :
    ∃ store again, parse {} untidy = .ok store ∧ store.render ≠ untidy ∧
      parse {} store.render = .ok again ∧ again.render = store.render := by
  obtain ⟨entities, hscan, htrees⟩ : ∃ entities, scan 4096 untidy = ⟨entities, none⟩ ∧
      Tree.ofEntities untidy .preserve entities =
        [.element [0x61] [([0x6b], [0x76]), ([0x66], [])] [], .leaf .text [0x74],
          .leaf .text [0x75]] :=
    ⟨_, by cbv, by cbv⟩
  obtain ⟨store, hparse, hholds⟩ : ∃ store, parse {} untidy = .ok store ∧
      store.Holds (Tree.ofEntities untidy .preserve entities) :=
    parse_eq_ok_of_scan hscan (by decide) (by rw [htrees]; decide)
  rw [htrees] at hholds
  have hquotable : ∀ tree ∈ store.trees rootId, tree.Quotable := by
    rw [hholds.trees]
    intro tree htree
    rcases List.mem_cons.mp htree with rfl | hrest
    · exact .element (by decide) (by decide) fun _ hchild => absurd hchild List.not_mem_nil
    · rcases List.mem_cons.mp hrest with rfl | hlast
      · exact .leaf _ _
      · cases List.mem_singleton.mp hlast
        exact .leaf _ _
  obtain ⟨again, hagain, hrender, -⟩ := parse_render_of_quotable (by decide) hparse hquotable
  refine ⟨store, again, hparse, ?_, hagain, hrender⟩
  rw [hholds.render]
  decide

/-- An input whose normal form is not read as it was meant has an unstable normal form. -/
theorem exists_unstable_of_scans {input : Buffer} {first second : List Entity} {normal : Bytes}
    (hfirst : scan 4096 input = ⟨first, none⟩)
    (hnormal : renderAll (Tree.ofEntities input .preserve first) = normal)
    (hsecond : scan 4096 normal.toArray = ⟨second, none⟩)
    (hsize : input.size < 2 ^ 32 ∧ normal.length < 2 ^ 32)
    (hfits : nodeCountAll (Tree.ofEntities input .preserve first) + 1 ≤ nodeCeiling ∧
      nodeCountAll (Tree.ofEntities normal.toArray .preserve second) + 1 ≤ nodeCeiling)
    (hother : renderAll (Tree.ofEntities normal.toArray .preserve second) ≠ normal) :
    ∃ store again, parse {} input = .ok store ∧ parse {} store.render = .ok again ∧
      again.render ≠ store.render := by
  obtain ⟨store, hstore, hholds⟩ : ∃ store, parse {} input = .ok store ∧ _ :=
    parse_eq_ok_of_scan hfirst hsize.1 hfits.1
  obtain ⟨again, hagain, hheld⟩ : ∃ again, parse {} normal.toArray = .ok again ∧ _ :=
    parse_eq_ok_of_scan hsecond hsize.2 hfits.2
  have hrender : store.render = normal.toArray :=
    hholds.render.trans (congrArg List.toArray hnormal)
  refine ⟨store, again, hstore, hrender ▸ hagain, fun hsame => hother ?_⟩
  exact congrArg Array.toList (hheld.render.symm.trans (hsame.trans hrender))

/-- The input `<a k='x"y'/>`. -/
def quotedQuote : Buffer :=
  #[0x3c, 0x61, 0x20, 0x6b, 0x3d, 0x27, 0x78, 0x22, 0x79, 0x27, 0x2f, 0x3e]

/-- The input `<a/ >`. -/
def slashedName : Buffer := #[0x3c, 0x61, 0x2f, 0x20, 0x3e]

/-- Documents that cannot be quoted have normal forms that are not their own normal forms.  From
`<a k="x"y"></a>` comes `<a k="x" y"=""></a>`, and from `<a/></a/>` comes `<a></a>`. -/
theorem render_unstable :
    (∃ store again, parse {} quotedQuote = .ok store ∧ parse {} store.render = .ok again ∧
      again.render ≠ store.render) ∧
    ∃ store again, parse {} slashedName = .ok store ∧ parse {} store.render = .ok again ∧
      again.render ≠ store.render := by
  constructor
  · exact exists_unstable_of_scans (by cbv) (by cbv) (by cbv) (by decide) (by decide) (by decide)
  · exact exists_unstable_of_scans (by cbv) (by cbv) (by cbv) (by decide) (by decide) (by decide)

end VersionedXml.Store
