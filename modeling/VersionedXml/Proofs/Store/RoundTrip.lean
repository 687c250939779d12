import VersionedXml.Proofs.Entity.Readback
import VersionedXml.Proofs.Store.Building

/-!
# Round trips

A canonical document is written as it will be read: its names hold none of the bytes that end a
name, its values hold no double quote, and no two texts stand side by side.  Parsing the markup of a
canonical document makes a store that holds the document, and rendering the store gives the markup
back.
-/

namespace VersionedXml

namespace Bytes

structure IsCanonicalTag (name : Bytes) : Prop where
  ne_nil : name ≠ []
  bytes : ∀ b ∈ name, Byte.isSpace b = false ∧ b ≠ Byte.greater ∧ b ≠ Byte.slash
  /-- The name does not begin with `!--`, `?` or `![CDATA[`. -/
  opening : ∀ kind : Enclosure, ¬ kind.opening.tail <+: name

structure IsCanonicalAttribute (name : Bytes) : Prop where
  ne_nil : name ≠ []
  bytes : ∀ b ∈ name,
    Byte.isSpace b = false ∧ b ≠ Byte.greater ∧ b ≠ Byte.slash ∧ b ≠ Byte.equals

theorem isNameByte_of_ne {b : UInt8} (hspace : Byte.isSpace b = false) (hgreater : b ≠ Byte.greater) :
    Byte.isNameByte b = true := by
  simp [Byte.isNameByte, hspace, hgreater]

theorem IsCanonicalTag.isTagName {name : Bytes} (hname : name.IsCanonicalTag) :
    name.IsTagName := by
  refine ⟨hname.ne_nil, ?_, ?_, ?_⟩
  · intro b hb
    exact isNameByte_of_ne (hname.bytes b hb).1 (hname.bytes b hb).2.1
  · intro hhead
    exact (hname.bytes _ (List.mem_of_head? hhead)).2.2 rfl
  · intro kind hbegins
    refine hname.opening kind ?_
    cases kind <;> exact (List.cons_prefix_cons.mp hbegins).2

theorem IsCanonicalAttribute.isAttributeName {name : Bytes} (hname : name.IsCanonicalAttribute) :
    name.IsAttributeName := by
  refine ⟨hname.ne_nil, ?_, ?_, ?_⟩
  · intro b hb
    exact isNameByte_of_ne (hname.bytes b hb).1 (hname.bytes b hb).2.1
  · intro hhead
    exact (hname.bytes _ (List.mem_of_head? hhead)).2.2.1 rfl
  · intro hequals
    exact (hname.bytes _ (List.mem_of_mem_tail hequals)).2.2.2 rfl

end Bytes

namespace Tree

def beginsWithText : List Tree → Bool
  | .leaf .text _ :: _ => true
  | _ => false

/-- The trees of a canonical document, whose elements have at most `maxAttributes` attributes. -/
inductive Canonical (maxAttributes : Nat) : List Tree → Prop where
  | nil : Canonical maxAttributes []
  | text {content : Bytes} {rest : List Tree} (hne : content ≠ []) (hless : Byte.less ∉ content)
      (hnext : beginsWithText rest = false) (hrest : Canonical maxAttributes rest) :
      Canonical maxAttributes (.leaf .text content :: rest)
  | enclosed {kind : Enclosure} {content : Bytes} {rest : List Tree}
      (hending : ¬ kind.ending <:+: content) (hrest : Canonical maxAttributes rest) :
      Canonical maxAttributes (.leaf (.enclosed kind) content :: rest)
  | element {name : Bytes} {pairs : List (Bytes × Bytes)} {children rest : List Tree}
      (hname : name.IsCanonicalTag)
      (hpairs : ∀ pair ∈ pairs, pair.1.IsCanonicalAttribute ∧ Byte.doubleQuote ∉ pair.2)
      (hnodup : (pairs.map Prod.fst).Nodup) (hroom : pairs.length ≤ maxAttributes)
      (hchildren : Canonical maxAttributes children) (hrest : Canonical maxAttributes rest) :
      Canonical maxAttributes (.element name pairs children :: rest)

variable {maxAttributes : Nat} {forest : List Tree}

theorem Canonical.readable (hcanonical : Canonical maxAttributes forest) :
    Readable maxAttributes forest := by
  induction hcanonical with
  | nil => exact .nil
  | text _ hless _ _ ih => exact .text hless ih
  | enclosed hending _ ih => exact .enclosed hending ih
  | element hname hpairs hnodup hroom _ _ ihChildren ihRest =>
      refine .element hname.isTagName ?_ ?_ hnodup hroom ihChildren ihRest
      · intro _ hlast
        exact (hname.bytes _ (List.mem_of_getLast? hlast)).2.2 rfl
      · intro pair hpair
        exact ⟨(hpairs pair hpair).1.isAttributeName, (hpairs pair hpair).2⟩

/-- In a canonical document there are no texts to join. -/
theorem Canonical.mergeAll_eq (hcanonical : Canonical maxAttributes forest) {pending : Bytes}
    (hnext : pending ≠ [] → beginsWithText forest = false) :
    mergeAll pending forest = flush pending ++ forest := by
  induction hcanonical generalizing pending with
  | nil => rw [mergeAll, List.append_nil]
  | @text content rest hne _ hafter _ ih =>
      have hpending : pending = [] := by
        by_contra hsome
        cases hnext hsome
      subst hpending
      rw [mergeAll, List.nil_append, ih fun _ => hafter]
      cases content with
      | nil => exact absurd rfl hne
      | cons b content => rfl
  | enclosed _ _ ih => rw [mergeAll, ih fun hne => absurd rfl hne]; rfl
  | element _ _ _ _ _ _ ihChildren ihRest =>
      rw [mergeAll, ihChildren fun hne => absurd rfl hne, ihRest fun hne => absurd rfl hne]
      rfl

end Tree

namespace Store

open VersionedXml.Tree

/-- A pool into which the strings of entities are interned takes no more bytes than these have. -/
theorem bytesUsed_internAll_texts_lt {input : Buffer} {whitespace : Whitespace}
    {entities : List Entity} (hsmall : Entity.totalLength input whitespace entities < UInt32.size) :
    (Pool.empty.internAll (entities.flatMap (Entity.texts input whitespace))).bytesUsed <
      UInt32.size := by
  refine Nat.lt_of_le_of_lt (Pool.bytesUsed_internAll_le _ _) ?_
  exact Nat.lt_of_le_of_lt (Nat.le_of_eq (Nat.zero_add _)) hsmall

/-- What a list of entities means is what the parsed store holds, unless there are too many
nodes. -/
theorem parse_of_scan (options : Options) {input : Buffer} {entities : List Entity}
    (hscan : scan options.limits.maxAttributes input = ⟨entities, none⟩)
    (hsmall : Entity.totalLength input options.whitespace entities < UInt32.size) :
    (nodeCountAll (Tree.ofEntities input options.whitespace entities) + 1 ≤
        max 1 options.limits.maxNodes ∧
      ∃ store, parse options input = .ok store ∧
        store.Holds (Tree.ofEntities input options.whitespace entities)) ∨
    (¬ nodeCountAll (Tree.ofEntities input options.whitespace entities) + 1 ≤
        max 1 options.limits.maxNodes ∧
      parse options input = .error (.store (.storeFull options.limits.maxNodes))) := by
  have hpool := bytesUsed_internAll_texts_lt hsmall
  have hresult : (scan options.limits.maxAttributes input).result = .ok entities := by
    rw [hscan]
    rfl
  rcases commit_outline options.limits input options.whitespace entities hpool with
    ⟨hfits, store, hok, hholds⟩ | ⟨hfull, herror⟩
  · refine .inl ⟨hfits, store, ?_, hholds⟩
    rw [parse, hresult]
    simp only [hok]
  · refine .inr ⟨hfull, ?_⟩
    rw [parse, hresult]
    simp only [herror]

/-- Parsing inverts rendering on canonical documents. -/
theorem parse_renderAll_of_canonical {limits : Limits} {forest : List Tree}
    (hcanonical : Canonical limits.maxAttributes forest)
    (hsize : (renderAll forest).length < 2 ^ 32)
    (hnodes : nodeCountAll forest + 1 ≤ limits.maxNodes) :
    ∃ store, parse ⟨.preserve, limits⟩ (renderAll forest).toArray = .ok store ∧
      store.trees rootId = forest ∧ store.render = (renderAll forest).toArray ∧
      store.nodeCount = nodeCountAll forest + 1 := by
  obtain ⟨entities, hscan, htrees, hweight⟩ :=
    scan_renderAll hcanonical.readable List.toList_toArray
  have hmerged : mergeAll [] forest = forest := hcanonical.mergeAll_eq fun hne => absurd rfl hne
  have hsmall : Entity.totalLength (renderAll forest).toArray .preserve entities < UInt32.size := by
    rw [hweight]
    exact Nat.lt_of_le_of_lt (weightAll_le_length_renderAll forest) hsize
  rw [hmerged] at htrees
  rcases parse_of_scan ⟨.preserve, limits⟩ hscan hsmall with
    ⟨-, store, hok, hholds⟩ | ⟨hfull, -⟩
  · rw [htrees] at hholds
    exact ⟨store, hok, hholds.trees, hholds.render, hholds.nodeCount⟩
  · rw [htrees] at hfull
    exact absurd (Nat.le_trans hnodes (Nat.le_max_right _ _)) hfull

/-- The document `<a k="v">t<!-----></a>`, whose comment holds a dash. -/
def dashedNote : List Tree :=
  [.element [0x61] [([0x6b], [0x76])] [.leaf .text [0x74], .leaf (.enclosed .comment) [0x2d]]]

theorem parse_dashedNote :
    ∃ store, parse {} (renderAll dashedNote).toArray = .ok store ∧
      store.trees rootId = dashedNote ∧ store.render = (renderAll dashedNote).toArray ∧
      store.nodeCount = 5 := by
  refine parse_renderAll_of_canonical ?_ (by decide) (by decide)
  refine .element ⟨by decide, List.forall_mem_singleton.mpr (by decide), ?_⟩ ?_ (by decide)
    (by decide) ?_ .nil
  · rintro (_ | _ | _) <;> decide
  · intro pair hpair
    cases List.mem_singleton.mp hpair
    exact ⟨⟨by decide, List.forall_mem_singleton.mpr (by decide)⟩, by decide⟩
  · exact .text (by decide) (by decide) rfl (.enclosed (by decide) .nil)

end Store

end VersionedXml
