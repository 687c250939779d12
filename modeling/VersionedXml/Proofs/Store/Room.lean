import VersionedXml.Proofs.Pool.Interning
import VersionedXml.Proofs.Store.Building

/-!
# The room that a document takes

How many nodes and how many bytes a document takes can be read off its entities.  Each distinct
string takes its bytes once.  Each element takes one node and one more for every distinct name among
its attributes, and each text that is kept and each enclosed piece takes one.  A document is built
from its entities, whatever these are, unless its nodes are too many.
-/

namespace VersionedXml

/-! ## Distinct strings -/

namespace Pool

theorem internAll_eq (pool : Pool) (texts : List Bytes) :
    pool.internAll texts = (pool.internEach Pool.digest texts).1 := by
  induction texts generalizing pool with
  | nil => rfl
  | cons text rest ih => exact ih (pool.intern text).1

/-- Strings that are interned into a new pool take the bytes of the distinct ones. -/
theorem bytesUsed_internAll_empty {texts : List Bytes}
    (hsmall : (texts.eraseDups.map List.length).sum < UInt32.size) :
    (Pool.empty.internAll texts).bytesUsed = (texts.eraseDups.map List.length).sum := by
  rw [← length_flatten_foldl_remember] at *
  rw [internAll_eq]
  exact ((empty_holds Pool.digest).internEach hsmall).length_flatten.symm

end Pool

def Entity.distinctLength (input : Buffer) (whitespace : Whitespace) (entities : List Entity) :
    Nat :=
  ((entities.flatMap (Entity.texts input whitespace)).eraseDups.map List.length).sum

namespace Store

/-- A document is built from any entities whatever: the store holds their trees and no other node,
unless there are some nodes and too many of them. -/
theorem commit_entities (limits : Limits) (input : Buffer) (whitespace : Whitespace)
    (entities : List Entity)
    (hsmall : Entity.distinctLength input whitespace entities < UInt32.size) :
    if 1 ≤ Entity.nodeCountAll input whitespace entities ∧
        limits.maxNodes < Entity.nodeCountAll input whitespace entities + 1 then
      (empty limits).commit (Outline.ofEntities input whitespace entities).batch.edits =
        .error (.storeFull limits.maxNodes)
    else
      ∃ store,
        (empty limits).commit (Outline.ofEntities input whitespace entities).batch.edits =
          .ok store ∧
        store.trees rootId = Tree.ofEntities input whitespace entities ∧
        store.nodeCount = Entity.nodeCountAll input whitespace entities + 1 := by
  have hpool : (Pool.empty.internAll
      (entities.flatMap (Entity.texts input whitespace))).bytesUsed < UInt32.size :=
    Nat.lt_of_le_of_lt (Nat.le_of_eq (Pool.bytesUsed_internAll_empty hsmall)) hsmall
  have hcount := Tree.nodeCountAll_ofEntities input whitespace entities
  rcases commit_outline limits input whitespace entities hpool with
    ⟨hfits, store, hok, hholds⟩ | ⟨hfull, herror⟩
  · rw [hcount] at hfits
    rw [if_neg (by omega)]
    exact ⟨store, hok, hholds.trees, hcount ▸ hholds.nodeCount⟩
  · rw [hcount] at hfull
    rw [if_pos (by omega)]
    exact herror

/-- Entities over `akvw `: a close without an element, an element `a` with `k` given twice, a text of
space only, an element without a name that is never closed, and a comment. -/
def straySpans : List Entity :=
  [⟨.closed ⟨0, 1⟩ false, ⟨0, 1⟩⟩,
    ⟨.opened ⟨0, 1⟩ [⟨⟨1, 2⟩, ⟨2, 3⟩⟩, ⟨⟨0, 1⟩, ⟨9, 20⟩⟩, ⟨⟨1, 2⟩, ⟨3, 4⟩⟩] false, ⟨0, 4⟩⟩,
    ⟨.text, ⟨4, 5⟩⟩, ⟨.opened ⟨3, 1⟩ [] true, ⟨3, 1⟩⟩, ⟨.enclosed .comment ⟨2, 4⟩, ⟨0, 5⟩⟩]

/-- With room for six nodes they make a document, and with room for five they do not. -/
theorem commit_entities_straySpans :
    Entity.distinctLength #[0x61, 0x6b, 0x76, 0x77, 0x20] .ignore straySpans < UInt32.size ∧
    (∃ store,
      (empty {}).commit (Outline.ofEntities #[0x61, 0x6b, 0x76, 0x77, 0x20] .ignore
        straySpans).batch.edits = .ok store ∧
      store.trees rootId = [.element [0x61] [([0x6b], [0x77]), ([0x61], [])]
        [.element [] [] [.leaf (.enclosed .comment) [0x76, 0x77]]]] ∧
      store.nodeCount = 6) ∧
    (empty { maxNodes := 5 }).commit (Outline.ofEntities #[0x61, 0x6b, 0x76, 0x77, 0x20] .ignore
      straySpans).batch.edits = .error (.storeFull 5) := by
  have hsmall :
      Entity.distinctLength #[0x61, 0x6b, 0x76, 0x77, 0x20] .ignore straySpans < UInt32.size := by
    decide
  have hbuilt := commit_entities {} _ _ _ hsmall
  have hrefused := commit_entities { maxNodes := 5 } _ _ _ hsmall
  rw [if_neg (by decide)] at hbuilt
  rw [if_pos (by decide)] at hrefused
  exact ⟨hsmall, hbuilt, hrefused⟩

end Store

end VersionedXml
