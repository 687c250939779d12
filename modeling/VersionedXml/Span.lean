import VersionedXml.Bytes

/-!
# Spans

A span is a half-open range of byte offsets into an input.  Spans are plain pairs: one that is
reversed, or that reaches past the end of an input, denotes the empty string there.
-/

namespace VersionedXml

/-- The bytes from `start` up to, but not including, `stop`. -/
structure Span where
  start : Nat
  stop : Nat
  deriving DecidableEq, Repr

namespace Span

def empty (offset : Nat) : Span := ⟨offset, offset⟩

def length (span : Span) : Nat := span.stop - span.start

def isEmpty (span : Span) : Bool := span.stop ≤ span.start

/-- The bytes of `input` in the span, or none at all unless the span fits into `input`. -/
def slice (span : Span) (input : Buffer) : Bytes :=
  if span.start ≤ span.stop ∧ span.stop ≤ input.size then
    (input.extract span.start span.stop).toList
  else
    []

@[simp]
theorem length_empty (offset : Nat) : (empty offset).length = 0 := by
  simp [length, empty]

theorem isEmpty_iff_length (span : Span) : span.isEmpty = true ↔ span.length = 0 := by
  simp only [isEmpty, length, decide_eq_true_eq]
  omega

/-- Inside the input a span denotes the bytes that remain after dropping `start` and taking as
many as the span is long. -/
theorem slice_eq_take_drop {span : Span} {input : Buffer} (hordered : span.start ≤ span.stop)
    (hinside : span.stop ≤ input.size) :
    span.slice input = (input.toList.drop span.start).take span.length := by
  simp [slice, hordered, hinside, length, List.extract_eq_take_drop]

end Span

end VersionedXml
