/-!
# Sets of code points

A set of code points is a list of closed ranges.  The tables beside this module are written in
this form.
-/

namespace VersionedXml.Text

/-- A code point belongs to a table when it lies in one of the table's closed ranges. -/
def covers (ranges : List (Nat × Nat)) (code : Nat) : Bool :=
  ranges.any fun range => range.1 ≤ code && code ≤ range.2

theorem covers_iff (ranges : List (Nat × Nat)) (code : Nat) :
    covers ranges code = true ↔ ∃ range ∈ ranges, range.1 ≤ code ∧ code ≤ range.2 := by
  simp [covers]

def areApart (left right : List (Nat × Nat)) : Bool :=
  left.all fun range => right.all fun other => range.2 < other.1 || other.2 < range.1

/-- A code point belongs to one of two tables that are apart at most. -/
theorem not_covers_of_areApart {left right : List (Nat × Nat)} {code : Nat}
    (hapart : areApart left right = true) (hleft : covers left code = true) :
    covers right code = false := by
  rw [Bool.eq_false_iff]
  intro hright
  obtain ⟨range, hrange, hlow, hhigh⟩ := (covers_iff left code).mp hleft
  obtain ⟨other, hother, hlow', hhigh'⟩ := (covers_iff right code).mp hright
  have hranges := List.all_eq_true.mp (List.all_eq_true.mp hapart range hrange) other hother
  simp only [Bool.or_eq_true, decide_eq_true_eq] at hranges
  omega

end VersionedXml.Text
