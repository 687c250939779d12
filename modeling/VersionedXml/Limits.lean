/-!
# Limits and options

Scanning and storing are bounded by limits that every caller passes explicitly.
-/

namespace VersionedXml

/-- The greatest number of nodes that a store may be allowed.  It leaves one identifier spare, so
counting nodes in 32 bits never wraps. -/
def nodeCeiling : Nat := 4294967294

/-- Bounds on the attributes of one tag and on the nodes of one store, the root included. -/
structure Limits where
  maxAttributes : Nat := 4096
  maxNodes : Nat := nodeCeiling
  maxNodes_le : maxNodes ≤ nodeCeiling := by decide
  deriving DecidableEq, Repr

namespace Limits

def withMaxAttributes (limits : Limits) (count : Nat) : Limits :=
  { limits with maxAttributes := count }

/-- The same limits with another bound on nodes, which is lowered to the ceiling if need be. -/
def withMaxNodes (limits : Limits) (count : Nat) : Limits :=
  { limits with
    maxNodes := min count nodeCeiling
    maxNodes_le := Nat.min_le_right count nodeCeiling }

end Limits

inductive Whitespace where
  | preserve
  | ignore
  deriving DecidableEq, Repr

structure Options where
  whitespace : Whitespace := .preserve
  limits : Limits := {}
  deriving DecidableEq, Repr

end VersionedXml
