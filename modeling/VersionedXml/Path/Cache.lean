import VersionedXml.Path.Select
import VersionedXml.RecencyMap

/-!
# A cache of parsed paths

Parsed paths are kept under their expressions in a map of bounded size, so that an expression that
comes again need not be parsed.  Failures are not kept.  What is asked is counted in 64 bits.
-/

namespace VersionedXml

/-- The cached paths, and how often the cache was asked. -/
structure PathCache (μ : Type) where
  paths : μ
  hits : UInt64
  misses : UInt64
  deriving Repr

namespace PathCache

def defaultCapacity : Nat := 256

structure Stats where
  hits : UInt64
  misses : UInt64
  entries : Nat
  deriving DecidableEq, Repr

def Stats.hitRate (stats : Stats) : Float :=
  let asked := stats.hits + stats.misses
  if asked = 0 then 0.0 else stats.hits.toFloat / asked.toFloat

variable {μ : Type} (map : RecencyMap μ String Path)

def empty (capacity : Nat) : PathCache μ :=
  ⟨map.withCapacity (max 1 capacity), 0, 0⟩

def compile (cache : PathCache μ) (expression : String) : Except PathError Path × PathCache μ :=
  let found := map.get expression cache.paths
  match found.1 with
  | some path => (.ok path, { cache with paths := found.2, hits := cache.hits + 1 })
  | none =>
      let missed := { cache with paths := found.2, misses := cache.misses + 1 }
      match Path.parse expression with
      | .error failure => (.error failure, missed)
      | .ok path => (.ok path, { missed with paths := map.put expression path missed.paths })

def query (cache : PathCache μ) (store : Store) (context : NodeId) (expression : String) :
    Except PathError (List NodeId) × PathCache μ :=
  let compiled := cache.compile map expression
  (compiled.1.map (store.select context), compiled.2)

def stats (cache : PathCache μ) : Stats :=
  ⟨cache.hits, cache.misses, map.size cache.paths⟩

/-- Drops all paths.  The counters stay. -/
def clear (cache : PathCache μ) : PathCache μ :=
  { cache with paths := map.clear cache.paths }

end PathCache

end VersionedXml
