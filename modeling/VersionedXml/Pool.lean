import Std.Data.HashMap
import VersionedXml.Bytes

/-!
# String pools

A pool holds every distinct byte string once and names it by a small identifier.  All strings lie
one behind the other in a single buffer, and an index from digests to identifiers finds a string
again.  The index only proposes candidates, each of which is compared byte for byte, so no answer
depends on the digest.
-/

namespace VersionedXml

abbrev StrId := UInt32

/-- Where a string lies in the buffer of its pool, in 32 bits each. -/
structure Extent where
  offset : UInt32
  length : UInt32
  deriving DecidableEq, Repr

/-- The distinct strings, in the order in which they were interned. -/
structure Pool where
  extents : Array Extent
  bytes : ByteArray
  buckets : Std.HashMap UInt64 (List StrId)

namespace Pool

def emptyId : StrId := 0

def sized (strings bytes : Nat) : Pool :=
  ⟨(Array.emptyWithCapacity (max strings 1)).push ⟨0, 0⟩, ⟨Array.emptyWithCapacity bytes⟩,
    Std.HashMap.emptyWithCapacity strings⟩

def empty : Pool := sized 256 4096

def size (pool : Pool) : Nat := pool.extents.size

def isEmpty (pool : Pool) : Bool := pool.size ≤ 1

def bytesUsed (pool : Pool) : Nat := pool.bytes.size

def read? (pool : Pool) (extent : Extent) : Option Bytes :=
  let start := extent.offset.toNat
  let stop := start + extent.length.toNat
  if stop ≤ pool.bytes.size then some (pool.bytes.extract start stop).data.toList else none

def get? (pool : Pool) (id : StrId) : Option Bytes :=
  pool.extents[id.toNat]?.bind pool.read?

/-- The identifiers of the strings with a digest, oldest first. -/
def bucket (pool : Pool) (digest : UInt64) : List StrId :=
  pool.buckets.getD digest []

/-- The identifier of a string that has been interned under the given digest function. -/
def findWith? (digest : Bytes → UInt64) (pool : Pool) (text : Bytes) : Option StrId :=
  if text.isEmpty then
    some emptyId
  else
    (pool.bucket (digest text)).find? fun id => pool.get? id == some text

def add (digest : Bytes → UInt64) (pool : Pool) (text : Bytes) : Pool × StrId :=
  let id := pool.size.toUInt32
  let extent : Extent := ⟨pool.bytes.size.toUInt32, text.length.toUInt32⟩
  let key := digest text
  let candidates := pool.bucket key ++ [id]
  (⟨pool.extents.push extent, pool.bytes ++ ⟨text.toArray⟩,
    pool.buckets.insert key candidates⟩, id)

def internWith (digest : Bytes → UInt64) (pool : Pool) (text : Bytes) : Pool × StrId :=
  match pool.findWith? digest text with
  | some id => (pool, id)
  | none => pool.add digest text

/-- A digest of a byte string: each byte is mixed in by an exclusive or and a multiplication. -/
def digest (text : Bytes) : UInt64 :=
  text.foldl (fun mixed b => (mixed ^^^ b.toUInt64) * 0x100000001b3) 0xcbf29ce484222325

def find? (pool : Pool) (text : Bytes) : Option StrId :=
  pool.findWith? digest text

def intern (pool : Pool) (text : Bytes) : Pool × StrId :=
  pool.internWith digest text

@[simp]
theorem internWith_nil (digest : Bytes → UInt64) (pool : Pool) :
    pool.internWith digest [] = (pool, emptyId) := by
  simp [internWith, findWith?]

theorem get?_of_findWith? {digest : Bytes → UInt64} {pool : Pool} {text : Bytes} {id : StrId}
    (hne : text ≠ []) (hfound : pool.findWith? digest text = some id) :
    pool.get? id = some text := by
  have hne' : text.isEmpty = false := by simpa using hne
  simp only [findWith?, hne'] at hfound
  simpa using List.find?_some hfound

end Pool

end VersionedXml
