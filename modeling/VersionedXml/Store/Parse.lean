import VersionedXml.Edit.Outline
import VersionedXml.Entity.Scan
import VersionedXml.Store

/-!
# Reading documents

A document is read by scanning its input, outlining the entities as one batch, and committing that
batch to an empty store.  An input that cannot be scanned to its end makes no store.
-/

namespace VersionedXml.Store

def parse (options : Options) (input : Buffer) : Except Error Store :=
  match (scan options.limits.maxAttributes input).result with
  | .error failure => .error (.scan failure)
  | .ok entities =>
      let outline := Outline.ofEntities input options.whitespace entities
      match (empty options.limits).commit outline.batch.edits with
      | .error failure => .error (.store failure)
      | .ok store => .ok store

end VersionedXml.Store
