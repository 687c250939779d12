import VersionedXml.Bytes
import VersionedXml.Cursor
import VersionedXml.Edit
import VersionedXml.Edit.Outline
import VersionedXml.Entity
import VersionedXml.Entity.Delivery
import VersionedXml.Entity.Mode
import VersionedXml.Entity.Run
import VersionedXml.Entity.Scan
import VersionedXml.Entity.Step
import VersionedXml.Error
import VersionedXml.Limits
import VersionedXml.Node
import VersionedXml.NodeTable
import VersionedXml.NodeTable.Links
import VersionedXml.NodeTable.Traversal
import VersionedXml.Path
import VersionedXml.Path.Cache
import VersionedXml.Path.Descent
import VersionedXml.Path.Parser
import VersionedXml.Path.Select
import VersionedXml.Path.Token
import VersionedXml.Pool
import VersionedXml.Position
import VersionedXml.RecencyMap
import VersionedXml.Span
import VersionedXml.Store
import VersionedXml.Store.Parse
import VersionedXml.Store.Reading
import VersionedXml.Store.Render
import VersionedXml.Store.Tree
import VersionedXml.Text.Alphanumeric
import VersionedXml.Text.Blank
import VersionedXml.Text.CodeRanges
import VersionedXml.Text.DefaultIgnorable
import VersionedXml.Text.ExtendingMark
import VersionedXml.Text.QuotedChar
import VersionedXml.Text.Unprintable
import VersionedXml.Text.Utf8
import VersionedXml.Tree
import VersionedXml.Tree.Growth
import VersionedXml.Proofs.NodeTable.Chain
import VersionedXml.Proofs.NodeTable.Views
import VersionedXml.Proofs.NodeTable.WellFormed
import VersionedXml.Proofs.NodeTable.Changes
import VersionedXml.Proofs.Pool
import VersionedXml.Proofs.Store.Applied
import VersionedXml.Proofs.Store.Sound
import VersionedXml.Proofs.Store.Consistency
import VersionedXml.Proofs.Store.Forest
import VersionedXml.Proofs.Store.Effects
import VersionedXml.Proofs.Store.Attributes
import VersionedXml.Proofs.Store.Spine
import VersionedXml.Proofs.Store.Building
import VersionedXml.Proofs.Entity.Markup
import VersionedXml.Proofs.Tree.Readable
import VersionedXml.Proofs.Entity.Readback
import VersionedXml.Proofs.Store.RoundTrip
import VersionedXml.Proofs.Entity.Shape
import VersionedXml.Proofs.Tree.Formed
import VersionedXml.Proofs.Store.Normalization
import VersionedXml.Proofs.Entity.Tiling
import VersionedXml.Proofs.Path.Select
import VersionedXml.Proofs.Pool.Interning
import VersionedXml.Proofs.Store.Room
import VersionedXml.Proofs.Store.Rebuild
import VersionedXml.Proofs.Entity.Lexical
import VersionedXml.Proofs.Path.Grammar
import VersionedXml.Proofs.Entity.Extension
import VersionedXml.Proofs.Path.Recency
import VersionedXml.Proofs.Store.Identity
import VersionedXml.Proofs.Store.AttributeMap
import VersionedXml.Proofs.Store.Refusals
import VersionedXml.Proofs.Path.Lexing
import VersionedXml.Proofs.Path.Descent
import VersionedXml.Proofs.Path.Faults
import VersionedXml.Proofs.Path.Rendering
import VersionedXml.Proofs.NodeTable.Descent
import VersionedXml.Proofs.Store.Descendants
import VersionedXml.Proofs.Store.Markup
import VersionedXml.Proofs.Path.DocumentOrder
import VersionedXml.Proofs.Store.Splitting
import VersionedXml.Proofs.Store.References
import VersionedXml.Proofs.Store.Frame
import VersionedXml.Proofs.NodeTable.Extensionality
import VersionedXml.Proofs.Store.Insertable
import VersionedXml.Proofs.Store.Undoing
import VersionedXml.Proofs.Store.Commuting
import VersionedXml.Proofs.Store.Numbering
import VersionedXml.Proofs.Store.Trees
import VersionedXml.Proofs.Store.Pruning
import VersionedXml.Proofs.Entity.Overfull
import VersionedXml.Proofs.Store.Limits
import VersionedXml.Proofs.Entity.Registers
import VersionedXml.Proofs.Entity.Concatenation
import VersionedXml.Proofs.Entity.Positions
import VersionedXml.Proofs.Path.Spacing
import VersionedXml.Proofs.Entity.Termination
import VersionedXml.Proofs.Path.Calls
import VersionedXml.Proofs.Store.Bounds
import VersionedXml.Proofs.Pool.Narrowing
