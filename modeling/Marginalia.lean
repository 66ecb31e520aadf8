import Marginalia.Context.Request
import Marginalia.Log
import Marginalia.Main
import Marginalia.Proofs.Database.Compile
import Marginalia.Proofs.Graph.Cycles
import Marginalia.Proofs.Graph.Thinning
import Marginalia.Proofs.Validate.Agreement
import Marginalia.Validate.Request
import Marginalia.Proofs.Validate.Passing
import Marginalia.Proofs.Validate.Selection
import Marginalia.Proofs.Database.LastRecord
import Marginalia.Proofs.Json.RoundTrip
import Marginalia.Proofs.Text.Utf8
import Marginalia.Proofs.Database.Document
import Marginalia.Proofs.Database.Counts
import Marginalia.Proofs.Database.Stored
import Marginalia.Proofs.Workspace.Writing
import Marginalia.Proofs.Workspace.Search
import Marginalia.Proofs.Archive.RoundTrip
import Marginalia.Proofs.Archive.Faults
import Marginalia.Proofs.Database.Normal
import Marginalia.Proofs.Release.Graph
import Marginalia.Proofs.Release.Reproducible
import Marginalia.Proofs.Release.HardDependencies
import Marginalia.Proofs.Text.Lines
import Marginalia.Proofs.Extract.Comment
import Marginalia.Proofs.Literal.Pieces
import Marginalia.Proofs.Record.RoundTrip
import Marginalia.Proofs.Extract.Provenance
import Marginalia.Proofs.Extract.Faults
import Marginalia.Proofs.Database.Order
import Marginalia.Proofs.Draft.Staged
import Marginalia.Proofs.Draft.Suggestion
import Marginalia.Proofs.Validate.Visibility
import Marginalia.Proofs.Json.Size
import Marginalia.Proofs.Release.Size
import Marginalia.Proofs.Graph.Closure
import Marginalia.Proofs.Query.Dependencies
import Marginalia.Proofs.Context.Needed
import Marginalia.Proofs.Context.Select
import Marginalia.Proofs.Context.Trim
import Marginalia.Proofs.Extract.Merge
import Marginalia.Proofs.Query.Statistics
import Marginalia.Proofs.Query.Dot
import Marginalia.Proofs.Record.Object
import Marginalia.Proofs.Context.Block
import Marginalia.Proofs.Extract.Embedded
import Marginalia.Proofs.Record.Independence
import Marginalia.Proofs.Record.Hint
import Marginalia.Proofs.Record.Verbatim
import Marginalia.Proofs.Literal.TopLevel
import Marginalia.Proofs.Literal.Fields
import Marginalia.Proofs.Literal.Brace
import Marginalia.Proofs.Extract.Partition
import Marginalia.Proofs.Text.Search
