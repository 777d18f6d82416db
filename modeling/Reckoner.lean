import Reckoner.Main
import Reckoner.Registers.Json
import Reckoner.Proofs.Batch.Run
import Reckoner.Proofs.Footprint
import Reckoner.Proofs.Machine.Footprint
import Reckoner.Proofs.Machine.Run
import Reckoner.Proofs.Program.Tidy
import Reckoner.Proofs.Dependency.Footprint
import Reckoner.Proofs.Dependency.Values
import Reckoner.Proofs.Dependency.Scan
import Reckoner.Proofs.Program.Expansion
import Reckoner.Proofs.Number.Format
import Reckoner.Proofs.Reference.Expansion
import Reckoner.Proofs.Batch.Order
import Reckoner.Proofs.Batch.Reorder
import Reckoner.Proofs.Graph.Failure
import Reckoner.Proofs.Batch.Failure
import Reckoner.Proofs.Batch.Repeat
import Reckoner.Proofs.Graph.Embedding
import Reckoner.Proofs.Batch.Append
import Reckoner.Proofs.Machine.Calls
import Reckoner.Proofs.Machine.Bars
import Reckoner.Proofs.Machine.Validation
import Reckoner.Proofs.Dependency.Fold
import Reckoner.Proofs.Reference.Append
import Reckoner.Proofs.Reference.Marked
import Reckoner.Proofs.Batch.Text
import Reckoner.Proofs.Batch.Turn
import Reckoner.Proofs.Batch.RegisterOrder
import Reckoner.Proofs.Number.Bits
import Reckoner.Proofs.Number.Nearest
import Reckoner.Proofs.Number.Reading
import Reckoner.Proofs.Number.RoundTrip
import Reckoner.Proofs.Machine.Result
import Reckoner.Proofs.Number.Sum
import Reckoner.Proofs.Reference.Named
import Reckoner.Proofs.Batch.Visible
import Reckoner.Proofs.Graph.ListOrder
import Reckoner.Proofs.Reference.Decoding
import Reckoner.Proofs.Number.Lossless
import Reckoner.Proofs.Machine.Stable
import Reckoner.Proofs.Machine.Times
import Reckoner.Proofs.Program.Keyword
import Reckoner.Proofs.Machine.Nesting
import Reckoner.Proofs.Machine.Store
import Reckoner.Proofs.Values.Table
import Reckoner.Proofs.Ledger.Run
import Reckoner.Proofs.Ledger.Position
import Reckoner.Proofs.Ledger.Subtotal
import Reckoner.Proofs.Ledger.Column
import Reckoner.Proofs.Ledger.Batch
import Reckoner.Proofs.Session.Operation
import Reckoner.Proofs.Session.Invariant
import Reckoner.Proofs.Machine.Fold
import Reckoner.Proofs.Batch.Layered
import Reckoner.Proofs.Ledger.Json
import Reckoner.Proofs.Registers.Json
import Reckoner.Proofs.Machine.Underflow
import Reckoner.Proofs.Machine.Block
import Reckoner.Proofs.Number.Grammar
import Reckoner.Proofs.Number.Longest
import Reckoner.Proofs.Json.Real
import Reckoner.Proofs.Graph.Edges
import Reckoner.Proofs.Batch.Output
import Reckoner.Proofs.Reference.Scan
import Reckoner.Proofs.Json.Finite
import Reckoner.Proofs.CommandLine.ValuesFile
import Reckoner.Proofs.Graph.NodeSet
import Reckoner.Proofs.Graph.Bound
import Reckoner.Proofs.Number.Exact
import Reckoner.Proofs.Number.Arithmetic
import Reckoner.Proofs.Number.Rounding
import Reckoner.Proofs.Number.Multiple
import Reckoner.Proofs.Machine.Rounding
import Reckoner.Proofs.Machine.Template
