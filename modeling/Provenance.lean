import Provenance.Analysis
import Provenance.Assembler
import Provenance.Bisect
import Provenance.Block.Basic
import Provenance.Block.Entry
import Provenance.Block.Partition
import Provenance.Bytes.LittleEndian
import Provenance.Clause
import Provenance.Cursor
import Provenance.Decimal.Layout
import Provenance.Decimal.Shortest
import Provenance.Edge
import Provenance.Effect
import Provenance.Error
import Provenance.Event
import Provenance.Expression
import Provenance.Grouping
import Provenance.Instruction.Basic
import Provenance.Instruction.Decode
import Provenance.Label
import Provenance.Listing
import Provenance.OpCode.Basic
import Provenance.OpCode.Table
import Provenance.Operand
import Provenance.Path.Basic
import Provenance.Path.Explore
import Provenance.Proofs.BarePaths
import Provenance.Proofs.Bisect
import Provenance.Proofs.Boundaries
import Provenance.Proofs.Courses
import Provenance.Proofs.Coverage
import Provenance.Proofs.CursorCalls
import Provenance.Proofs.DataFlow
import Provenance.Proofs.Diagnosis
import Provenance.Proofs.DiscoveryOrder
import Provenance.Proofs.EdgeHistory
import Provenance.Proofs.EdgeListing
import Provenance.Proofs.EdgeQueries
import Provenance.Proofs.Edges
import Provenance.Proofs.Emission
import Provenance.Proofs.EntryPoints
import Provenance.Proofs.ExactPaths
import Provenance.Proofs.Exploration
import Provenance.Proofs.Extension
import Provenance.Proofs.FailedOperations
import Provenance.Proofs.FinishedPieces
import Provenance.Proofs.Frame
import Provenance.Proofs.Grammar
import Provenance.Proofs.Grouping
import Provenance.Proofs.Interleaving
import Provenance.Proofs.LabelResolution
import Provenance.Proofs.LastWriter
import Provenance.Proofs.LoopFree
import Provenance.Proofs.Nesting
import Provenance.Proofs.OpCodeTable
import Provenance.Proofs.Outcome
import Provenance.Proofs.Partition
import Provenance.Proofs.PartitionOutcome
import Provenance.Proofs.Patching
import Provenance.Proofs.PathHistory
import Provenance.Proofs.PathKey
import Provenance.Proofs.Reassembly
import Provenance.Proofs.RecordingOrder
import Provenance.Proofs.Relocation
import Provenance.Proofs.Rendering
import Provenance.Proofs.Repetition
import Provenance.Proofs.Replay
import Provenance.Proofs.Returns
import Provenance.Proofs.RevisitLimit
import Provenance.Proofs.RoundTrip
import Provenance.Proofs.Scalars
import Provenance.Proofs.ShortestForms
import Provenance.Proofs.Simulation
import Provenance.Proofs.Slices
import Provenance.Proofs.Stages
import Provenance.Proofs.Streams
import Provenance.Proofs.Successors
import Provenance.Proofs.Unfolding
import Provenance.Proofs.UnknownCallee
import Provenance.Proofs.Windows
import Provenance.Proofs.Worklist
import Provenance.Reader
import Provenance.Replay
import Provenance.Resolver
import Provenance.Scalar
import Provenance.Text.CodeRange
import Provenance.Text.GraphemeExtend
import Provenance.Text.Hex
import Provenance.Text.Printable
import Provenance.Text.Quoted
import Provenance.Text.Visible
import Provenance.Token
