import PulseSequencer.Binary64.Basic
import PulseSequencer.Binary64.Arithmetic
import PulseSequencer.Decimal.Shortest
import PulseSequencer.Decimal.Format
import PulseSequencer.Quantity
import PulseSequencer.Clock
import PulseSequencer.Tuning
import PulseSequencer.Duration
import PulseSequencer.Channel
import PulseSequencer.SequenceError
import PulseSequencer.Update
import PulseSequencer.Element.Basic
import PulseSequencer.Element.Equality
import PulseSequencer.Element.Projection
import PulseSequencer.Element.Sharing
import PulseSequencer.Instruction
import PulseSequencer.OutputWord
import PulseSequencer.Json.Basic
import PulseSequencer.Settings.Basic
import PulseSequencer.Settings.Text
import PulseSequencer.LogEvent
import PulseSequencer.CompileError
import PulseSequencer.Program.Graph
import PulseSequencer.Program.Counters
import PulseSequencer.Program.Layout
import PulseSequencer.Program.Basic
import PulseSequencer.Program.Emission
import PulseSequencer.Compiler
import PulseSequencer.Proofs.Results
import PulseSequencer.Proofs.Channel
import PulseSequencer.Proofs.Binary64.Equality
import PulseSequencer.Proofs.Binary64.Rounding
import PulseSequencer.Proofs.Binary64.Steps
import PulseSequencer.Proofs.Binary64.Rational
import PulseSequencer.Proofs.Binary64.Quotient
import PulseSequencer.Proofs.Binary64.Monotone
import PulseSequencer.Proofs.Clock
import PulseSequencer.Proofs.Quantization
import PulseSequencer.Proofs.Update
import PulseSequencer.Proofs.Sequencer
import PulseSequencer.Proofs.Duration.Exact
import PulseSequencer.Proofs.Duration.Value
import PulseSequencer.Proofs.Duration.Division
import PulseSequencer.Proofs.Duration.Overflow
import PulseSequencer.Proofs.Duration.Expression
import PulseSequencer.Proofs.Duration.Search
import PulseSequencer.Proofs.Duration.Correction
import PulseSequencer.Proofs.Element.Equality
import PulseSequencer.Proofs.Element.Subelements
import PulseSequencer.Proofs.Program.Lowering
import PulseSequencer.Proofs.Program.Traversal
import PulseSequencer.Proofs.Program.CallOrder
import PulseSequencer.Proofs.Program.Counters
import PulseSequencer.Proofs.Program.Allocation
import PulseSequencer.Proofs.Program.Lookup
import PulseSequencer.Proofs.Program.Memory
import PulseSequencer.Proofs.Program.Unrolling
import PulseSequencer.Proofs.Program.Playback
import PulseSequencer.Proofs.Program.Subroutines
import PulseSequencer.Proofs.Program.Nesting
import PulseSequencer.Proofs.Program.Placement
import PulseSequencer.Proofs.Program.Capacity
import PulseSequencer.Proofs.Program.Worklist
import PulseSequencer.Proofs.Program.Rendering
import PulseSequencer.Proofs.Program.DepthFirst
import PulseSequencer.Proofs.Element.Duration
import PulseSequencer.Proofs.Element.History
import PulseSequencer.Proofs.Element.Projection
import PulseSequencer.Proofs.Element.Output
import PulseSequencer.Proofs.Element.Merging
import PulseSequencer.Proofs.Element.Emittable
import PulseSequencer.Proofs.Element.Preservation
import PulseSequencer.Proofs.Element.Equivalence
import PulseSequencer.Proofs.Element.Sharing
import PulseSequencer.Proofs.Element.Workspace
import PulseSequencer.Proofs.Element.Hashing
import PulseSequencer.Proofs.Program.Table
import PulseSequencer.Proofs.Element.DeadTime
import PulseSequencer.Proofs.Element.NormalForm
import PulseSequencer.Proofs.Element.Depth
import PulseSequencer.Proofs.Element.Rejection
import PulseSequencer.Proofs.Element.Grid
import PulseSequencer.Proofs.Program.Synchrony
import PulseSequencer.Proofs.OutputWord
import PulseSequencer.Proofs.Program.Totality
import PulseSequencer.Proofs.Program.Storage
import PulseSequencer.Proofs.Program.Passes
import PulseSequencer.Proofs.Program.MemoryMap
import PulseSequencer.Proofs.Encoding
import PulseSequencer.Proofs.Program.Relocation
import PulseSequencer.Proofs.Isolation
import PulseSequencer.Proofs.Settings.Sanitizing
import PulseSequencer.Proofs.Json
import PulseSequencer.Proofs.Settings.RoundTrip
