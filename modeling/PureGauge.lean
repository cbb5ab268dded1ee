import PureGauge.Fault
import PureGauge.Word
import PureGauge.Lattice.Direction
import PureGauge.Lattice.Point
import PureGauge.Lattice.Basic
import PureGauge.Lattice.Walk
import PureGauge.Scalar.Functions
import PureGauge.Scalar.Complex
import PureGauge.Scalar.Matrix
import PureGauge.Decimal.Double
import PureGauge.Decimal.Digits
import PureGauge.Decimal.Text
import PureGauge.Decimal.Reading
import PureGauge.Random.Source
import PureGauge.Random.Xoshiro
import PureGauge.Random.Layers
import PureGauge.Random.Normal
import PureGauge.SU3.Spread
import PureGauge.SU3.Orthonormal
import PureGauge.SU3.Haar
import PureGauge.SU3.Reflection
import PureGauge.SU3.NearUnity
import PureGauge.SU3.Pool
import PureGauge.SU3.Comparison
import PureGauge.Error
import PureGauge.Field.Basic
import PureGauge.Field.Plaquette
import PureGauge.WorkerPool
import PureGauge.State.Basic
import PureGauge.State.Action
import PureGauge.State.Threaded
import PureGauge.Sweep.Proposal
import PureGauge.Sweep.Engine
import PureGauge.Simulation.Config
import PureGauge.Simulation.Journal
import PureGauge.Simulation.Basic
import PureGauge.Statistics
import PureGauge.Storage
import PureGauge.Json.Literal
import PureGauge.Json.Value
import PureGauge.Json.Reader
import PureGauge.Json.Format
import PureGauge.Json.Formats
import PureGauge.CommandLine.Options
import PureGauge.CommandLine.Folder
import PureGauge.CommandLine.Run
import PureGauge.Main
import PureGauge.Proofs.Checked
import PureGauge.Proofs.Scalar.Ring
import PureGauge.Proofs.Lattice.Site
import PureGauge.Proofs.Lattice.Neighbours
import PureGauge.Proofs.Lattice.Numbering
import PureGauge.Proofs.Lattice.Links
import PureGauge.Proofs.Lattice.Squares
import PureGauge.Proofs.Field.Configuration
import PureGauge.Proofs.Field.Gauge
import PureGauge.Proofs.Field.Total
import PureGauge.Proofs.Field.Symmetry
import PureGauge.Proofs.State.Sites
import PureGauge.Proofs.State.Gauge
import PureGauge.Proofs.State.Energy
import PureGauge.Proofs.State.Change
import PureGauge.Proofs.State.Replacement
import PureGauge.Proofs.State.Symmetry
import PureGauge.Proofs.State.Counting
import PureGauge.Proofs.State.Bounds
import PureGauge.Proofs.Random.Draw
import PureGauge.Proofs.Sweep.Locality
import PureGauge.Proofs.Sweep.Interleaving
import PureGauge.Proofs.Sweep.Checkerboard
import PureGauge.Proofs.Sweep.Traced
import PureGauge.Proofs.Sweep.Executions
import PureGauge.Proofs.Sweep.Energy
import PureGauge.Proofs.Sweep.Trials
import PureGauge.Proofs.Sweep.Coverage
import PureGauge.Proofs.Sweep.Schedule
import PureGauge.Proofs.Sweep.Independence
import PureGauge.Proofs.Sweep.Provenance
import PureGauge.Proofs.Simulation.Twins
import PureGauge.Proofs.Simulation.Operations
import PureGauge.Proofs.Chain.Stages
import PureGauge.Proofs.Chain.History
import PureGauge.Proofs.WorkerPool.Shares
import PureGauge.Proofs.WorkerPool.Answers
import PureGauge.Proofs.WorkerPool.Rounds
import PureGauge.Proofs.WorkerPool.Panics
import PureGauge.Proofs.SU3.Pairs
import PureGauge.Proofs.Sweep.Reversal
import PureGauge.Proofs.Sweep.SinglePoint
import PureGauge.Proofs.SU3.Special
import PureGauge.Proofs.Sweep.Closure
import PureGauge.Proofs.Simulation.Periods
import PureGauge.Proofs.Simulation.SpecialUnitary
import PureGauge.Proofs.Simulation.Steps
import PureGauge.Proofs.State.Queries
import PureGauge.Proofs.Simulation.Requests
import PureGauge.Proofs.Simulation.Construction
import PureGauge.Proofs.Simulation.Sampling
import PureGauge.Proofs.Decimal.Digits
import PureGauge.Proofs.Decimal.Rounding
import PureGauge.Proofs.Decimal.Magnitude
import PureGauge.Proofs.Json.Literals
import PureGauge.Proofs.Json.Grammar
import PureGauge.Proofs.Json.Reading
import PureGauge.Proofs.Json.Formats
import PureGauge.Proofs.Json.Parts
import PureGauge.Proofs.Json.RoundTrip
import PureGauge.Proofs.Json.Overrides
import PureGauge.Proofs.Json.Acceptance
import PureGauge.Proofs.CommandLine.Arguments
import PureGauge.Proofs.CommandLine.Run
import PureGauge.Proofs.Scalar.Inner
import PureGauge.Proofs.Scalar.Exact
import PureGauge.Proofs.SU3.Projection
import PureGauge.Proofs.SU3.Haar
import PureGauge.Proofs.SU3.Factors
import PureGauge.Proofs.SU3.Tolerance
import PureGauge.Proofs.SU3.Reflection
import PureGauge.Proofs.SU3.NearUnity
import PureGauge.Proofs.Lattice.Walk
import PureGauge.Proofs.Lattice.Queues
import PureGauge.Proofs.Lattice.Congruence
import PureGauge.Proofs.Lattice.Indexing
import PureGauge.Proofs.Lattice.Limits
import PureGauge.Proofs.Lattice.Shifts
import PureGauge.Proofs.Lattice.Parity
import PureGauge.Proofs.Lattice.Colours
import PureGauge.Proofs.Chain.Periodicity
import PureGauge.Proofs.Field.Access
import PureGauge.Proofs.Statistics.Moments
import PureGauge.Proofs.Simulation.Validation
