import SignalVector.Failure
import SignalVector.Index
import SignalVector.Update
import SignalVector.Buffer
import SignalVector.Bounds
import SignalVector.Cells
import SignalVector.Operands
import SignalVector.Access
import SignalVector.Layout
import SignalVector.ScaledAddition
import SignalVector.Frame
import SignalVector.Operation
import SignalVector.Rendering
import SignalVector.Scalar.Magnitude
import SignalVector.Scalar.Binary64
import SignalVector.Scalar.Dual
import SignalVector.Scalar.Expression
import SignalVector.Scalar.Term
import SignalVector.Scalar.Program
import SignalVector.Scalar.Render
import SignalVector.Decimal.Binary
import SignalVector.Decimal.Digits
import SignalVector.Decimal.Fixed
import SignalVector.Decimal.Shortest
import SignalVector.Decimal.Text
import SignalVector.Storage.Contiguous
import SignalVector.Storage.Matrix
import SignalVector.Storage.Column
import SignalVector.Storage.Base
import SignalVector.Storage.Registry
import SignalVector.View.Range
import SignalVector.View.Blocks
import SignalVector.View.Basic
import SignalVector.Proofs.Tracking
import SignalVector.Proofs.Flat
import SignalVector.Proofs.Reading
import SignalVector.Proofs.Lawful
import SignalVector.Proofs.Leaving
import SignalVector.Proofs.Storage
import SignalVector.Proofs.Range
import SignalVector.Proofs.Blocks
import SignalVector.Proofs.Opening
import SignalVector.Proofs.Views
import SignalVector.Proofs.Runs
import SignalVector.Proofs.Flattening
import SignalVector.Proofs.Addressing
import SignalVector.Proofs.Chains
import SignalVector.Proofs.Simplification
import SignalVector.Proofs.NormalForm
import SignalVector.Proofs.Programs
import SignalVector.Proofs.Duals
import SignalVector.Proofs.Differentiation
import SignalVector.Proofs.Defaults
import SignalVector.Proofs.Overrides
import SignalVector.Proofs.Related
import SignalVector.Proofs.Reopening
import SignalVector.Proofs.Independence
import SignalVector.Proofs.Transfers
import SignalVector.Proofs.Faultless
import SignalVector.Proofs.Memory
import SignalVector.Proofs.ScalarChange
import SignalVector.Proofs.ZeroSums
import SignalVector.Proofs.Binary64
import SignalVector.Proofs.FromZero
import SignalVector.Proofs.Offsets
import SignalVector.Proofs.Atomicity
import SignalVector.Proofs.Mapped
import SignalVector.Proofs.Slots
import SignalVector.Proofs.Comparison
import SignalVector.Proofs.Norms
import SignalVector.Proofs.Ranks
import SignalVector.Proofs.Peaks
import SignalVector.Proofs.Limits
import SignalVector.Proofs.Readings
import SignalVector.Proofs.Additivity
import SignalVector.Proofs.Interchange
import SignalVector.Proofs.Accumulation
import SignalVector.Proofs.Iteration
import SignalVector.Proofs.Nesting
import SignalVector.Proofs.Texts
import SignalVector.Proofs.Figures
import SignalVector.Proofs.Rounding
import SignalVector.Proofs.Numerals
import SignalVector.Proofs.Readability
import SignalVector.Proofs.Sums
import SignalVector.Proofs.Environments
import SignalVector.Proofs.Histories
