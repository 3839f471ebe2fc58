import ArrayDiff.Adjoint.Basic
import ArrayDiff.Adjoint.Slot
import ArrayDiff.Adjoint.Sweep
import ArrayDiff.Adjoint.Term
import ArrayDiff.Bindings
import ArrayDiff.Decimal.Binary
import ArrayDiff.Decimal.Digits
import ArrayDiff.Decimal.Text
import ArrayDiff.Domain
import ArrayDiff.Error
import ArrayDiff.Expr.Basic
import ArrayDiff.Expr.Derivative
import ArrayDiff.Expr.Eval
import ArrayDiff.Expr.Printer
import ArrayDiff.Expr.Simplify
import ArrayDiff.Expr.Substitution
import ArrayDiff.Graph.Basic
import ArrayDiff.Graph.Builder
import ArrayDiff.Graph.Extension
import ArrayDiff.Graph.Outline
import ArrayDiff.Graph.Printer
import ArrayDiff.Operator
import ArrayDiff.Progress
import ArrayDiff.Proofs.Acceptance
import ArrayDiff.Proofs.Accumulating
import ArrayDiff.Proofs.Addressing
import ArrayDiff.Proofs.Agreement
import ArrayDiff.Proofs.Allocation
import ArrayDiff.Proofs.Building
import ArrayDiff.Proofs.Capture
import ArrayDiff.Proofs.Classification
import ArrayDiff.Proofs.Closure
import ArrayDiff.Proofs.Confinement
import ArrayDiff.Proofs.Contents
import ArrayDiff.Proofs.Contribution
import ArrayDiff.Proofs.Coordinates
import ArrayDiff.Proofs.Copying
import ArrayDiff.Proofs.Coverage
import ArrayDiff.Proofs.Demand
import ArrayDiff.Proofs.Dependency
import ArrayDiff.Proofs.DepthFirst
import ArrayDiff.Proofs.Derivative
import ArrayDiff.Proofs.Diagnosis
import ArrayDiff.Proofs.Differential
import ArrayDiff.Proofs.Discipline
import ArrayDiff.Proofs.Dual
import ArrayDiff.Proofs.DualNumber
import ArrayDiff.Proofs.DualScalar
import ArrayDiff.Proofs.Enclosure
import ArrayDiff.Proofs.Evaluation
import ArrayDiff.Proofs.Exactness
import ArrayDiff.Proofs.Extending
import ArrayDiff.Proofs.Failure
import ArrayDiff.Proofs.Fault
import ArrayDiff.Proofs.Fitting
import ArrayDiff.Proofs.Folding
import ArrayDiff.Proofs.Following
import ArrayDiff.Proofs.Forward
import ArrayDiff.Proofs.Fragments
import ArrayDiff.Proofs.Gathering
import ArrayDiff.Proofs.Growth
import ArrayDiff.Proofs.Inclusion
import ArrayDiff.Proofs.Independence
import ArrayDiff.Proofs.Interpreter
import ArrayDiff.Proofs.Inversion
import ArrayDiff.Proofs.Lawful
import ArrayDiff.Proofs.Levels
import ArrayDiff.Proofs.Lockstep
import ArrayDiff.Proofs.Materialization
import ArrayDiff.Proofs.Meaning
import ArrayDiff.Proofs.Mirroring
import ArrayDiff.Proofs.Monotonicity
import ArrayDiff.Proofs.Naming
import ArrayDiff.Proofs.Narrowing
import ArrayDiff.Proofs.NormalForm
import ArrayDiff.Proofs.Number
import ArrayDiff.Proofs.Outcome
import ArrayDiff.Proofs.Overlap
import ArrayDiff.Proofs.Overwriting
import ArrayDiff.Proofs.Pairing
import ArrayDiff.Proofs.Partials
import ArrayDiff.Proofs.Pending
import ArrayDiff.Proofs.Points
import ArrayDiff.Proofs.Preservation
import ArrayDiff.Proofs.Reachability
import ArrayDiff.Proofs.Recurrence
import ArrayDiff.Proofs.Reflection
import ArrayDiff.Proofs.Replacement
import ArrayDiff.Proofs.Results
import ArrayDiff.Proofs.Reversal
import ArrayDiff.Proofs.Reverse
import ArrayDiff.Proofs.Rewriting
import ArrayDiff.Proofs.Scan
import ArrayDiff.Proofs.Schedule
import ArrayDiff.Proofs.Scope
import ArrayDiff.Proofs.Sending
import ArrayDiff.Proofs.Settlement
import ArrayDiff.Proofs.Sight
import ArrayDiff.Proofs.Simplification
import ArrayDiff.Proofs.Simultaneous
import ArrayDiff.Proofs.Slots
import ArrayDiff.Proofs.Snapshot
import ArrayDiff.Proofs.Solution
import ArrayDiff.Proofs.Span
import ArrayDiff.Proofs.Substitution
import ArrayDiff.Proofs.Success
import ArrayDiff.Proofs.Sweeping
import ArrayDiff.Proofs.Terms
import ArrayDiff.Proofs.Transparency
import ArrayDiff.Proofs.Transposition
import ArrayDiff.Proofs.Turns
import ArrayDiff.Proofs.Walk
import ArrayDiff.Proofs.Widening
import ArrayDiff.Realization
import ArrayDiff.Recurrence
import ArrayDiff.Region
import ArrayDiff.Scalar
import ArrayDiff.Scalar.Float
import ArrayDiff.Schedule
import ArrayDiff.Seed
import ArrayDiff.Span.Basic
import ArrayDiff.Span.Scope
import ArrayDiff.Table
import ArrayDiff.Tangent
import ArrayDiff.Target
