import ErrorReturns.Analysis
import ErrorReturns.CallGraph
import ErrorReturns.Condition
import ErrorReturns.Constant
import ErrorReturns.Context
import ErrorReturns.Decimal.Binary64
import ErrorReturns.Decimal.Layout
import ErrorReturns.Decimal.Reader
import ErrorReturns.Decimal.Shortest
import ErrorReturns.Document.Basic
import ErrorReturns.Document.Printer
import ErrorReturns.Document.Reader
import ErrorReturns.Document.Record
import ErrorReturns.ErrorTable
import ErrorReturns.Fault
import ErrorReturns.Finding
import ErrorReturns.Finding.Incorrect
import ErrorReturns.Finding.Missing
import ErrorReturns.Finding.Report
import ErrorReturns.Finding.Score
import ErrorReturns.Finding.Signedness
import ErrorReturns.Finding.Truncation
import ErrorReturns.Finding.Violation
import ErrorReturns.Flow.Chain
import ErrorReturns.Flow.Path
import ErrorReturns.Histogram
import ErrorReturns.Learning
import ErrorReturns.Learning.Evidence
import ErrorReturns.Learning.Handlers
import ErrorReturns.Learning.Propagation
import ErrorReturns.Learning.Similarity
import ErrorReturns.Learning.Storing
import ErrorReturns.Predicate
import ErrorReturns.Program.Basic
import ErrorReturns.Program.Defect
import ErrorReturns.Program.Draft
import ErrorReturns.Program.Entity
import ErrorReturns.Program.Operation
import ErrorReturns.Program.Pointer
import ErrorReturns.Program.Value
import ErrorReturns.RangeSet
import ErrorReturns.RangeSet.Written
import ErrorReturns.ReturnRange
import ErrorReturns.Schedule
import ErrorReturns.Settings
import ErrorReturns.Settings.Written
import ErrorReturns.SignedRange
import ErrorReturns.SortedSet
import ErrorReturns.Summary.CommonSubsequence
import ErrorReturns.Summary.Effect
import ErrorReturns.Table
import ErrorReturns.Text.Blank
import ErrorReturns.Trace.Origin
import ErrorReturns.Trace.Resolve
import ErrorReturns.Trace.Slice
import ErrorReturns.Word
import ErrorReturns.Proofs.Analysis
import ErrorReturns.Proofs.CallGraph
import ErrorReturns.Proofs.CallGraph.Notes
import ErrorReturns.Proofs.Checked
import ErrorReturns.Proofs.Comparison
import ErrorReturns.Proofs.Condition
import ErrorReturns.Proofs.Condition.NestedFlag
import ErrorReturns.Proofs.Constant
import ErrorReturns.Proofs.Context.Inside
import ErrorReturns.Proofs.Context.Order
import ErrorReturns.Proofs.Context.Valid
import ErrorReturns.Proofs.Document.Record
import ErrorReturns.Proofs.Document.RoundTrip
import ErrorReturns.Proofs.ErrorTable
import ErrorReturns.Proofs.Finding.Grounded
import ErrorReturns.Proofs.Finding.Inside
import ErrorReturns.Proofs.Finding.ModuleOrder
import ErrorReturns.Proofs.Finding.RoundCount
import ErrorReturns.Proofs.Finding.Rounds
import ErrorReturns.Proofs.Finding.Tallies
import ErrorReturns.Proofs.Finding.Truncations
import ErrorReturns.Proofs.Finding.Turns
import ErrorReturns.Proofs.Finding.Unchecked
import ErrorReturns.Proofs.Finding.Verdicts
import ErrorReturns.Proofs.Flow.Enumeration
import ErrorReturns.Proofs.Flow.Inside
import ErrorReturns.Proofs.Flow.Isolation
import ErrorReturns.Proofs.Flow.Linear
import ErrorReturns.Proofs.Histogram
import ErrorReturns.Proofs.Implication
import ErrorReturns.Proofs.Knowledge
import ErrorReturns.Proofs.Learning.BestMatch
import ErrorReturns.Proofs.Learning.DoubleCounting
import ErrorReturns.Proofs.Learning.ErrorSide
import ErrorReturns.Proofs.Learning.Gathering
import ErrorReturns.Proofs.Learning.Grounded
import ErrorReturns.Proofs.Learning.Handlers
import ErrorReturns.Proofs.Learning.Inside
import ErrorReturns.Proofs.Learning.Merging
import ErrorReturns.Proofs.Learning.Observations
import ErrorReturns.Proofs.Learning.PoolBound
import ErrorReturns.Proofs.Learning.Pooling
import ErrorReturns.Proofs.Learning.Propagation
import ErrorReturns.Proofs.Learning.Sides
import ErrorReturns.Proofs.Learning.Visits
import ErrorReturns.Proofs.Learning.Wrappers
import ErrorReturns.Proofs.Meets
import ErrorReturns.Proofs.Plan
import ErrorReturns.Proofs.Program.Address
import ErrorReturns.Proofs.Program.Closed
import ErrorReturns.Proofs.Program.Consistent
import ErrorReturns.Proofs.Program.Inside
import ErrorReturns.Proofs.Program.Ownership
import ErrorReturns.Proofs.Program.WellFormed
import ErrorReturns.Proofs.Program.Writing
import ErrorReturns.Proofs.RangeSet.Algebra
import ErrorReturns.Proofs.RangeSet.Canonical
import ErrorReturns.Proofs.RangeSet.Membership
import ErrorReturns.Proofs.RangeSet.Observers
import ErrorReturns.Proofs.RangeSet.Reachable
import ErrorReturns.Proofs.RangeSet.Sweep
import ErrorReturns.Proofs.RangeSet.Written
import ErrorReturns.Proofs.ReturnRange.Choices
import ErrorReturns.Proofs.ReturnRange.Memo
import ErrorReturns.Proofs.ReturnRange.Refinement
import ErrorReturns.Proofs.ReturnRange.Termination
import ErrorReturns.Proofs.ReturnRange.Walk
import ErrorReturns.Proofs.Schedule
import ErrorReturns.Proofs.Settings.Names
import ErrorReturns.Proofs.Settings.Pairs
import ErrorReturns.Proofs.SignedRange
import ErrorReturns.Proofs.Summary.CommonSubsequence
import ErrorReturns.Proofs.Summary.Inside
import ErrorReturns.Proofs.Summary.Symmetry
import ErrorReturns.Proofs.Table.Keys
import ErrorReturns.Proofs.Table.Lookup
import ErrorReturns.Proofs.Trace.Decision
import ErrorReturns.Proofs.Trace.Direction
import ErrorReturns.Proofs.Trace.Inside
import ErrorReturns.Proofs.Trace.Loads
import ErrorReturns.Proofs.Trace.Lookup
import ErrorReturns.Proofs.Trace.NormalForm
import ErrorReturns.Proofs.Trace.Origin
import ErrorReturns.Proofs.Trace.Termination
import ErrorReturns.Proofs.Word
import ErrorReturns.Proofs.Workers
