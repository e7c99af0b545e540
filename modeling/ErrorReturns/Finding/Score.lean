import ErrorReturns.ErrorTable
import ErrorReturns.Finding.Violation

/-!
# Scoring candidates

A candidate is a call that is not checked, or not checked well. How much it counts depends on
how well other calls of the same functions are handled: the score is the lower end of the
Wilson interval of that share, so that few observations give a low score. Candidates at one
place in the source are reported together.
-/

namespace ErrorReturns

open Std

/-- How many calls of a function were seen, and how many of them were handled badly. -/
structure Tally where
  bad : Nat := 0
  total : Nat := 0
deriving DecidableEq, Repr

namespace Tally

/-- Count one call. -/
def record (t : Tally) (bad : Bool) : Tally := ⟨if bad then t.bad + 1 else t.bad, t.total + 1⟩

/-- Add up two tallies. -/
def add (a b : Tally) : Tally := ⟨a.bad + b.bad, a.total + b.total⟩

end Tally

/-- Where a candidate was found. A call without a source location stands for itself. -/
inductive Site where
  | source (position : Position)
  | inst (id : InstId)
deriving DecidableEq, Repr

namespace Site

/-- Places in the source come first. -/
instance : Ord Site where
  compare
    | source a, source b => compare a b
    | source _, inst _ => .lt
    | inst _, source _ => .gt
    | inst a, inst b => compare a b

/-- Places in the source come before the others, so that only places of one kind are compared. -/
instance : TransOrd Site where
  eq_swap {a b} := by
    cases a <;> cases b
    case source.source => exact OrientedOrd.eq_swap (α := Position)
    case inst.inst => exact OrientedOrd.eq_swap (α := InstId)
    case source.inst | inst.source => rfl
  isLE_trans {a b c} := by
    cases a <;> cases b <;> cases c
    case source.source.source => exact TransOrd.isLE_trans (α := Position)
    case inst.inst.inst => exact TransOrd.isLE_trans (α := InstId)
    case source.source.inst | source.inst.inst => exact fun _ _ => rfl
    case source.inst.source | inst.inst.source => exact fun _ h => absurd h Bool.false_ne_true
    case inst.source.source | inst.source.inst => exact fun h => absurd h Bool.false_ne_true

/-- The place of an instruction. -/
def ofInst (p : Program) (i : InstId) : Checked Site := do
  match (← p.inst i).loc with
  | some loc => return source loc.position
  | none => return inst i

/-- The position in the source. -/
def position? : Site → Option Position
  | source p => some p
  | inst _ => none

end Site

/-- A candidate: the call, and, if it is checked, the values that satisfy some of its conditions
and those that fail some of them. -/
structure Candidate where
  call : InstId
  checked : Option (RangeSet × RangeSet)
deriving DecidableEq, Repr

/-- The candidates found at each place, in the order in which they were found. -/
abbrev Sites := Table Site (List Candidate)

/-- Add a candidate. -/
def Sites.add (sites : Sites) (site : Site) (c : Candidate) : Sites :=
  sites.update site fun cs => cs.getD [] ++ [c]

/-- The standard score of a one-sided interval of 95 percent. -/
def wilsonZ : Float := 1.645

/-- A number brought between zero and one; a NaN stays one. -/
def clampUnit (x : Float) : Float := if x < 0 then 0 else if 1 < x then 1 else x

/-- **The lower end of the Wilson interval** for `positive` out of `total`. -/
def wilsonLower (positive total z : Float) : Float :=
  if total < 0.001 then 0
  else
    let p := positive / total
    let z2 := z * z
    let centre := p + z2 / (2 * total)
    let spread := z * ((p * (1 - p) + z2 / (4 * total)) / total).sqrt
    clampUnit ((centre - spread) / (1 + z2 / total))

/-- The score of a call that may reach some functions, from their averaged tallies. -/
def scoreOf (tallies : Table FuncId Tally) (callees : List FuncId) : Float :=
  let sum := (callees.map fun f => (tallies.get? f).getD {}).foldl Tally.add {}
  let amount := Float.ofNat callees.length
  let bad := Float.ofNat sum.bad / amount
  let total := Float.ofNat sum.total / amount
  wilsonLower (total - bad) total wilsonZ

/-- What scoring needs to know. -/
structure Scorer where
  program : Program
  graph : CallGraph
  errors : ErrorTable

namespace Scorer

variable (s : Scorer)

/-- The error values of some functions together, then what the candidates' checks let through. -/
def evidence (callees : List FuncId) (candidates : List Candidate) : List RangeSet :=
  let known := callees.filterMap fun f => s.errors.get? ⟨f, 0⟩
  let checked := candidates.filterMap (·.checked)
  (known.filter (!·.isEmpty)).foldl (· ∪ ·) .empty :: checked.flatMap fun c => [c.1, c.2]

/-- The report of one place, if it counts enough. The first candidate decides which functions are
concerned; calls of functions without effects are not reported. -/
def report? (kind : ViolationKind) (tallies : Table FuncId Tally) (threshold : Float) (site : Site)
    (candidates : List Candidate) : Checked (Option Violation) := do
  let some first := candidates.head? | return none
  let some callees := s.graph.callees? first.call | return none
  let callees := callees.toList
  if ← callees.allM fun f => return (← s.program.function f).attrs.pure then return none
  let score := scoreOf tallies callees
  if score < threshold then return none
  return some {
    location := site.position?
    kind
    confidence := score
    callees := ← callees.mapM fun f => return (← s.program.function f).name
    evidence := s.evidence callees candidates }

/-- **The reports of one kind**, in the order of their places. -/
def score (kind : ViolationKind) (sites : Sites) (tallies : Table FuncId Tally)
    (threshold : Float) : Checked (List Violation) :=
  sites.entries.filterMapM fun e => s.report? kind tallies threshold e.1 e.2

end Scorer

end ErrorReturns
