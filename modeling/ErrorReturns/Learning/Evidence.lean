import ErrorReturns.Context

/-!
# Evidence about error sides

Learning decides for as many conditions as it can which side of them handles the error. For
each decided condition a record is kept of the match that decided it, and better matches
replace worse ones. Each checked call whose error side is known then gives one observation:
the values it has on that side.
-/

namespace ErrorReturns

/-- **How a condition was decided**: the first block of its error side, and how good the match
was. Fewer conditional branches (`sum`) are better, then a longer common subsequence, then a
shorter path. -/
structure Match where
  errorBlock : Option BlockId
  common : UInt16
  length : UInt16
  sum : UInt16
deriving DecidableEq, Repr

namespace Match

/-- A condition decided without comparing paths. -/
def ofErrorBlock (b : BlockId) : Match := ⟨some b, 0, 0, 0⟩

/-- Whether a match replaces the one in force, if there is one. -/
def replaces (candidate : Match) (current : Option Match) : Bool :=
  let (common, length, sum) := match current with
    | some m => (m.common, m.length, m.sum)
    | none => (0, 65535, 65535)
  candidate.sum < sum ||
    (common < candidate.common && candidate.sum ≤ sum) ||
    (common ≤ candidate.common && candidate.length ≤ length && candidate.sum ≤ sum)

end Match

/-- How often a function is called on error paths and elsewhere. -/
structure HandlerTally where
  inError : Nat := 0
  notInError : Nat := 0
deriving DecidableEq, Repr

namespace HandlerTally

/-- The share of the calls on error paths. -/
def fraction (t : HandlerTally) : Float :=
  match t.inError + t.notInError with
  | 0 => 0
  | total => Float.ofNat t.inError / Float.ofNat total

/-- Count one call. -/
def record (t : HandlerTally) (onErrorPath : Bool) : HandlerTally :=
  if onErrorPath then { t with inError := t.inError + 1 }
  else { t with notInError := t.notInError + 1 }

/-- Add up two tallies. -/
def add (a b : HandlerTally) : HandlerTally :=
  ⟨a.inError + b.inError, a.notInError + b.notInError⟩

end HandlerTally

/-- **Evidence**, of one function or of several: the decided conditions, the calls on error paths,
and the observations. -/
structure Evidence where
  matched : Table CheckId Match := {}
  handlers : Table FuncId HandlerTally := {}
  observed : Histograms := {}
deriving Repr

namespace Evidence

/-- Add the evidence of a function. -/
def merge (e other : Evidence) : Evidence where
  matched := other.matched.entries.foldl (fun t m => t.insert m.1 m.2) e.matched
  handlers := other.handlers.entries.foldl
    (fun t h => t.update h.1 fun old => (old.getD {}).add h.2) e.handlers
  observed := e.observed.merge other.observed

/-- The conditions of a function that are decided. -/
def matchedIn (e : Evidence) (f : FuncId) : List CheckId :=
  e.matched.keys.filter (·.function == f)

end Evidence

/-! ## Observations -/

/-- A call and the slot of its result that is checked. -/
structure CheckedCall where
  call : InstId
  slot : Nat
deriving DecidableEq, Repr

/-- Checked calls are ordered by their calls. -/
instance : Ord CheckedCall where
  compare a b := (compare a.call b.call).then (compare a.slot b.slot)

instance : Std.TransOrd CheckedCall :=
  inferInstanceAs
    (Std.TransCmp (compareLex (compareOn CheckedCall.call) (compareOn CheckedCall.slot)))

/-- The values of a checked call on the error side of a condition. A comparison that decides no
branch, is not about a call or is not with a constant says nothing. -/
def Program.errorValues? (p : Program) (cond : Condition) (m : Match) :
    Checked (Option (CheckedCall × RangeSet)) := do
  match cond with
  | .comparison lhs pred rhs _ true =>
    let some call ← p.callOf? lhs.value | return none
    let pred ← match ← p.terminatorOp? (← cond.block p) with
      | some (.branch _ _ ifFalse) =>
        pure (if m.errorBlock = some ifFalse then pred.inverse else pred)
      | _ => pure pred
    let some rhs := rhs.word32? | return none
    return some (⟨call, lhs.slot⟩, RangeSet.full.narrow pred rhs)
  | _ => return none

namespace Context

variable (c : Context)

/-- The values of each checked call on the error sides of its decided conditions. -/
def errorValuesByCall (matched : Table CheckId Match) : Checked (Table CheckedCall RangeSet) :=
  matched.entries.foldlM (fun t (id, m) => do
    let some cond := c.condition? id | return t
    let some (call, s) ← c.program.errorValues? cond m | return t
    return t.update call fun old => old.getD .empty ∪ s) {}

/-- Count the values of each checked call once, for every function it may reach. Calls whose targets
are only coarsely known give nothing. -/
def observeCalls (values : Table CheckedCall RangeSet) (hs : Histograms) : Histograms :=
  values.entries.foldl (fun hs (checked, s) =>
    if c.graph.isCoarse checked.call then hs
    else (c.graph.calleeList checked.call).foldl (fun hs f => hs.observe ⟨f, checked.slot⟩ s) hs) hs

/-- **Add one observation for each checked call** with a decided condition. -/
def addObservations (matched : Table CheckId Match) (hs : Histograms) : Checked Histograms := do
  return c.observeCalls (← c.errorValuesByCall matched) hs

/-- The observations of some decided conditions. -/
def observations (matched : Table CheckId Match) : Checked Histograms :=
  c.addObservations matched {}

end Context

end ErrorReturns
