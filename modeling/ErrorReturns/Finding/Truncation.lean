import ErrorReturns.Context
import ErrorReturns.Finding.Violation

/-!
# Truncated error values

An error value that is cut to fewer bits may turn into something else. A result that is also
compared or switched on directly is taken to be checked in full; otherwise every conversion to
a width that cannot hold all error values is reported.
-/

namespace ErrorReturns

/-- How sure the error values of a slot are. -/
def Knowledge.confidenceOf (k : Knowledge) (slot : ReturnSlot) : Float :=
  (k.confidence.get? slot).getD 1

/-- Whether a word of a width holds every value between two bounds. -/
def fitsWidth (bits : Nat) (low high : Int) : Bool :=
  Word.lowest bits ≤ low && high ≤ Word.highest bits

namespace Context

variable (c : Context)

/-- Whether the result of a call is compared or switched on directly. -/
def isTestedDirectly (users : List InstId) : Checked Bool :=
  users.anyM fun u => do
    match ← c.program.op u with
    | .cmp _ _ _ | .switch _ _ _ => return true
    | _ => return false

/-- Whether an instruction cuts its operand to a width that cannot hold the values between two
bounds. -/
def losesValues (low high : Int) (user : InstId) : Checked Bool := do
  let inst ← c.program.inst user
  match inst.op, inst.ty with
  | .cast .trunc _, .int bits => return 0 < bits && bits < 64 && !fitsWidth bits low high
  | _, _ => return false

/-- The report of a truncation. It stands where the truncation does, or else where the call does. -/
def truncationReport (k : Knowledge) (f : FuncId) (s : RangeSet) (call user : InstId) :
    Checked Violation := do
  let loc := (← c.program.inst user).loc <|> (← c.program.inst call).loc
  return {
    location := loc.map (·.position)
    kind := .truncation
    confidence := k.confidenceOf ⟨f, 0⟩
    callees := [(← c.program.function f).name]
    evidence := [s] }

/-- The truncations of a call's result. -/
def truncationsOfCall (k : Knowledge) (f : FuncId) (s : RangeSet) (low high : Int) (call : InstId) :
    Checked (List Violation) := do
  if !c.isAnalysed (← c.program.functionOf call) then return []
  let users ← c.program.users call
  if ← c.isTestedDirectly users then return []
  (← users.filterM (c.losesValues low high)).mapM (c.truncationReport k f s call)

/-- The truncations of a function's error values. -/
def truncationsOf (k : Knowledge) (slot : ReturnSlot) (s : RangeSet) :
    Checked (List Violation) := do
  match slot.slot, s.lowest?, s.highest? with
  | 0, some low, some high =>
    let calls := c.graph.callers slot.function
    return (← calls.mapM (c.truncationsOfCall k slot.function s low high)).flatten
  | _, _, _ => return []

/-- **Every truncation of error values**, by function, call and conversion. -/
def findTruncations (k : Knowledge) : Checked (List Violation) := do
  return (← k.errors.entries.mapM fun e => c.truncationsOf k e.1 e.2).flatten

end Context

end ErrorReturns
