import ErrorReturns.Context
import ErrorReturns.Finding.Score
import ErrorReturns.Learning.Propagation
import ErrorReturns.Trace.Origin

/-!
# Missing checks

A call that may fail has to be checked, or its result has to be returned, which passes the
duty on to the callers. A function that returns such a result unchecked has error values
itself; these are proposed for it, and if it has none yet they become known, and its callers
are looked at again. This goes on in rounds until nothing new comes up.
-/

namespace ErrorReturns

/-- The candidates and tallies of missing checks. -/
structure MissingState where
  tallies : Table FuncId Tally := {}
  sites : Sites := {}
  /-- The calls already counted. -/
  visited : List InstId := []
  /-- The locations of inlined code already counted. -/
  visitedInlined : List SourceLoc := []
deriving Repr

/-- **Error values proposed for a function**, and the functions they were learned from. -/
structure Proposal where
  values : RangeSet := .empty
  learnedFrom : SortedSet FuncId := {}
deriving Repr

/-- What one round brings: new error values, better ones, and the functions to look at next. -/
structure Round where
  learned : ErrorTable := {}
  replaced : ErrorTable := {}
  next : SortedSet FuncId := {}
deriving Repr

/-- Everything that changes while missing checks are sought. -/
structure MissingSearch where
  confidence : Table ReturnSlot Float
  round : Round := {}
  /-- The pairs of a caller and a function that have been passed on. -/
  handled : List (FuncId × FuncId) := []
  state : MissingState := {}
deriving Repr

/-! ## Returned error values -/

namespace Program

variable (p : Program)

/-- Go up from a block as long as it is the only way out of its only predecessor. Each step
visits a new block. -/
def climb : (steps : Nat) → List BlockId → BlockId → BlockId
  | 0, _, b => b
  | steps + 1, visited, b =>
    match p.uniquePredecessor? b with
    | some a =>
      if (p.successors a).length = 1 ∧ a ∉ visited then climb steps (a :: visited) a else b
    | none => b

/-- The first of the blocks that are always run together with the block of an instruction. -/
def rootOf (i : InstId) : Checked BlockId := do
  let b ← p.blockOf i
  return p.climb p.blocks.size [b] b

/-- Whether the result of an instruction is sign-extended somewhere. -/
def isSignExtended (i : InstId) : Checked Bool := do
  (← p.users i).anyM fun u => return (← p.op u) matches .cast .sext _

/-- The operand that a path returns. -/
def returnedOperand? (path : List BlockId) : Checked (Option Value) := do
  let some last := path.getLast? | return none
  match ← p.terminatorOp? last with
  | some (.ret v) => return v
  | _ => return none

/-- The calls of a function whose results reach a comparison, a conditional branch or a return. -/
def consumedCalls (f : FuncId) : Checked (SortedSet InstId) := do
  (← p.instsIn f).foldlM (fun calls i => do
    match ← p.op i with
    | .cmp _ lhs _ => p.collectCalls lhs calls
    | .branch cond _ _ => p.collectCalls cond calls
    | .ret (some v) => p.collectCalls v calls
    | _ => return calls) {}

end Program

namespace Context

variable (c : Context)

/-- What a path contributes that returns a comparison: the number that stands for its truth on the
error side. -/
def proposeComparison (errors : ErrorTable) (path : List BlockId) (cmp : InstId) (pred : Predicate)
    (lhs rhs : Value) (prop : Proposal) : Checked Proposal := do
  let some checked ← c.program.resolveAlong c.mayAlias path (some lhs) | return prop
  let some call ← c.program.callOf? checked | return prop
  let some rhs := rhs.word32? | return prop
  let some errorWhenTrue := errors.errorBranch? c.graph pred 0 rhs call | return prop
  let returned : Int ←
    if errorWhenTrue then pure (if ← c.program.isSignExtended cmp then -1 else 1) else pure 0
  return ⟨prop.values ∪ .singleton returned, prop.learnedFrom.insertMany (c.graph.calleeList call)⟩

/-- What a path contributes that returns a call: the common error values of the functions it may
reach. -/
def proposeCall (errors : ErrorTable) (call : InstId) (prop : Proposal) : Proposal :=
  let known := (c.graph.calleeList call).filterMap fun f =>
    (errors.get? ⟨f, 0⟩).bind fun s => if s.isEmpty then none else some (f, s)
  let common := known.foldl (fun acc e => acc ∩ e.2) RangeSet.full
  ⟨prop.values ∪ common, prop.learnedFrom.insertMany (known.map (·.1))⟩

/-- What a path contributes, and the call it returns, which then needs no check here. -/
def proposeFromPath (errors : ErrorTable) (acc : Proposal × List InstId) (path : List BlockId) :
    Checked (Proposal × List InstId) := do
  let (prop, returned) := acc
  let some v ← c.program.returnedOperand? path | return acc
  let resolved? ← c.program.resolveAlong c.mayAlias path (some v)
  let returned := match (resolved?.getD v).inst? with
    | some i => i :: returned
    | none => returned
  let some resolved := resolved? | return (prop, returned)
  match resolved, ← c.program.opOf? resolved with
  | .inst i, some (.cmp pred lhs rhs) =>
    return (← c.proposeComparison errors path i pred lhs rhs prop, returned)
  | .inst i, some (.call _ _) => return (c.proposeCall errors i prop, returned)
  | _, _ => return (prop, returned)

/-- **The error values that a function returns** from failing calls without a check, and the calls
that it returns. -/
def proposal (errors : ErrorTable) (candidates : SortedSet InstId) :
    Checked (Proposal × List InstId) := do
  let roots := SortedSet.ofList (← candidates.toList.mapM c.program.rootOf)
  roots.toList.foldlM (fun acc root => do
    let paths ← c.program.pathsFrom [] root ⟨[], none⟩
    (paths.map Path.blocks).foldlM (c.proposeFromPath errors) acc) ({}, [])

/-- **Which of two opinions counts.** The confidence of proposed values, if they replace the present
ones: when their sources are surer on average, or, if nothing is known about the present ones,
when there is more than one source. -/
def arbitrate? (confidence : Table ReturnSlot Float) (slot : ReturnSlot)
    (learnedFrom : SortedSet FuncId) : Option Float :=
  let confidences := learnedFrom.toList.map fun f => (confidence.get? ⟨f, 0⟩).getD 0
  let average :=
    if confidences.isEmpty then 0
    else confidences.foldl (· + ·) (-0.0) / Float.ofNat confidences.length
  let replaces : Bool := match confidence.get? slot with
    | some current => current < average
    | none => 1 < learnedFrom.size
  if replaces then some average else none

/-- Take up a proposal for a function: as new values if it has none, and else by arbitration. -/
def takeUp (errors : ErrorTable) (f : FuncId) (prop : Proposal) (s : MissingSearch) :
    MissingSearch :=
  let slot : ReturnSlot := ⟨f, 0⟩
  if errors.contains slot then
    match arbitrate? s.confidence slot prop.learnedFrom with
    | some average =>
      { s with
        confidence := s.confidence.insert slot average
        round := { s.round with replaced := s.round.replaced.insertIfNew slot prop.values } }
    | none => s
  else { s with round := { s.round with learned := s.round.learned.insertIfNew slot prop.values } }

/-- Pass a function on to one of its callers, unless this has been done. -/
def passOn (f : FuncId) (s : MissingSearch) (caller : FuncId) : MissingSearch :=
  if (caller, f) ∈ s.handled then s
  else
    { s with
      handled := (caller, f) :: s.handled
      round := { s.round with next := s.round.next.insert caller } }

/-- The rule for returned errors: propose error values for a function and pass it on to its
callers. The calls it returns are given back. -/
def applyReturnRule (errors : ErrorTable) (f : FuncId) (candidates : SortedSet InstId)
    (s : MissingSearch) : Checked (MissingSearch × List InstId) := do
  if (← c.program.function f).ret.isVoid || candidates.isEmpty then return (s, [])
  let (prop, returned) ← c.proposal errors candidates
  if prop.values.isEmpty || prop.values.isFull then return (s, returned)
  let callers ← c.graph.callingFunctions c.program f
  return (callers.foldl (passOn f) (takeUp errors f prop s), returned)

/-! ## Unchecked calls -/

/-- The calls of a function that may reach one with known error values. -/
def failingCalls (errors : ErrorTable) (f : FuncId) : Checked (SortedSet InstId) := do
  let calls := (← c.program.callsIn f).filter fun call =>
    (c.graph.calleeList call).any fun g => (errors.get? ⟨g, 0⟩).any (!·.isEmpty)
  return .ofList calls

/-- Count a call that has no condition. Each call and each location of inlined code counts once;
calls that yield addresses do not count. -/
def countCall (consumed : SortedSet InstId) (s : MissingState) (call : InstId) :
    Checked MissingState := do
  let inst ← c.program.inst call
  if inst.ty.isPtr || call ∈ s.visited then return s
  let s := { s with visited := call :: s.visited }
  let inlined := inst.loc.filter (!·.inlinedAt.isEmpty)
  if inlined.any (· ∈ s.visitedInlined) then return s
  let s := { s with visitedInlined := inlined.toList ++ s.visitedInlined }
  let some callees := c.graph.callees? call | return s
  let unchecked : Bool := call ∉ consumed
  let s := { s with
    tallies := callees.toList.foldl
      (fun t f => t.update f fun old => (old.getD {}).record unchecked) s.tallies }
  if unchecked then
    return { s with sites := s.sites.add (← Site.ofInst c.program call) ⟨call, none⟩ }
  return s

/-- Look at one function: apply the rule for returned errors, then count the failing calls that are
neither returned nor under a condition. -/
def examine (errors : ErrorTable) (s : MissingSearch) (f : FuncId) : Checked MissingSearch := do
  let candidates ← c.failingCalls errors f
  let (s, returned) ← c.applyReturnRule errors f candidates s
  let checked := (c.conditionsOf f).filterMap (·.lhs.value.inst?)
  match candidates.toList.filter fun call => call ∉ returned ∧ call ∉ checked with
  | [] => return s
  | unchecked =>
    let consumed ← c.program.consumedCalls f
    return { s with state := ← unchecked.foldlM (c.countCall consumed) s.state }

/-! ## Rounds -/

/-- What is known after a round: replaced values first, then new ones. -/
def Round.apply (r : Round) (errors : ErrorTable) : ErrorTable :=
  (r.replaced.entries.foldl (fun t e => t.insert e.1 e.2) errors).mergeUnion r.learned

/-- Look at some functions, with the knowledge of the start of the round. -/
def runRound (errors : ErrorTable) (pending : List FuncId) (s : MissingSearch) :
    Checked MissingSearch :=
  (pending.filter c.isAnalysed).foldlM (c.examine errors) { s with round := {} }

/-- Look at functions in rounds until one learns nothing or leaves nothing to look at. Each further
round passes on a new pair of a caller and a function, so their number bounds the rounds. -/
def runRounds : (rounds : Nat) → ErrorTable → List FuncId → MissingSearch →
    Checked (ErrorTable × MissingSearch)
  | 0, _, _, _ => .error .tooDeep
  | rounds + 1, errors, pending, s => do
    let s ← c.runRound errors pending s
    let errors := Round.apply s.round errors
    if s.round.learned.isEmpty || s.round.next.isEmpty then return (errors, s)
    runRounds rounds errors s.round.next.toList s

/-- **Find missing checks**, and the error values that come to light on the way. -/
def findMissing (k : Knowledge) : Checked (Knowledge × MissingState) := do
  let (errors, s) ←
    c.runRounds (c.graph.edgeCount + 1) k.errors c.analysed { confidence := k.confidence }
  return (⟨errors, s.confidence⟩, s.state)

end Context

end ErrorReturns
