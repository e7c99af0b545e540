import ErrorReturns.Flow.Chain
import ErrorReturns.Learning.Evidence

/-!
# Error sides from handlers

A function that is called almost only on error paths, such as one that logs or cleans up, is
an error handler: it marks the side of a condition on which it is called as the error side.
Conditions that no similarity has decided are decided this way.
-/

namespace ErrorReturns

/-- The fewest calls on error paths of an error handler. -/
def handlerSupport : Nat := 10

/-- How many calls to handlers there are in a chain of blocks. -/
def Program.countHandlerCalls (p : Program) (g : CallGraph) (handlers : SortedSet FuncId)
    (blocks : List BlockId) : Checked Nat := do
  let insts ← blocks.mapM fun b => return (← p.block b).insts
  let calls ← insts.flatten.filterM fun i => return (← p.op i).isCall
  return calls.countP fun i => (g.calleeList i).any (· ∈ handlers)

/-- **The lead among successors**: the one with the most calls to handlers so far, the first if
there are several, and whether there are several. -/
structure Lead where
  block : BlockId
  calls : Nat
  tied : Bool := false
deriving Repr

namespace Lead

/-- Who leads after one more successor: with fewer calls it changes nothing, with as many it ties
the lead, and with more it takes over. -/
def after : Option Lead → BlockId × Nat → Lead
  | none, (s, calls) => { block := s, calls }
  | some lead, (s, calls) =>
    if calls < lead.calls then lead
    else if calls = lead.calls then { lead with tied := true }
    else { block := s, calls }

/-- The lead among counted successors, in one pass. -/
def among? (counted : List (BlockId × Nat)) : Option Lead :=
  counted.foldl (fun lead? e => some (after lead? e)) none

/-- The successor that leads alone, with at least one call. -/
def winner? (lead : Lead) : Option BlockId :=
  if 0 < lead.calls && !lead.tied then some lead.block else none

end Lead

/-- **The successor on the error side**: the one from which the chain of blocks calls more handlers
than from any other. -/
def Program.errorSuccessor? (p : Program) (g : CallGraph) (handlers : SortedSet FuncId)
    (b : BlockId) : Checked (Option BlockId) := do
  let successors := (SortedSet.ofList (p.successors b)).toList
  let counted ← successors.mapM fun s =>
    return (s, ← p.countHandlerCalls g handlers (p.chainForward s))
  return (Lead.among? counted).bind Lead.winner?

namespace Context

variable (c : Context)

/-- **The error handlers**: functions without known error values that are called on error paths
often enough. -/
def associate (errors : ErrorTable) (tallies : Table FuncId HandlerTally) : SortedSet FuncId :=
  let qualifies (e : FuncId × HandlerTally) : Bool :=
    !errors.contains ⟨e.1, 0⟩ && handlerSupport ≤ e.2.inError &&
      c.settings.associationConfidence ≤ e.2.fraction
  .ofList ((tallies.entries.filter qualifies).map (·.1))

/-- The match that handlers give for a condition. -/
def matchByHandlers? (handlers : SortedSet FuncId) (cond : Condition) : Checked (Option Match) := do
  let b ← cond.block c.program
  return (← c.program.errorSuccessor? c.graph handlers b).map Match.ofErrorBlock

/-- **The evidence of handlers** in a function, for the comparisons not yet decided. -/
def handlerEvidence (f : FuncId) (handlers : SortedSet FuncId) (decided : List CheckId) :
    Checked Evidence := do
  if handlers.isEmpty then return {}
  let undecided := (c.identifiedConditions f).filter fun (id, cond) =>
    cond.isComparison && id ∉ decided
  let matched ← undecided.foldlM (fun t (id, cond) => do
    match ← c.matchByHandlers? handlers cond with
    | some m => return t.insert id m
    | none => return t) (Table.empty : Table CheckId Match)
  return { matched, observed := ← c.observations matched }

end Context

end ErrorReturns
