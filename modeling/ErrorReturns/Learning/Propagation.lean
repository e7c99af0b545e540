import ErrorReturns.Learning.Handlers

/-!
# Error values of callers

A function that checks a failing call and returns a constant on the error side returns an
error itself. So does one that returns a constant after calling an error handler. Functions
are visited from a stack, each at most once, and a function about which something was found
out puts its callers on the stack.
-/

namespace ErrorReturns

/-- The constant that a return yields along a path. -/
def Program.returnedSet? (p : Program) (mayAlias : AliasOracle) (path : List BlockId)
    (ret : InstId) : Checked (Option RangeSet) := do
  match ← p.op ret with
  | .ret v =>
    let resolved ← p.resolveAlong mayAlias path v
    return (resolved.bind Value.word32?).map RangeSet.singleton
  | _ => return none

/-- The return that ends a path. -/
def Program.finalReturn? (p : Program) (path : List BlockId) : Checked (Option InstId) := do
  let some last := path.getLast? | return none
  let some ret ← p.terminator? last | return none
  return if (← p.op ret).isReturn then some ret else none

/-- **What propagation has brought**: the error values known, and how many functions gained some. -/
structure Propagated where
  errors : ErrorTable
  gained : Nat := 0
deriving Repr

/-- Add what was found out about a function. -/
def Propagated.gain (known : Propagated) (f : FuncId) (s : RangeSet) : Propagated :=
  ⟨known.errors.mergeUnion (Table.empty.insert ⟨f, 0⟩ s), known.gained + 1⟩

namespace Context

variable (c : Context)

/-- The constant returned along a path and the chain before it. -/
def returnedAlong? (path : List BlockId) : Checked (Option RangeSet) := do
  let some ret ← c.program.finalReturn? path | return none
  c.program.returnedSet? c.mayAlias (c.program.extendBackward path) ret

/-- The union of the sets that were found, if any was. -/
def unionFound (found : List (Option RangeSet)) : Option RangeSet :=
  match found.filterMap id with
  | [] => none
  | sets => some (sets.foldl (· ∪ ·) .empty)

/-! ## The worklist -/

/-- Visit functions from a stack, the last one first, each at most once. `learn` says what is
found out about a function; the callers of one about which something was found out go on the
stack. The steps are bounded by how many functions are ever put on it. -/
def visitFrom (learn : ErrorTable → FuncId → Checked (Option RangeSet)) :
    (steps : Nat) → (stack seen : List FuncId) → Propagated → Checked Propagated
  | 0, _, _, _ => .error .tooDeep
  | _ + 1, [], _, known => return known
  | steps + 1, f :: stack, seen, known => do
    if f ∈ seen then visitFrom learn steps stack seen known
    else
      match ← learn known.errors f with
      | none => visitFrom learn steps stack (f :: seen) known
      | some s =>
        let callers ← c.graph.callingFunctions c.program f
        visitFrom learn steps (callers.reverse ++ stack) (f :: seen) (known.gain f s)

/-- Visit the callers of some functions. -/
def visitCallers (learn : ErrorTable → FuncId → Checked (Option RangeSet)) (fs : List FuncId)
    (errors : ErrorTable) : Checked Propagated := do
  let callers := (← fs.mapM (c.graph.callingFunctions c.program)).flatten
  c.visitFrom learn (callers.length + c.graph.edgeCount + 1) callers.reverse [] { errors }

/-- Whether a function can have error values of its own: it is under analysis, returns
something, and does not always return one constant. -/
def canLearn (f : FuncId) : Checked Bool := do
  if (← c.program.function f).ret.isVoid || !c.isAnalysed f then return false
  return !(← c.program.returnsSingleConstant f)

/-! ## Constants returned after a failed check -/

/-- The constants returned on the error side of a condition: beyond the true side of a branch, up to
the blocks of the other conditions and the false side. -/
def returnedAfter (errors : ErrorTable) (boundary : List BlockId) (cond : Condition) :
    Checked (List (Option RangeSet)) := do
  match cond with
  | .comparison lhs pred rhs _ _ =>
    let some call ← c.program.callOf? lhs.value | return []
    let some rhs := rhs.word32? | return []
    if errors.errorBranch? c.graph pred lhs.slot rhs call ≠ some true then return []
    let block ← cond.block c.program
    match ← c.program.terminatorOp? block with
    | some (.branch _ ifTrue ifFalse) =>
      let paths ← c.program.pathsFrom (ifFalse :: boundary) ifTrue ⟨[block], none⟩
      paths.mapM fun path => c.returnedAlong? path.blocks
    | _ => return []
  | .fallback _ _ => return []

/-- What a function returns on the error sides of its conditions, unless it has an entry. -/
def learnFromChecks (errors : ErrorTable) (f : FuncId) : Checked (Option RangeSet) := do
  if !(← c.canLearn f) || errors.contains ⟨f, 0⟩ then return none
  let conditions := c.conditionsOf f
  let boundary ← conditions.mapM fun cond => cond.block c.program
  let found ← conditions.mapM (c.returnedAfter errors boundary)
  return unionFound found.flatten

/-- Visit the callers of the functions with error values. -/
def visitCheckers (errors : ErrorTable) : Checked Propagated :=
  let known := (errors.entries.filter (!·.2.isEmpty)).map (·.1.function)
  c.visitCallers c.learnFromChecks known errors

/-- **Propagate error values to callers** that check them and return constants. -/
def propagateChecked (errors : ErrorTable) : Checked ErrorTable :=
  return (← c.visitCheckers errors).errors

/-! ## Constants returned after a handler -/

/-- The constant returned after the handlers called on one side of a block. -/
def returnedAfterHandler? (handlers : SortedSet FuncId) (b : BlockId) :
    Checked (Option RangeSet) := do
  match ← c.program.errorSuccessor? c.graph handlers b with
  | some s => c.returnedAlong? (b :: c.program.chainForward s)
  | none => return none

/-- What a function returns after calling handlers. -/
def learnFromHandlers (handlers : SortedSet FuncId) (_ : ErrorTable) (f : FuncId) :
    Checked (Option RangeSet) := do
  if !(← c.canLearn f) then return none
  let found ← (← c.program.function f).blocks.mapM (c.returnedAfterHandler? handlers)
  return unionFound found

/-- Visit the callers of handlers. -/
def visitHandlerCallers (handlers : SortedSet FuncId) (errors : ErrorTable) : Checked Propagated :=
  c.visitCallers (c.learnFromHandlers handlers) handlers.toList errors

/-- **Learn error values from calls of handlers.** -/
def propagateHandlers (handlers : SortedSet FuncId) (errors : ErrorTable) : Checked ErrorTable :=
  return (← c.visitHandlerCallers handlers errors).errors

end Context

end ErrorReturns
