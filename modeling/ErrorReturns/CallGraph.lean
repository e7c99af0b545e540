import ErrorReturns.Program.Basic
import ErrorReturns.SortedSet
import ErrorReturns.Table

/-!
# Call graphs

A call graph says which functions a call may reach, and from which calls a function may be
reached. Calls by name are read off the program; where a call through an address may go is
told from outside. Targets that come from a coarse analysis only are marked, since nothing is
learned from such calls.
-/

namespace ErrorReturns

/-- Which functions each call may reach, and the reverse. -/
structure CallGraph where
  targets : Table InstId (SortedSet FuncId) := {}
  sources : Table FuncId (SortedSet InstId) := {}
  /-- Calls whose targets were found by a coarse analysis. -/
  coarse : SortedSet InstId := {}
deriving Repr

namespace CallGraph

/-- Note that a call may reach a function. -/
def addTarget (g : CallGraph) (call : InstId) (f : FuncId) : CallGraph :=
  { g with
    targets := g.targets.update call fun fs => (fs.getD {}).insert f
    sources := g.sources.update f fun cs => (cs.getD {}).insert call }

/-- Note where a call through an address may go. -/
def addIndirect (g : CallGraph) (call : InstId) (fs : List FuncId) (isCoarse : Bool) : CallGraph :=
  let g := fs.foldl (fun g f => g.addTarget call f) g
  if isCoarse then { g with coarse := g.coarse.insert call } else g

/-- The functions a call may reach; none is known for a call without targets. -/
def callees? (g : CallGraph) (call : InstId) : Option (SortedSet FuncId) := g.targets.get? call

/-- The functions that the call behind an operand may reach. -/
def calleesOf? (g : CallGraph) (v : Value) : Option (SortedSet FuncId) := v.inst?.bind g.callees?

/-- The functions a call may reach, in order. -/
def calleeList (g : CallGraph) (call : InstId) : List FuncId :=
  ((g.callees? call).getD {}).toList

/-- The calls that may reach a function, in order. -/
def callers (g : CallGraph) (f : FuncId) : List InstId := ((g.sources.get? f).getD {}).toList

/-- The functions that call a function, one for each call. -/
def callingFunctions (g : CallGraph) (p : Program) (f : FuncId) : Checked (List FuncId) :=
  (g.callers f).mapM p.functionOf

/-- How many pairs of a call and a function it may reach there are. -/
def edgeCount (g : CallGraph) : Nat := g.sources.values.foldr (fun calls n => calls.size + n) 0

/-- Whether the targets of a call come from a coarse analysis. -/
def isCoarse (g : CallGraph) (call : InstId) : Bool := call ∈ g.coarse

/-- Add the target of a call by name, unless it is an annotation of the compiler. -/
def addDirect (p : Program) (g : CallGraph) (call : InstId) : Checked CallGraph := do
  match ← p.directCallee? call with
  | some f => return if (← p.function f).attrs.intrinsic then g else g.addTarget call f
  | none => return g

/-- **The calls by name** of a program. -/
def ofDirectCalls (p : Program) : Checked CallGraph :=
  p.functionIds.foldlM (fun g f => do (← p.callsIn f).foldlM (addDirect p) g) {}

end CallGraph

end ErrorReturns
