import ErrorReturns.Condition
import ErrorReturns.Flow.Path
import ErrorReturns.Histogram
import ErrorReturns.Settings

/-!
# The context of an analysis

Every stage of an analysis reads the same context: the program, its call graph, an alias
oracle, the settings, and the functions under analysis with their conditions. What the stages
find out about error returns is knowledge, which each stage takes and hands on.
-/

namespace ErrorReturns

/-- What every stage reads. -/
structure Context where
  program : Program
  graph : CallGraph
  mayAlias : AliasOracle
  settings : Settings
  /-- The functions under analysis, with their conditions. -/
  conditions : Table FuncId (List Condition) := {}

namespace Context

variable (c : Context)

/-- Put a function under analysis. -/
def addFunction (f : FuncId) (conditions : List Condition) : Context :=
  { c with conditions := c.conditions.insert f conditions }

/-- Whether a function is under analysis. -/
def isAnalysed (f : FuncId) : Bool := c.conditions.contains f

/-- The functions under analysis, in order. -/
def analysed : List FuncId := c.conditions.keys

/-- The conditions of a function. -/
def conditionsOf (f : FuncId) : List Condition := (c.conditions.get? f).getD []

/-- The conditions of a function with their places. -/
def identifiedConditions (f : FuncId) : List (CheckId × Condition) :=
  (c.conditionsOf f).zipIdx.map fun (cond, n) => (⟨f, n⟩, cond)

/-- The condition at a place. -/
def condition? (id : CheckId) : Option Condition := (c.conditionsOf id.function)[id.index]?

/-- How many conditions there are. -/
def conditionCount : Nat := c.conditions.values.foldr (fun cs n => cs.length + n) 0

/-- The functions of a module that are under analysis. -/
def analysedIn (m : ModuleId) : Checked (List FuncId) := do
  return (← c.program.module m).functions.filter c.isAnalysed

/-- Carry a state through the functions under analysis, module by module. -/
def foldAnalysed {σ : Type} (step : σ → FuncId → Checked σ) (init : σ) : Checked σ :=
  c.program.moduleIds.foldlM (fun s m => do (← c.analysedIn m).foldlM step s) init

end Context

/-- What is known about error returns, and how sure it is. -/
structure Knowledge where
  errors : ErrorTable := {}
  /-- The share of the observations that agree with an entry. -/
  confidence : Table ReturnSlot Float := {}
deriving Repr

end ErrorReturns
