import ErrorReturns.Finding
import ErrorReturns.Learning
import ErrorReturns.Program.Defect

/-!
# Whole analyses

An analysis takes the defined functions that the settings allow, leaves out those with a
structural defect, extracts their conditions, learns error returns and finds violations.
-/

namespace ErrorReturns

/-- Everything an analysis brings. -/
structure Outcome where
  knowledge : Knowledge
  violations : List Violation
  /-- The functions left out because of a defect. -/
  rejected : List (FuncId × Defect)
  learned : LearningReport
deriving Repr

/-- A name that no function of the program has. -/
structure UnknownFunction where
  name : String
deriving DecidableEq, Repr

/-- The description of an unknown name. -/
def UnknownFunction.message (e : UnknownFunction) : String :=
  s!"no function named {e.name} in the program"

/-- What is analysed: a program, its call graph, an alias oracle and the settings. -/
structure Analysis where
  program : Program
  graph : CallGraph
  mayAlias : AliasOracle
  settings : Settings

namespace Analysis

variable (a : Analysis)

/-- A context without functions. -/
def emptyContext : Context := ⟨a.program, a.graph, a.mayAlias, a.settings, {}⟩

/-- Put a function under analysis, or leave it out because of a defect. -/
def enrol (acc : Context × List (FuncId × Defect)) (f : FuncId) :
    Checked (Context × List (FuncId × Defect)) := do
  let (context, rejected) := acc
  let function ← a.program.function f
  if function.isDeclaration || !a.settings.isAllowed function.name then return acc
  match ← a.program.defect? f with
  | some defect => return (context, rejected ++ [(f, defect)])
  | none => return (context.addFunction f (← a.program.conditionsOf a.mayAlias f), rejected)

/-- The functions under analysis, and those left out. -/
def prepare : Checked (Context × List (FuncId × Defect)) :=
  a.program.functionIds.foldlM a.enrol (a.emptyContext, [])

/-- **Run the analysis.** -/
def run : Checked Outcome := do
  let (context, rejected) ← a.prepare
  let (learned, knowledge) ← context.learn {}
  let (violations, knowledge) ← context.find knowledge
  return { knowledge, violations, rejected, learned }

/-- The analysis of a program by its calls by name and by comparing addresses. -/
def ofProgram (p : Program) (settings : Settings) : Checked Analysis :=
  return ⟨p, ← CallGraph.ofDirectCalls p, AliasOracle.basic, settings⟩

end Analysis

/-- The error values found for the function of a given name. -/
def Outcome.errorsOf (o : Outcome) (p : Program) (name : String) :
    Except UnknownFunction (Option RangeSet) :=
  match p.functionNamed? name with
  | some f => .ok (o.knowledge.errors.get? ⟨f, 0⟩)
  | none => .error ⟨name⟩

end ErrorReturns
