import ErrorReturns.Context
import ErrorReturns.Finding.Score
import ErrorReturns.Learning.Evidence

/-!
# Incorrect checks

A check does not say which of its sides is the error side. It is correct if the error values
of every function concerned lie on one side: if all of them satisfy some condition on the
checked value, or all of them fail some condition on it.
-/

namespace ErrorReturns

/-- The values that satisfy some condition on a checked value, and those that fail some. -/
structure Sides where
  satisfying : RangeSet := .empty
  failing : RangeSet := .empty
deriving Repr

/-- Add a condition. -/
def Sides.add (s : Sides) (pred : Predicate) (rhs : Int) : Sides :=
  ⟨s.satisfying ∪ RangeSet.full.narrow pred rhs, s.failing ∪ RangeSet.full.narrow pred.inverse rhs⟩

/-- The candidates and tallies of incorrect checks. -/
structure IncorrectState where
  tallies : Table FuncId Tally := {}
  sites : Sites := {}
deriving Repr

/-- What one function contributes. -/
structure IncorrectEvidence where
  tallies : Table FuncId Tally := {}
  candidates : List (Site × Candidate) := []
deriving Repr

/-- Add what a function contributes. -/
def IncorrectState.merge (s : IncorrectState) (e : IncorrectEvidence) : IncorrectState where
  tallies := e.tallies.entries.foldl
    (fun t (f, tally) => t.update f fun old => (old.getD {}).add tally) s.tallies
  sites := e.candidates.foldl (fun sites (site, candidate) => sites.add site candidate) s.sites

namespace Context

variable (c : Context)

/-- The sides of each checked call of a function. Conditions that compare with anything but a
constant do not count. -/
def sidesOf (f : FuncId) : Checked (Table CheckedCall Sides) :=
  (c.conditionsOf f).foldlM (fun t cond => do
    match cond with
    | .comparison lhs pred rhs _ _ =>
      let some rhs := rhs.word32? | return t
      let some call ← c.program.callOf? lhs.value | return t
      return t.update ⟨call, lhs.slot⟩ fun old => (old.getD {}).add pred rhs
    | .fallback _ _ => return t) {}

/-- Whether the known error values of every function in question lie in a set. Functions without
known error values, or for which every value is one, do not count. -/
def coveredBy (errors : ErrorTable) (callees : List FuncId) (slot : Nat) (side : RangeSet) : Bool :=
  callees.all fun f =>
    match errors.get? ⟨f, slot⟩ with
    | none => true
    | some s => s.isEmpty || s.isFull || s.isSubset side

/-- Judge one checked call. -/
def judge (errors : ErrorTable) (e : IncorrectEvidence) (checked : CheckedCall) (sides : Sides) :
    Checked IncorrectEvidence := do
  let some callees := c.graph.callees? checked.call | return e
  let callees := callees.toList
  let correct := coveredBy errors callees checked.slot sides.satisfying ||
    coveredBy errors callees checked.slot sides.failing
  let tallies := callees.foldl
    (fun t f => t.update f fun old => (old.getD {}).record !correct) e.tallies
  if correct then return { e with tallies }
  let site ← Site.ofInst c.program checked.call
  let candidate : Candidate := ⟨checked.call, some (sides.satisfying, sides.failing)⟩
  return ⟨tallies, e.candidates ++ [(site, candidate)]⟩

/-- **The incorrect checks of a function.** -/
def incorrectChecks (errors : ErrorTable) (f : FuncId) : Checked IncorrectEvidence := do
  (← c.sidesOf f).entries.foldlM (fun e (checked, sides) => c.judge errors e checked sides) {}

/-- The incorrect checks of every function. -/
def findIncorrect (errors : ErrorTable) : Checked IncorrectState :=
  c.foldAnalysed (fun s f => return s.merge (← c.incorrectChecks errors f)) {}

end Context

end ErrorReturns
