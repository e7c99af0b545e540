import ErrorReturns.Program.Entity
import ErrorReturns.RangeSet

/-!
# Faults

A fault is a broken promise of whoever calls the analysis: a name that points outside its
arena, a position beyond the end of a path or of a block, bounds in the wrong order, the
complement of a set that has none, a count that is no word any more, or a chain of values that
never ends. A well-formed program causes none but the last two; nothing is recovered from, and
the whole computation that met the fault is without a result.
-/

namespace ErrorReturns

/-- Why a computation has no result. -/
inductive Fault where
  | noModule (id : ModuleId)
  | noFunction (id : FuncId)
  | noBlock (id : BlockId)
  | noInst (id : InstId)
  /-- A position outside a path. -/
  | offPath (index length : Nat)
  /-- A position beyond the end of a block. -/
  | offBlock (index length : Nat)
  | malformedRange (low high : Int)
  /-- The complement of the empty or of the full set. -/
  | trivialComplement (set : RangeSet)
  /-- A sum of counts that does not fit into 32 bits. -/
  | countOverflow
  /-- The allowed depth of a recursive search was used up. -/
  | tooDeep
deriving Repr, DecidableEq

/-- The result of a computation that may meet a fault. -/
abbrev Checked (α : Type) := Except Fault α

/-- The description of a fault, for those that speak about sets of values. -/
def Fault.message? : Fault → Option String
  | .malformedRange low high => some s!"malformed range [{low}, {high}]"
  | .trivialComplement set => some s!"complement of a trivial interval {set.render}"
  | _ => none

namespace RangeSet

/-- The set of the integers between two bounds, which have to be in order. -/
def between (low high : Int) : Checked RangeSet :=
  if low ≤ high then .ok (ofRange low high) else .error (.malformedRange low high)

/-- The complement of a set that is neither empty nor full. -/
def complement (s : RangeSet) : Checked RangeSet :=
  if s.isEmpty || s.isFull then .error (.trivialComplement s) else .ok s.compl

end RangeSet

end ErrorReturns
