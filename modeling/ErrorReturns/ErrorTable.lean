import ErrorReturns.CallGraph
import ErrorReturns.RangeSet

/-!
# What is known about error returns

For each function and each slot of its result, the table may hold the set of values that
mean an error. A missing entry says that nothing is known; an empty set says that the function
has to be checked although no error value is known.
-/

namespace ErrorReturns

/-- A slot of a function's result; slot 0 is the plain result. -/
structure ReturnSlot where
  function : FuncId
  slot : Nat := 0
deriving DecidableEq, Repr

/-- Slots are ordered by their functions. -/
instance : Ord ReturnSlot where
  compare a b := (compare a.function b.function).then (compare a.slot b.slot)

instance : Std.TransOrd ReturnSlot :=
  inferInstanceAs
    (Std.TransCmp (compareLex (compareOn ReturnSlot.function) (compareOn ReturnSlot.slot)))

/-- The error values known for each slot. -/
abbrev ErrorTable := Table ReturnSlot RangeSet

namespace ErrorTable

/-- Add the values of every entry of `other`. -/
def mergeUnion (t other : ErrorTable) : ErrorTable :=
  other.entries.foldl (fun t (k, s) => t.update k fun old => (old.map (· ∪ s)).getD s) t

/-- The error values of the functions a call may reach, as far as they have entries. -/
def calleeSets (t : ErrorTable) (g : CallGraph) (call : InstId) (slot : Nat) : List RangeSet :=
  (g.calleeList call).filterMap fun f => t.get? ⟨f, slot⟩

/-- **The common error values** of the functions a call may reach, if any has an entry. -/
def calleeIntersection? (t : ErrorTable) (g : CallGraph) (call : InstId) (slot : Nat) :
    Option RangeSet :=
  match t.calleeSets g call slot with
  | [] => none
  | s :: rest => some (rest.foldl (· ∩ ·) s)

/-- **The error side of a comparison.** Whether some common error value of the functions that a
call may reach satisfies the comparison; nothing is said if there is no common error value. -/
def errorBranch? (t : ErrorTable) (g : CallGraph) (pred : Predicate) (slot : Nat)
    (rhs : Int) (call : InstId) : Option Bool :=
  match t.calleeIntersection? g call slot with
  | none => none
  | some known =>
    if known.isEmpty then none else some !((RangeSet.full.narrow pred rhs) ∩ known).isEmpty

end ErrorTable

end ErrorReturns
