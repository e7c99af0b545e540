import ErrorReturns.Program.Basic
import ErrorReturns.SortedSet

/-!
# The calls a value comes from

A value may be the result of a call after casts, freezes, phis and selects have passed it
on. The calls it may come from are found by following these operations; a call itself is not
looked through.
-/

namespace ErrorReturns

/-- The instructions passed and the calls found so far. -/
structure OriginSearch where
  visited : List InstId := []
  calls : SortedSet InstId := {}
deriving Repr

namespace Program

variable (p : Program)

/-- The operands that an operation passes on. -/
def passedOn : Operation → List Value
  | .cast _ v => [v]
  | .freeze v => [v]
  | .phi incoming => incoming.map (·.2)
  | .select _ ifTrue ifFalse => [ifTrue, ifFalse]
  | _ => []

section Open

variable {m : Type → Type} [Monad m] [MonadLiftT Checked m]
  (search : OriginSearch → Value → m OriginSearch)

/-- One level of the search for the calls a value comes from. How the search goes on from the
operands is left open, and so is the monad. -/
def originStep (s : OriginSearch) (v : Value) : m OriginSearch :=
  match v with
  | .inst id => do
    let op ← p.op id
    if op.isCall then return { s with calls := s.calls.insert id }
    if id ∈ s.visited then return s
    (passedOn op).foldlM search { s with visited := id :: s.visited }
  | _ => return s

end Open

/-- Follow a value to the calls it comes from, through at most `depth` values one inside
another. -/
def searchOrigins : (depth : Nat) → OriginSearch → Value → Checked OriginSearch
  | 0, _, _ => .error .tooDeep
  | depth + 1, s, v => p.originStep (searchOrigins depth) s v

/-- **Add the calls a value comes from** to a set of calls. Each level but the last visits a new
instruction, so that the depth is always enough. -/
def collectCalls (v : Value) (calls : SortedSet InstId) : Checked (SortedSet InstId) := do
  return (← p.searchOrigins (p.insts.size + 1) ⟨[], calls⟩ v).calls

end Program

end ErrorReturns
