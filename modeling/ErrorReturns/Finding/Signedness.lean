import ErrorReturns.Finding.Truncation

/-!
# Signs of error values

Functions whose return type has the same name in the source tend to agree on whether errors
are negative or positive. A function that goes against the prevailing sign is reported.
-/

namespace ErrorReturns

/-- How many functions of a type have negative, mixed and positive error values. -/
structure SignTally where
  negative : Nat := 0
  mixed : Nat := 0
  positive : Nat := 0
deriving DecidableEq, Repr

namespace SignTally

/-- Count a function by the sign of its error values. -/
def record (t : SignTally) (sign : Int) : SignTally :=
  if sign = -1 then { t with negative := t.negative + 1 }
  else if sign = 1 then { t with positive := t.positive + 1 }
  else { t with mixed := t.mixed + 1 }

/-- The sign that is more frequent than both others, or zero. -/
def verdict (t : SignTally) : Int :=
  if t.mixed < t.negative ∧ t.positive < t.negative then -1
  else if t.mixed < t.positive ∧ t.negative < t.positive then 1
  else 0

end SignTally

/-- A slot of a function whose return type has a name. -/
structure TypedSlot where
  slot : ReturnSlot
  function : Function
  typeName : String
  values : RangeSet

namespace Context

variable (c : Context)

/-- A slot with known error values of a defined function whose return type has a name. -/
def typedSlot? (slot : ReturnSlot) (s : RangeSet) : Checked (Option TypedSlot) := do
  let function ← c.program.function slot.function
  if s.isEmpty || function.isDeclaration then return none
  return function.retTypeName.map (⟨slot, function, ·, s⟩)

/-- The signs of each type name. -/
def signTallies (typed : List TypedSlot) : Table String SignTally :=
  typed.foldl (fun t s => t.update s.typeName fun old => (old.getD {}).record s.values.sign) {}

/-- Whether a slot goes against the prevailing sign of its type name. -/
def opposesConvention (tallies : Table String SignTally) (s : TypedSlot) : Bool :=
  let sign := s.values.sign
  let verdict := ((tallies.get? s.typeName).map SignTally.verdict).getD 0
  sign ≠ 0 ∧ verdict ≠ 0 ∧ sign ≠ verdict

/-- The report of a slot. -/
def signReport (k : Knowledge) (s : TypedSlot) : Violation where
  location := s.function.loc.map (·.position)
  kind := .signedness
  confidence := k.confidenceOf s.slot
  callees := [s.function.name]
  evidence := [s.values]

/-- **Every function against the sign convention** of its return type. -/
def findSignedness (k : Knowledge) : Checked (List Violation) := do
  let typed ← k.errors.entries.filterMapM fun e => c.typedSlot? e.1 e.2
  return (typed.filter (opposesConvention (signTallies typed))).map (signReport k)

end Context

end ErrorReturns
