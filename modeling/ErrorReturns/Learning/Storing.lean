import ErrorReturns.Context
import ErrorReturns.ReturnRange

/-!
# From observations to knowledge

The observations of a slot become its error values in three steps. What the function cannot
return is cut off; sets that contain one another support each other; and the sets that hold
a large enough share of the observations are intersected. If no set does, the function is
known to fail, but not how. Functions that do nothing but return a call of such a function
are known no better.
-/

namespace ErrorReturns

/-! ## Pooling -/

/-- Counted sets, in a fixed order. -/
abbrev Counts := Array (RangeSet × Nat)

namespace Counts

/-- Let the observation at `i` take over the count of the one at `j`, if that one is no more
frequent and lies, for a declaration, around it, or for a definition, inside it. A declaration's
count is moved, a definition's is copied, so that sets inside one another soon count for more than
was observed. -/
def pool (declaration : Bool) (i : Nat) (counts : Counts) (j : Nat) : Checked Counts := do
  match counts[i]?, counts[j]? with
  | some (a, n), some (b, m) =>
    let related := if declaration then a.isSubset b else b.isSubset a
    if i ≠ j ∧ m ≠ 0 ∧ m ≤ n ∧ related then
      let counts := counts.setIfInBounds i (a, ← Count.add n m)
      return if declaration then counts.setIfInBounds j (b, 0) else counts
    else return counts
  | _, _ => return counts

/-- Pool every observation into the one at `i`, unless it has been taken over itself. -/
def poolInto (declaration : Bool) (counts : Counts) (i : Nat) : Checked Counts :=
  if counts[i]?.any (·.2 != 0) then
    (List.range counts.size).foldlM (pool declaration i) counts
  else return counts

end Counts

/-- **Pool the observations** that are subsets of each other. -/
def Histogram.pooled (h : Histogram) (declaration : Bool) : Checked Counts :=
  (List.range h.size).foldlM (Counts.poolInto declaration) h.entries.toArray

/-! ## Storing -/

namespace Knowledge

/-- Intersect the error values of a slot with a set. -/
def narrowErrors (k : Knowledge) (slot : ReturnSlot) (s : RangeSet) : Knowledge :=
  { k with errors := k.errors.update slot fun old => old.getD .full ∩ s }

/-- Store the counted sets of a slot: those with a share of at least `threshold` are intersected,
and the greatest share is the confidence. Without any observation nothing is stored. -/
def storeCounts (k : Knowledge) (threshold : Float) (slot : ReturnSlot) (counts : Counts) :
    Knowledge :=
  let total := counts.toList.foldr (fun e n => e.2 + n) 0
  if total = 0 then k
  else
    let shares : List (RangeSet × Float) :=
      counts.toList.map fun (s, n) => (s, Float.ofNat n / Float.ofNat total)
    let passed := shares.filter fun e => threshold ≤ e.2
    let best := shares.foldl (fun (best : Float) e => if best < e.2 then e.2 else best) 0
    let k := if passed.isEmpty then { k with errors := k.errors.insert slot .empty }
      else passed.foldl (fun k e => k.narrowErrors slot e.1) k
    { k with confidence := k.confidence.insert slot best }

end Knowledge

/-- The functions of a single block that return a call of `f` made there. -/
def Program.wrappersOf (p : Program) (g : CallGraph) (f : FuncId) : Checked (List FuncId) := do
  (g.callers f).filterMapM fun call => do
    if (← p.directCallee? call) ≠ some f then return none
    let caller ← p.functionOf call
    if (← p.function caller).blocks.length ≠ 1 then return none
    let returned ← (← p.returnsIn caller).anyM fun i =>
      return (← p.op i) == .ret (some (.inst call))
    return if returned then some caller else none

namespace Context

variable (c : Context)

/-- Refine the observations of a slot. A function that always returns one constant has no error
values. -/
def refineSlot (finder : RangeFinder) (ranges : Table FuncId SignedRange) (f : FuncId)
    (h : Histogram) : Checked (Histogram × Table FuncId SignedRange) := do
  if (← c.program.function f).isDeclaration then return (h, ranges)
  if ← c.program.returnsSingleConstant f then
    return (Histogram.add Table.empty RangeSet.empty 1, ranges)
  finder.refine f h ranges

/-- Refine the observations of every slot, in order. -/
def refineSlots (finder : RangeFinder) :
    List (ReturnSlot × Histogram) → Table FuncId SignedRange →
    Checked (List (ReturnSlot × Histogram))
  | [], _ => return []
  | (slot, h) :: rest, ranges => do
    let (h, ranges) ← c.refineSlot finder ranges slot.function h
    return (slot, h) :: (← refineSlots finder rest ranges)

/-- The observations as they are stored. -/
def refined (observed : Histograms) : Checked Histograms := do
  if c.settings.refineRanges then
    let finder : RangeFinder := ⟨c.program, c.graph, c.mayAlias, observed⟩
    return .ofList (← c.refineSlots finder observed.entries {})
  return observed

/-- Store the observations of a slot. -/
def storeSlot (k : Knowledge) (slot : ReturnSlot) (h : Histogram) : Checked Knowledge := do
  let declaration := (← c.program.function slot.function).isDeclaration
  return k.storeCounts c.settings.intervalConfidence slot (← h.pooled declaration)

/-- Functions that only return a call of a function without known error values have none known
either. -/
def emptyWrappers (k : Knowledge) : Checked Knowledge := do
  let unknown := (k.errors.entries.filter (·.2.isEmpty)).map (·.1.function)
  let wrappers ← unknown.mapM (c.program.wrappersOf c.graph)
  return wrappers.flatten.foldl
    (fun k f => { k with errors := k.errors.insert ⟨f, 0⟩ .empty }) k

/-- **Store observations as knowledge.** -/
def store (k : Knowledge) (observed : Histograms) : Checked Knowledge := do
  let refined ← c.refined observed
  c.emptyWrappers (← refined.entries.foldlM (fun k e => c.storeSlot k e.1 e.2) k)

end Context

end ErrorReturns
