import ErrorReturns.Histogram
import ErrorReturns.Program.Pointer
import ErrorReturns.SignedRange

/-!
# What functions return

The values that a function may return are bounded by walking back from its return operands.
The bound is made for error values, which functions choose rather than compute: parameters
and results of arithmetic contribute nothing, while unsupported operations and memory that is
filled elsewhere contribute everything. A value that is met twice in one walk contributes
nothing the second time, so that loops do not widen a range.

Ranges of functions are remembered from one walk to the next. A range that says nothing gives
way to the bounds of what was observed, if only one set was.
-/

namespace ErrorReturns

/-- The ranges found for functions so far, and the values met in the present walk. -/
structure RangeMemo where
  ranges : Table FuncId SignedRange := {}
  visited : List Value := []
deriving Repr

/-- What the walk needs to know. -/
structure RangeFinder where
  program : Program
  graph : CallGraph
  mayAlias : AliasOracle
  observed : Histograms

namespace RangeFinder

variable (a : RangeFinder)

/-- A range, and what is known after finding it. -/
abbrev Found := SignedRange × RangeMemo

/-- How many bits a value of a type has. -/
def widthOf : Ty → Nat
  | .int bits => bits
  | .ptr => 64
  | _ => 32

/-- Operations whose results are computed rather than chosen among constants. -/
def isArithmetic : BinOp → Bool
  | .add | .sub | .mul | .sdiv | .udiv | .srem | .or => true
  | _ => false

/-- The operands that a function returns. -/
def returned (f : FuncId) : Checked (List Value) := do
  (← a.program.returnsIn f).filterMapM fun i => do
    match ← a.program.op i with
    | .ret v => return v
    | _ => return none

/-- A range that says nothing, narrowed to the bounds of the one observed set. -/
def orObserved (f : FuncId) (bits : Nat) (range : SignedRange) : SignedRange :=
  if range.isFull then
    match a.observed.only? f with
    | some s =>
      match s.lowest?, s.highest? with
      | some low, some high => SignedRange.ofBounds low high bits
      | _, _ => range
    | none => range
  else range

/-- The range of what an operation that chooses bits computes. A mask bounds its result. -/
def binopRange (bits : Nat) (op : BinOp) (lhs rhs : Value) : Checked SignedRange := do
  if isArithmetic op then return .empty bits
  if let some (.binop inner _ _) ← a.program.opOf? lhs then
    if isArithmetic inner then return .empty bits
  match op, rhs.const? with
  | .and, some mask =>
    return if 0 ≤ mask.value then SignedRange.ofBounds 0 mask.value bits else .full bits
  | _, _ => return .full bits

/-- The values that a function stores to an address. -/
def storedTo (f : FuncId) (ptr : Value) : Checked (List Value) := do
  (← a.program.instsIn f).filterMapM fun i => do
    match ← a.program.op i with
    | .store target value =>
      return if ← a.mayAlias a.program ptr target then some value else none
    | _ => return none

/-- Whether a function stores anything. -/
def stores (f : FuncId) : Checked Bool := do
  (← a.program.instsIn f).anyM fun i => return (← a.program.op i) matches .store _ _

/-- The range of a load from memory that the function itself does not fill. A field of an
object made by a call is unknown if the callee stores anything. -/
def unfilledRange (bits : Nat) (ptr : Value) : Checked SignedRange := do
  match ← a.program.opOf? ptr with
  | some (.gep _ _) =>
    let (base, _) ← a.program.stripOffsets ptr
    let some call := base.inst? | return .full bits
    let some callees := a.graph.callees? call | return .empty bits
    return if ← callees.toList.anyM a.stores then .full bits else .empty bits
  | _ => return .full bits

/-- A range after a conversion. -/
def castRange (kind : Cast) (bits : Nat) (range : SignedRange) : SignedRange :=
  match kind with
  | .trunc => range.truncate bits
  | .zext => range.zeroExtend bits
  | .sext => range.signExtend bits
  | _ => .full bits

/-! ## The walk

How the ranges of operands are found on the way is left open in one level of the walk, and so is
the monad, so that a walk can also be looked at without being carried out. -/

section Open

variable {m : Type → Type} [Monad m]

/-- The union of the ranges of some items, up to the first that leaves nothing out if `short`
is set. -/
def unionOf {α : Type} (short : Bool) (find : α → RangeMemo → m Found) :
    List α → SignedRange → RangeMemo → m Found
  | [], range, memo => return (range, memo)
  | x :: rest, range, memo => do
    let (found, memo) ← find x memo
    let range := range.union found
    if short && range.isFull then return (range, memo)
    unionOf short find rest range memo

variable [MonadLiftT Checked m] (find : FuncId → Value → RangeMemo → m Found)

/-- The range of a function, where `find` gives the range of an operand. Only integers have
ranges worth remembering. -/
def functionRange (f : FuncId) (memo : RangeMemo) : m Found := do
  let function ← a.program.function f
  match function.ret with
  | .int bits =>
    if let some range := memo.ranges.get? f then return (range, memo)
    let start := if function.isDeclaration then SignedRange.full bits else SignedRange.empty bits
    let (range, memo) ← unionOf false (find f) (← a.returned f) start memo
    let range := a.orObserved f bits range
    return (range, { memo with ranges := memo.ranges.insert f range })
  | _ => return (SignedRange.full 32, memo)

/-- The range of an operation's result, where `find` gives the range of an operand in a
function. -/
def operationRange (f : FuncId) (id : InstId) (bits : Nat) (memo : RangeMemo) : m Found := do
  match ← a.program.op id with
  | .call _ _ =>
    match a.graph.callees? id with
    | some callees => unionOf true (a.functionRange find) callees.toList (.empty bits) memo
    | none => return (.empty bits, memo)
  | .select _ ifTrue ifFalse =>
    let (range, memo) ← find f ifTrue memo
    if range.isFull then return (range, memo)
    let (other, memo) ← find f ifFalse memo
    return (range.union other, memo)
  | .phi incoming => unionOf true (find f) (incoming.map (·.2)) (.empty bits) memo
  | .cast kind inner =>
    let (range, memo) ← find f inner memo
    return (castRange kind bits range, memo)
  | .binop op lhs rhs => return (← a.binopRange bits op lhs rhs, memo)
  | .load ptr =>
    match ← a.storedTo f ptr with
    | [] => return (← a.unfilledRange bits ptr, memo)
    | stored =>
      let resized (v : Value) (memo : RangeMemo) : m Found := do
        let (range, memo) ← find f v memo
        return (range.resize bits, memo)
      unionOf false resized stored (.empty bits) memo
  | _ => return (.full bits, memo)

/-- One level of the walk: the range of an operand in a function. The greatest 32-bit constant
stands for every value. -/
def step (f : FuncId) (v : Value) (memo : RangeMemo) : m Found := do
  let bits := widthOf (← a.program.typeOf v)
  match v with
  | .const c =>
    if c.value = Word.highest 32 then return (.full bits, memo)
    return (.singleton c.value bits, memo)
  | .null => return (.singleton 0 bits, memo)
  | _ =>
    if bits = 1 then return (.full 1, memo)
    if v ∈ memo.visited then return (.empty bits, memo)
    let memo := { memo with visited := v :: memo.visited }
    match v with
    | .arg _ _ => return (.empty bits, memo)
    | .inst id => a.operationRange find f id bits memo
    | _ => return (.full bits, memo)

end Open

/-- **The range of an operand** in a function, with at most `depth` operands one inside
another. -/
def valueRange : (depth : Nat) → FuncId → Value → RangeMemo → Checked Found
  | 0, _, _, _ => .error .tooDeep
  | depth + 1, f, v, memo => a.step (valueRange depth) f v memo

/-- A depth that is always enough: each level but the last visits a new instruction. -/
def enoughDepth : Nat := a.program.insts.size + 2

/-- **The range of the values a function may return**, given the ranges found before. -/
def rangeOf (f : FuncId) (ranges : Table FuncId SignedRange) :
    Checked (SignedRange × Table FuncId SignedRange) := do
  let (range, memo) ← a.functionRange (a.valueRange a.enoughDepth) f ⟨ranges, []⟩
  return (range, memo.ranges)

/-! ## Refining observations -/

/-- An observed set narrowed to a range, if the range has anything to narrow it to. The bounds
are cut to 32 bits after they have been brought within reach of a 32-bit integer on their
own side. -/
def narrowTo? (range : SignedRange) (s : RangeSet) : Checked (Option RangeSet) := do
  match range.extent with
  | .empty => return some .empty
  | .full => return some s
  | .span low high =>
    let low := Word.wrapSigned 32 (max low (Word.lowest 32))
    let high := Word.wrapSigned 32 (min high (Word.highest 32))
    if high < low then return none
    return some ((← RangeSet.between low high) ∩ s)

/-- Narrow every set of a histogram, adding up the counts of sets that become equal. -/
def narrowAll (range : SignedRange) (h : Histogram) : Checked Histogram :=
  h.entries.foldlM (fun out (s, n) => do
    let some s ← narrowTo? range s | return out
    return out.insert s (← Count.add ((out.get? s).getD 0) n)) {}

/-- **Refine what was observed of a function** by the range of what it returns. Only functions
with a body that return integers are refined. -/
def refine (f : FuncId) (h : Histogram) (ranges : Table FuncId SignedRange) :
    Checked (Histogram × Table FuncId SignedRange) := do
  let function ← a.program.function f
  match function.isDeclaration, function.ret with
  | false, .int _ =>
    let (range, ranges) ← a.rangeOf f ranges
    return (← narrowAll range h, ranges)
  | _, _ => return (h, ranges)

end RangeFinder

end ErrorReturns
