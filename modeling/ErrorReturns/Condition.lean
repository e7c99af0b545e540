import ErrorReturns.Flow.Chain
import ErrorReturns.Trace.Resolve

/-!
# Conditions on call results

A branch or a switch checks a call when what it tests is the call's result. Each such test
is a condition: a comparison of the result with an operand, or the default way out of a
switch. Comparisons that are extended to an integer count as well, although they do not
decide a branch.

What is tested is resolved along the chain of blocks that leads to the test, so that it does
not matter whether the result went through a variable first.
-/

namespace ErrorReturns

/-- A checked result, with the field of it that is checked if the result is an aggregate. -/
structure CheckedValue where
  value : Value
  slot : Nat := 0
deriving DecidableEq, Repr

/-- **A condition on a checked value.** -/
inductive Condition where
  /-- `lhs pred rhs`. The origin is the comparison, or the switch that compares. Without
  `fromBranch` the comparison decides no branch. -/
  | comparison (lhs : CheckedValue) (pred : Predicate) (rhs : Value) (origin : InstId)
      (fromBranch : Bool)
  /-- The default way out of the switch at `origin`. -/
  | fallback (lhs : CheckedValue) (origin : InstId)
deriving DecidableEq, Repr

namespace Condition

/-- The checked value. -/
def lhs : Condition → CheckedValue
  | comparison lhs _ _ _ _ => lhs
  | fallback lhs _ => lhs

/-- The comparison or switch that the condition comes from. -/
def origin : Condition → InstId
  | comparison _ _ _ origin _ => origin
  | fallback _ origin => origin

/-- Whether the condition decides where control goes. -/
def isFromBranch : Condition → Bool
  | comparison _ _ _ _ fromBranch => fromBranch
  | fallback _ _ => true

/-- Whether the condition is a comparison. -/
def isComparison : Condition → Bool
  | comparison _ _ _ _ _ => true
  | fallback _ _ => false

/-- The block of the condition's origin. -/
def block (p : Program) (c : Condition) : Checked BlockId := p.blockOf c.origin

end Condition

/-- What the search for conditions needs to know. -/
structure CheckFinder where
  program : Program
  mayAlias : AliasOracle
  block : BlockId

namespace CheckFinder

variable (s : CheckFinder)

/-! ## The checked value -/

/-- A value as a checked one, if it is the result of a call or of a comparison. -/
def settle (v : Value) (slot : Nat) : Checked (Option CheckedValue) := do
  let checkable := (← s.program.opOf? v).any fun op => op.isCall || op.isCmp
  return if checkable then some ⟨v, slot⟩ else none

/-- The call or comparison that an instruction's result comes from along some blocks, written
latest first. A field of an aggregate is traced to the aggregate. -/
def checkedOn (lhs : InstId) (blocks : List BlockId) : Checked (Option CheckedValue) := do
  let r : Resolver := ⟨s.program, s.mayAlias, Slice.backward blocks⟩
  if !r.slice.contains (← s.program.blockOf lhs) then return none
  let some found ← r.resolveFresh (.inst lhs) | return none
  match ← s.program.opOf? found with
  | some (.extract aggregate index) =>
    let some whole ← r.resolveFresh aggregate | return none
    s.settle whole index
  | _ => s.settle found 0

/-- The one of two blocks that the other one leads into alone. -/
def armOf? (a b : BlockId) : Option BlockId :=
  if s.program.uniquePredecessor? a = some b then some a
  else if s.program.uniquePredecessor? b = some a then some b
  else none

/-- **Across a triangle.** Where the chain before the block begins at the join of a branch whose one
arm leads straight to the other, the chain is continued through that arm. -/
def chainAcross? (blocks : List BlockId) : Option (List BlockId) := do
  let first ← blocks.getLast?
  match s.program.predecessors first with
  | [a, b] =>
    let arm ← s.armOf? a b
    return blocks ++ (s.program.chainBackward arm).takeWhile fun c => c ∉ blocks
  | _ => none

/-- The checked value behind an instruction: along the chain before the block, or else
across a triangle. -/
def checkedValue? (lhs : InstId) : Checked (Option CheckedValue) := do
  let blocks := s.program.chainBackward s.block
  if let some found ← s.checkedOn lhs blocks then return some found
  match s.chainAcross? blocks with
  | some longer => s.checkedOn lhs longer
  | none => return none

/-! ## Conditions of a block -/

/-- The conditions of a switch: one for each case, and the default. -/
def ofSwitch (origin : InstId) (cond : Value) (cases : List (Constant × BlockId)) :
    Checked (List Condition) := do
  let some lhs := cond.inst? | return []
  let some checked ← s.checkedValue? lhs | return []
  if ← s.program.isCmp checked.value then return []
  return cases.map (fun c => .comparison checked .eq (.const c.1) origin true) ++
    [.fallback checked origin]

/-- What an instruction contributes: some conditions, or the end of the search. -/
inductive Contribution where
  | conditions (found : List Condition)
  | stop

/-- **Flags of flags.** The predicate of `(x q 0) p c` as a comparison of `x` with zero. -/
def flagPredicate? (p q : Predicate) : Option Predicate :=
  match p with
  | .eq => some q.inverse
  | .ne => some q
  | _ => none

/-- The condition that a comparison expresses. If what it tests is itself a comparison with
zero, the two are taken together; a nested comparison of any other form ends the search. -/
def ofComparison (origin : InstId) (fromBranch : Bool) (pred : Predicate) (lhs rhs : Value) :
    Checked Contribution := do
  let some lhs := lhs.inst? | return .conditions []
  let some checked ← s.checkedValue? lhs | return .conditions []
  match ← s.program.opOf? checked.value with
  | some (.cmp innerPred innerLhs innerRhs) =>
    if !innerRhs.const?.any (·.isZero) then return .stop
    let some inner := innerLhs.inst? | return .stop
    let some nested ← s.checkedValue? inner | return .stop
    match flagPredicate? pred innerPred with
    | some q => return .conditions [.comparison nested q innerRhs origin fromBranch]
    | none => return .stop
  | _ => return .conditions [.comparison checked pred rhs origin fromBranch]

/-- What an instruction contributes if it uses `cond` as a flag. -/
def ofFlag (cond : Value) (fromBranch : Bool) : Checked Contribution := do
  match cond, ← s.program.opOf? cond with
  | .inst origin, some (.cmp pred lhs rhs) => s.ofComparison origin fromBranch pred lhs rhs
  | _, _ => return .conditions []

/-- What an instruction contributes: extended comparisons and conditional branches do. -/
def ofInst (i : InstId) : Checked Contribution := do
  match ← s.program.op i with
  | .cast .zext v | .cast .sext v => s.ofFlag v false
  | .branch cond _ _ => s.ofFlag cond true
  | _ => return .conditions []

/-- The conditions of some instructions, up to the first that ends the search. -/
def ofInsts : List InstId → Checked (List Condition)
  | [] => return []
  | i :: rest => do
    match ← s.ofInst i with
    | .conditions found => return found ++ (← ofInsts rest)
    | .stop => return []

/-- **The conditions of a block.** A block that ends in a switch has only those of the switch. -/
def conditions : Checked (List Condition) := do
  match ← s.program.terminator? s.block with
  | some last =>
    match ← s.program.op last with
    | .switch cond _ cases => s.ofSwitch last cond cases
    | _ => s.ofInsts (← s.program.block s.block).insts
  | none => s.ofInsts (← s.program.block s.block).insts

end CheckFinder

namespace Program

/-- The conditions of a block. -/
def conditionsOfBlock (p : Program) (mayAlias : AliasOracle) (b : BlockId) :
    Checked (List Condition) :=
  CheckFinder.conditions ⟨p, mayAlias, b⟩

/-- Whether a condition is about a call that counts. -/
def concernsRealCall (p : Program) (c : Condition) : Checked Bool := do
  match c.lhs.value with
  | .inst i => return !(← p.isIntrinsicCall i)
  | _ => return true

/-- **The conditions of a function**, without those on annotations of the compiler and on
inline assembly. -/
def conditionsOf (p : Program) (mayAlias : AliasOracle) (f : FuncId) :
    Checked (List Condition) := do
  let found ← (← p.function f).blocks.mapM (p.conditionsOfBlock mayAlias)
  found.flatten.filterM p.concernsRealCall

end Program

end ErrorReturns
