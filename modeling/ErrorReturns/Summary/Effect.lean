import ErrorReturns.CallGraph
import ErrorReturns.Flow.Path
import ErrorReturns.Summary.CommonSubsequence
import ErrorReturns.Trace.Resolve

/-!
# Summaries of paths

A path is summarised by what it does that matters for the handling of errors: its calls,
stores, conditional branches, switches and returns. The block that holds the check itself is
left out. Two paths that leave the same check on different sides are alike when the longest
common subsequence of their summaries covers the shorter one; that shorter one is then likely
to be the handling of an error.
-/

namespace ErrorReturns

/-- One step of a summary. -/
inductive Effect where
  /-- A call with known targets. -/
  | call (call : InstId)
  /-- A conditional branch that tests `value` with `pred`. -/
  | branch (pred : Predicate) (value : Option Value) (branch : InstId)
  | store (ptr : Option Value) (store : InstId)
  /-- A return, with the operand as written and as resolved along the path. -/
  | ret (written resolved : Option Value)
  | switch
  | unreachable
deriving DecidableEq, Repr

/-- The effects of a path after its first block, and the block that follows the first. -/
structure Summary where
  effects : List Effect
  entry : Option BlockId
deriving Repr

/-- How many conditional branches a summary has. -/
def Summary.branchCount (s : Summary) : Nat := s.effects.countP (· matches .branch _ _ _)

namespace Program

variable (p : Program)

/-! ## Effects of a block -/

/-- Whether the result of a call is compared, and the comparison decides a branch. -/
def feedsBranch (call : InstId) : Checked Bool := do
  (← p.users call).anyM fun user => do
    if (← p.op user).isCmp then
      (← p.users user).anyM fun u => return (← p.op u) matches .branch _ _ _
    else return false

/-- The effect of a call. A call that is itself the subject of a check is no part of the
handling, and one without known targets cannot be compared. -/
def callEffect? (g : CallGraph) (call : InstId) : Checked (Option Effect) := do
  if ← p.isIntrinsicCall call then return none
  if ← p.feedsBranch call then return none
  return (g.callees? call).map fun _ => .call call

/-- The effect of a conditional branch: on a comparison it tests the left operand, on
anything else the condition itself. -/
def branchEffect (branch : InstId) (cond : Value) : Checked Effect := do
  match ← p.opOf? cond with
  | some (.cmp pred lhs _) => return .branch pred (some lhs) branch
  | _ => return .branch .eq (some cond) branch

/-- The effect of an instruction. -/
def effect? (g : CallGraph) (i : InstId) : Checked (Option Effect) := do
  match ← p.op i with
  | .call _ _ => p.callEffect? g i
  | .ret v => return some (.ret v none)
  | .branch cond _ _ => return some (← p.branchEffect i cond)
  | .store ptr _ => return some (.store (some ptr) i)
  | .switch _ _ _ => return some .switch
  | .unreachable => return some .unreachable
  | _ => return none

/-- The effects of a block. -/
def effectsOfBlock (g : CallGraph) (b : BlockId) : Checked (List Effect) := do
  (← p.block b).insts.filterMapM (p.effect? g)

/-- **The summary of a path**, not yet resolved along it. -/
def summarize (g : CallGraph) (path : List BlockId) : Checked Summary := do
  return ⟨(← path.tail.mapM (p.effectsOfBlock g)).flatten, path[1]?⟩

/-! ## Resolving a summary -/

/-- Resolve the operands of an effect along a path. A branch on an unknown value is known by
itself. -/
def resolveEffect (mayAlias : AliasOracle) (path : List BlockId) : Effect → Checked Effect
  | .store ptr store => return .store (← p.resolveAlong mayAlias path ptr) store
  | .ret written _ => return .ret written (← p.resolveAlong mayAlias path written)
  | .branch pred value branch => do
    let value? ← p.resolveAlong mayAlias path value
    return .branch pred (value? <|> some (.inst branch)) branch
  | e => return e

/-- Resolve a summary along a path. -/
def resolveSummary (mayAlias : AliasOracle) (path : List BlockId) (s : Summary) : Checked Summary :=
  return { s with effects := ← s.effects.mapM (p.resolveEffect mayAlias path) }

/-- The summary of a path, resolved along the path and the chain before it. -/
def summarizeResolved (g : CallGraph) (mayAlias : AliasOracle) (path : List BlockId) :
    Checked Summary := do
  p.resolveSummary mayAlias (p.extendBackward path) (← p.summarize g path)

end Program

/-! ## Comparing effects -/

/-- What the comparison of effects needs to know. -/
structure EffectMatcher where
  program : Program
  graph : CallGraph
  mayAlias : AliasOracle

namespace EffectMatcher

variable (m : EffectMatcher)

/-- Whether an operand is a computed address. -/
def isGep (v : Value) : Checked Bool := return (← m.program.opOf? v) matches some (.gep _ _)

/-- Whether two branches test the same: the same value, or calls with the same targets. Two
computed addresses are never taken for the same. -/
def sameTested (a b : Value) : Checked Bool := do
  if ← m.isGep a then
    if ← m.isGep b then return false
  if a = b then return true
  if ← m.program.isCall a then
    if ← m.program.isCall b then
      match m.graph.calleesOf? a, m.graph.calleesOf? b with
      | some fs, some gs => return fs == gs
      | _, _ => return false
  return false

/-- Whether two returns yield the same. A return of a call's result also agrees with a return
of a constant, as in an early return on failure. -/
def sameReturn (writtenA writtenB resolvedA resolvedB : Option Value) : Checked Bool := do
  match resolvedA, resolvedB with
  | none, none => return writtenA == writtenB
  | some a, some b =>
    let callA ← m.program.isCall a
    let callB ← m.program.isCall b
    if callA && callB then return writtenA == writtenB
    if (callA && b.const?.isSome) || (callB && a.const?.isSome) then return true
    return a == b
  | _, _ => return false

/-- Whether two instructions both come from inlined code with real source lines. -/
def bothInlined (a b : InstId) : Checked Bool := do
  let locA ← m.program.inst a
  let locB ← m.program.inst b
  match locA.loc, locB.loc with
  | some la, some lb =>
    return !la.inlinedAt.isEmpty && !lb.inlinedAt.isEmpty &&
      la.position.line != 0 && lb.position.line != 0
  | _, _ => return false

/-- Whether two stores write to the same place. -/
def sameStore (ptrA ptrB : Value) (storeA storeB : InstId) : Checked Bool := do
  match ptrA with
  | .inst _ | .arg _ _ =>
    if ← m.mayAlias m.program ptrA ptrB then return true
    m.bothInlined storeA storeB
  | _ => return ptrA == ptrB

/-- **Whether two effects correspond.** -/
def corresponds : Effect → Effect → Checked Bool
  | .call a, .call b => return m.graph.callees? a == m.graph.callees? b
  | .branch predA (some a) _, .branch predB (some b) _ =>
    if predA = predB then m.sameTested a b else return false
  | .ret writtenA resolvedA, .ret writtenB resolvedB =>
    m.sameReturn writtenA writtenB resolvedA resolvedB
  | .store (some a) storeA, .store (some b) storeB => m.sameStore a b storeA storeB
  | .switch, .switch => return true
  | .unreachable, .unreachable => return true
  | _, _ => return false

/-- Which of some effects correspond to which of others. -/
def table (as bs : List Effect) : Checked (List (List Bool)) :=
  as.mapM fun a => bs.mapM (m.corresponds a)

/-- The length of the longest common subsequence of two lists of effects, and its share of the
shorter one. -/
def common (a b : List Effect) : Checked (Nat × Float32) := do
  let (long, short) := CommonSubsequence.arrange a b
  let n := CommonSubsequence.lengthOfTable short.length (← m.table long short)
  return (n, CommonSubsequence.ratio n a.length b.length)

end EffectMatcher

/-- The share of the shorter summary from which on two summaries are alike. -/
def matchRatio : Float32 := 0.999

end ErrorReturns
