import ErrorReturns.Learning.Evidence
import ErrorReturns.Summary.Effect

/-!
# Error sides from similar paths

Handling of errors repeats itself within a function: every failing call logs something and
returns the same value. The paths that leave the conditions of a function are summarised and
compared in pairs. When two paths from different conditions are alike, both are likely error
paths, and the block where each leaves its condition is the condition's error side.
-/

namespace ErrorReturns

/-- A path with its summary. -/
structure SummarizedPath where
  path : Path
  summary : Summary
deriving Repr

/-- The conditions decided so far, each with the path that decided it. -/
structure Decisions where
  matched : Table CheckId Match := {}
  errorPaths : Table CheckId Path := {}
deriving Repr

namespace Context

variable (c : Context)

/-- The paths that leave a condition on the side it describes: a case of a switch by its
target, the default by its own, and any other comparison on both sides of its block. -/
def pathsOfCondition (boundary : List BlockId) (id : CheckId) (cond : Condition) :
    Checked (List Path) := do
  let block ← cond.block c.program
  match cond, ← c.program.op cond.origin with
  | .comparison _ _ rhs _ _, .switch _ _ cases =>
    let some k := rhs.const? | return []
    let some (_, target) := cases.find? (·.1.value == k.value) | return []
    c.program.pathsFrom boundary target ⟨[block], some id⟩
  | .fallback _ _, .switch _ default _ =>
    c.program.pathsFrom boundary default ⟨[block], some id⟩
  | .comparison _ _ _ _ _, _ => c.program.pathsFrom boundary block ⟨[], some id⟩
  | .fallback _ _, _ => return []

/-- Summarise a path, unless it has no effect. -/
def summarizePath? (path : Path) : Checked (Option SummarizedPath) := do
  let summary ← c.program.summarize c.graph path.blocks
  if summary.effects.isEmpty then return none
  let extended := c.program.extendBackward path.blocks
  return some ⟨path, ← c.program.resolveSummary c.mayAlias extended summary⟩

/-- The summaries of the paths that leave the given conditions, as far as they go beyond the
block of the condition. -/
def summarizedPaths (checks : List (CheckId × Condition)) : Checked (List SummarizedPath) := do
  let boundary ← (checks.filter (·.2.isComparison)).mapM fun check => check.2.block c.program
  let paths ← checks.mapM fun check => c.pathsOfCondition boundary check.1 check.2
  (paths.flatten.filter (·.blocks.length > 1)).filterMapM c.summarizePath?

/-- Offer a path as the error path of its condition, given how much it has in common with
another one. -/
def offer (common sum : Nat) (d : Decisions) (s : SummarizedPath) : Decisions :=
  match s.path.reason with
  | none => d
  | some id =>
    if (c.condition? id).any (·.isComparison) then
      let candidate : Match :=
        ⟨s.summary.entry, common.toUInt16, s.path.blocks.length.toUInt16, sum.toUInt16⟩
      if candidate.replaces (d.matched.get? id) then
        ⟨d.matched.insert id candidate, d.errorPaths.insert id s.path⟩
      else d
    else d

/-- Compare two paths, and offer both if they are alike. Paths of one condition are not
compared. -/
def comparePaths (d : Decisions) (a b : SummarizedPath) : Checked Decisions := do
  if a.path.reason = b.path.reason then return d
  let matcher : EffectMatcher := ⟨c.program, c.graph, c.mayAlias⟩
  let (common, ratio) ← matcher.common a.summary.effects b.summary.effects
  if ratio < matchRatio then return d
  let sum := a.summary.branchCount + b.summary.branchCount
  return c.offer common sum (c.offer common sum d a) b

/-- Compare every two paths of a list, in order. -/
def compareAll (d : Decisions) : List SummarizedPath → Checked Decisions
  | [] => return d
  | s :: rest => do
    compareAll (← rest.foldlM (fun d t => c.comparePaths d s t) d) rest

/-- The blocks of a path after its first. -/
def blocksAfterCheck (path : Path) : List BlockId := path.blocks.tail

/-- Count the calls of a block towards the functions they may reach. -/
def tallyBlock (onErrorPath : Bool) (t : Table FuncId HandlerTally) (b : BlockId) :
    Checked (Table FuncId HandlerTally) := do
  (← c.program.block b).insts.foldlM (fun t i => do
    if (← c.program.op i).isCall then
      (c.graph.calleeList i).foldlM (fun t f => do
        if (← c.program.function f).attrs.intrinsic then return t
        return t.update f fun old => (old.getD {}).record onErrorPath) t
    else return t) t

/-- **Calls on error paths.** Count the calls in the blocks of a function that lie on a path of a
decided condition, by whether they lie on a path that decided one. -/
def tallyHandlers (f : FuncId) (paths : List SummarizedPath) (d : Decisions) :
    Checked (Table FuncId HandlerTally) := do
  let decided := paths.filter (·.path.reason.any d.matched.contains)
  let inspected := decided.flatMap (blocksAfterCheck ·.path)
  let inError := d.errorPaths.values.flatMap blocksAfterCheck
  let blocks := (← c.program.function f).blocks.filter (· ∈ inspected)
  blocks.foldlM (fun t b => c.tallyBlock (b ∈ inError) t b) {}

/-- **The evidence of similar paths** in a function. -/
def similarityEvidence (f : FuncId) : Checked Evidence := do
  let checks := (c.identifiedConditions f).filter (·.2.isFromBranch)
  if checks.isEmpty then return {}
  let paths ← c.summarizedPaths checks
  let d ← c.compareAll {} paths
  return {
    matched := d.matched
    handlers := ← c.tallyHandlers f paths d
    observed := ← c.observations d.matched }

end Context

end ErrorReturns
