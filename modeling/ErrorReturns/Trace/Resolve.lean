import ErrorReturns.Program.Pointer
import ErrorReturns.Trace.Slice

/-!
# Resolving values along a slice

Given one execution, a value is traced back to the most specific operand it can be
attributed to without leaving that execution. Constants, parameters, calls, stack slots,
addresses and extracted fields are final. A load takes the value of the nearest earlier store
to its address; casts and freezes pass their operand on; selects, comparisons and phis are
decided by what the slice itself proves. A value that cannot be attributed has no resolution,
which says nothing about what it may be.

Phis and comparisons may lead back to themselves around a loop. The values they have been
entered for are kept in a list, the *seen* values, which a caller may carry on from one value
to the next. Other cycles are not recognised: the recursion carries a depth, and using it up
is a fault.
-/

namespace ErrorReturns

/-- What a resolution needs to know: the program, an alias oracle and the slice. -/
structure Resolver where
  program : Program
  mayAlias : AliasOracle
  slice : Slice

/-- A resolution, if there is one, and the values seen so far. -/
abbrev Resolution := Option Value × List Value

namespace Resolver

variable (r : Resolver)

/-! ## Looking back -/

/-- The instructions of a block that come before one of them, latest first. -/
def earlierInBlock (origin : InstId) : Checked (List InstId) := do
  let block ← r.program.block (← r.program.blockOf origin)
  return (← block.before (← r.program.position origin)).reverse

/-- The positions of the slice before the block of an instruction, latest first; none if the
block is not on the slice. -/
def earlierPositions (origin : InstId) : Checked (List Nat) := do
  match r.slice.lastIndex? (← r.program.blockOf origin) with
  | some n => return (List.range n).reverse
  | none => return []

/-- The instructions of the block at a position, latest first. -/
def instsAt (n : Nat) : Checked (List InstId) := do
  return (← r.program.block (← r.slice.get n)).insts.reverse

/-- The result of the first instruction, looking back from `origin`, for which there is one. -/
def findBack {α : Type} (origin : InstId) (visit : InstId → Checked (Option α)) :
    Checked (Option α) := do
  if let some found ← (← r.earlierInBlock origin).findSomeM? visit then return some found
  (← r.earlierPositions origin).findSomeM? fun n => do (← r.instsAt n).findSomeM? visit

/-- Every instruction before `origin` on the slice, latest first. -/
def before (origin : InstId) : Checked (List InstId) := do
  return (← r.earlierInBlock origin) ++
    (← (← r.earlierPositions origin).mapM r.instsAt).flatten

/-! ## Loads -/

/-- Whether an instruction computes an address with the given offset from another base that
may be the same object. -/
def isGepAlias (base : Value) (offset : Int) (i : InstId) : Checked Bool := do
  match ← r.program.op i with
  | .gep _ _ =>
    let (base', offset') ← r.program.stripOffsets (.inst i)
    if offset' = offset ∧ base' ≠ base then r.mayAlias r.program base base' else return false
  | _ => return false

/-- **The addresses that stand for a load's address**: itself, and, if it was loaded, every
earlier load of the same place, or, if it was computed, every earlier address at the same
offset that may be the same. -/
def addressesOf (load : InstId) (ptr : Value) : Checked (List Value) := do
  match ← r.program.opOf? ptr with
  | some (.load inner) =>
    let others ← (← r.before load).filterM fun i => return (← r.program.op i) == .load inner
    return ptr :: others.map .inst
  | some (.gep _ _) =>
    let (base, offset) ← r.program.stripOffsets ptr
    let others ← (← r.before load).filterM (r.isGepAlias base offset)
    return ptr :: others.map .inst
  | _ => return [ptr]

/-- The value that the nearest earlier store to a load's address wrote. -/
def storedValue? (load : InstId) (ptr : Value) : Checked (Option Value) := do
  let addresses ← r.addressesOf load ptr
  r.findBack load fun i => do
    match ← r.program.op i with
    | .store target value => return if target ∈ addresses then some value else none
    | _ => return none

/-! ## Phis -/

/-- Of the incoming values whose blocks are on the slice, the one that comes in latest. The
block of the phi itself does not count, and the first of two equally late values is taken. -/
def nearestIncoming? (own : BlockId) (incoming : List (BlockId × Value)) : Option Value :=
  let candidates := incoming.filterMap fun (source, v) =>
    if source = own then none else (r.slice.lastIndex? source).map (·, v)
  let nearest := candidates.foldl (fun best c =>
    match best with
    | some b => if b.1 < c.1 then some c else best
    | none => some c) none
  nearest.map (·.2)

/-! ## Comparisons

A comparison is decided by a branch or a switch that the slice has passed before it and that
compares the same two values. How values are resolved on the way is left open here, and so is
the monad, so that a resolution can also be looked at without being carried out. -/

section Open

variable {m : Type → Type} [Monad m] [MonadLiftT Checked m]
  (resolve : Value → List Value → m Resolution)

/-- The truth of a comparison that a passed branch implies, where `truth` is what holds on the
side that was taken. -/
def impliedBy (truth pred : Predicate) : Option Bool :=
  if truth.impliesTrue pred then some true
  else if truth.impliesFalse pred then some false
  else none

/-- What a comparison asks: the instruction, the predicate, and its resolved operands. -/
structure Question where
  cmp : InstId
  pred : Predicate
  lhs : Value
  rhs : Value

/-- What a branch on another comparison says about a question. A comparison whose left operand
has been seen is passed over. -/
def answerOfBranch (q : Question) (cond : Value) (taken : Bool) (seen : List Value) :
    m (Option Bool × List Value) := do
  match ← r.program.opOf? cond with
  | some (.cmp pred lhs rhs) =>
    if cond = .inst q.cmp ∨ lhs ∈ seen then return (none, seen)
    let (lhs?, seen) ← resolve lhs (lhs :: seen)
    if lhs? ≠ some q.lhs then return (none, seen)
    let (rhs?, seen) ← resolve rhs seen
    if rhs? ≠ some q.rhs then return (none, seen)
    return (impliedBy (if taken then pred else pred.inverse) q.pred, seen)
  | _ => return (none, seen)

/-- What a switch says about a question: its case that leads to the next block, compared with
the question's constant. -/
def answerOfSwitch (q : Question) (cond : Value) (cases : List (Constant × BlockId))
    (next : BlockId) (seen : List Value) : m (Option Bool × List Value) := do
  let (cond?, seen) ← resolve cond seen
  if cond? ≠ some q.lhs then return (none, seen)
  match q.rhs.const?, cases.find? (·.2 == next) with
  | some c, some (k, _) => return (some (q.pred.evaluate k c), seen)
  | _, _ => return (none, seen)

/-- What the end of the block at a position says about a question. -/
def answerAt (q : Question) (n : Nat) (seen : List Value) : m (Option Bool × List Value) := do
  let block ← r.slice.get n
  let next ← r.slice.get (n + 1)
  match ← r.program.terminatorOp? block with
  | some (.branch cond ifTrue _) => r.answerOfBranch resolve q cond (ifTrue == next) seen
  | some (.switch cond _ cases) => answerOfSwitch resolve q cond cases next seen
  | _ => return (none, seen)

/-- The answer of the first of some positions that has one; without one the comparison stands
for itself. -/
def answer (q : Question) : List Nat → List Value → m Resolution
  | [], seen => return (some (.inst q.cmp), seen)
  | n :: rest, seen => do
    match ← r.answerAt resolve q n seen with
    | (some b, seen) => return (some (.const (Constant.ofBool b)), seen)
    | (none, seen) => answer q rest seen

/-- Resolve a comparison: both operands, then the branches and switches passed before it. -/
def resolveCmp (cmp : InstId) (pred : Predicate) (lhs rhs : Value) (seen : List Value) :
    m Resolution := do
  match ← resolve lhs seen with
  | (none, seen) => return (some (.inst cmp), seen)
  | (some lhs, seen) =>
    match ← resolve rhs seen with
    | (none, seen) => return (some (.inst cmp), seen)
    | (some rhs, seen) => r.answer resolve ⟨cmp, pred, lhs, rhs⟩ (← r.earlierPositions cmp) seen

/-! ## Resolution -/

/-- One level of a resolution. -/
def step (v : Value) (seen : List Value) : m Resolution :=
  match v with
  | .inst id => do
    match ← r.program.op id with
    | .call _ _ | .alloca | .gep _ _ | .extract _ _ => return (some (.inst id), seen)
    | .load ptr =>
      match ← r.storedValue? id ptr with
      | some stored => resolve stored seen
      | none =>
        match ← r.program.opOf? ptr with
        | some (.load _) => resolve ptr seen
        | some (.gep _ _) => return (some ptr, seen)
        | _ => return (none, seen)
    | .cast _ inner => resolve inner seen
    | .freeze inner => resolve inner seen
    | .select cond ifTrue ifFalse =>
      let (cond?, seen) ← resolve cond seen
      match cond?.bind Value.const? with
      | some c => resolve (if c.isZero then ifFalse else ifTrue) seen
      | none => return (some (.inst id), seen)
    | .cmp pred lhs rhs => r.resolveCmp resolve id pred lhs rhs seen
    | .phi incoming =>
      if Value.inst id ∈ seen then return (none, seen)
      let seen := Value.inst id :: seen
      match r.nearestIncoming? (← r.program.blockOf id) incoming with
      | some v => resolve v seen
      | none => return (none, seen)
    | _ => return (none, seen)
  | v => return (some v, seen)

end Open

/-- **Resolve a value** along the slice, with at most `depth` values one inside another. -/
def resolve : (depth : Nat) → Value → List Value → Checked Resolution
  | 0, _, _ => .error .tooDeep
  | depth + 1, v, seen => r.step (resolve depth) v seen

/-- A depth that is enough whenever any is. A chain of resolutions that meets one instruction
twice with the same seen values never ends, and at most every instruction and every left
operand of a comparison comes to be seen. -/
def enoughDepth : Nat :=
  let n := r.program.insts.size
  (n + 1) * (2 * n + 2)

/-- Resolve a value, having seen some values before. -/
def resolveSeeing (v : Value) (seen : List Value) : Checked Resolution :=
  r.resolve r.enoughDepth v seen

/-- Resolve a value on its own. -/
def resolveFresh (v : Value) : Checked (Option Value) := return (← r.resolveSeeing v []).1

/-- Resolve several values one after another, each seeing what those before it have seen. -/
def resolveEach : List Value → List Value → Checked (List (Option Value))
  | [], _ => return []
  | v :: rest, seen => do
    let (v?, seen) ← r.resolveSeeing v seen
    return v? :: (← resolveEach rest seen)

end Resolver

/-- Resolve a value, if there is one, along a path written in the order of execution. -/
def Program.resolveAlong (p : Program) (mayAlias : AliasOracle) (path : List BlockId)
    (v : Option Value) : Checked (Option Value) :=
  match v with
  | some v => Resolver.resolveFresh ⟨p, mayAlias, Slice.forward path⟩ v
  | none => return none

end ErrorReturns
