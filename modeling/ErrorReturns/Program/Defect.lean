import ErrorReturns.Program.Basic

/-!
# Structural defects of functions

Every analysis of a function relies on its blocks being well formed: each ends in its one
terminator, jumps stay inside the function, operands come from the function itself, and a
phi lists only blocks that can reach it. A function with a defect is left out on its own;
the rest of the program is analysed all the same.
-/

namespace ErrorReturns

/-- What is wrong with a block or one of its instructions. -/
inductive DefectKind where
  | missingTerminator (block : BlockId)
  | misplacedTerminator (block : BlockId) (inst : InstId)
  | foreignSuccessor (inst : InstId) (target : BlockId)
  | foreignOperand (inst operand : InstId)
  | badPhiIncoming (inst : InstId) (block : BlockId)
  | badArgument (inst : InstId) (owner : FuncId)
deriving DecidableEq, Repr

/-- A defect of a function. -/
structure Defect where
  /-- The name of the function. -/
  function : String
  kind : DefectKind
deriving DecidableEq, Repr

/-- The description of a defect, without the function it is in. -/
def DefectKind.message : DefectKind → String
  | missingTerminator block => s!"block {block.render} has no terminator"
  | misplacedTerminator block inst =>
    s!"terminator {inst.render} is not the last instruction of {block.render}"
  | foreignSuccessor inst target =>
    s!"{inst.render} jumps to {target.render}, which belongs to another function"
  | foreignOperand inst operand =>
    s!"{inst.render} uses {operand.render}, which is defined in another function"
  | badPhiIncoming inst block =>
    s!"phi {inst.render} has incoming block {block.render} that is not a predecessor"
  | badArgument inst owner =>
    s!"{inst.render} uses an argument of {owner.render} or one out of range"

/-- The description of a defect. -/
def Defect.message (d : Defect) : String := s!"function {d.function}: {d.kind.message}"

namespace Program

variable (p : Program)

/-- A block without a terminator at its end, or with one before it. -/
def terminatorDefect? (b : BlockId) (insts : List InstId) : Checked (Option DefectKind) := do
  match insts.getLast? with
  | none => return some (.missingTerminator b)
  | some last =>
    if !(← p.op last).isTerminator then return some (.missingTerminator b)
    let early ← insts.dropLast.findM? fun i => return (← p.op i).isTerminator
    return early.map (.misplacedTerminator b)

/-- A jump that leaves the function. -/
def successorDefect? (f : FuncId) (i : InstId) (op : Operation) : Option DefectKind :=
  let owned (target : BlockId) : Bool := p.blocks[target.index]?.any (·.function == f)
  (op.successors.find? fun target => !owned target).map (.foreignSuccessor i)

/-- An operand that is not the function's own. -/
def operandDefect? (f : FuncId) (arity : Nat) (i : InstId) : Value → Checked (Option DefectKind)
  | .inst used => do
    return if (← p.functionOf used) = f then none else some (.foreignOperand i used)
  | .arg owner index =>
    return if owner = f ∧ index < arity then none else some (.badArgument i owner)
  | _ => return none

/-- A phi that lists a block which does not lead to its own. -/
def phiDefect? (b : BlockId) (i : InstId) : Operation → Option DefectKind
  | .phi incoming =>
    (incoming.find? fun e => e.1 ∉ p.predecessors b).map fun e => .badPhiIncoming i e.1
  | _ => none

/-- The first defect of an instruction: its jumps, then its operands, then, for a phi, its
incoming blocks. -/
def instDefect? (f : FuncId) (arity : Nat) (b : BlockId) (i : InstId) :
    Checked (Option DefectKind) := do
  let op ← p.op i
  if let some d := p.successorDefect? f i op then return some d
  if let some d ← op.operands.findSomeM? (p.operandDefect? f arity i) then return some d
  return p.phiDefect? b i op

/-- The first defect of a block. -/
def blockDefect? (f : FuncId) (arity : Nat) (b : BlockId) : Checked (Option DefectKind) := do
  let insts := (← p.block b).insts
  if let some d ← p.terminatorDefect? b insts then return some d
  insts.findSomeM? (p.instDefect? f arity b)

/-- **The first structural defect of a function**, in layout order. A declaration has none. -/
def defect? (f : FuncId) : Checked (Option Defect) := do
  let function ← p.function f
  let kind? ← function.blocks.findSomeM? (p.blockDefect? f function.params.length)
  return kind?.map (⟨function.name, ·⟩)

end Program

end ErrorReturns
