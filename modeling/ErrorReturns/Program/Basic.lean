import ErrorReturns.Fault
import ErrorReturns.Program.Operation

/-!
# Programs

A program is a snapshot of compiled code: modules own functions, functions own blocks,
blocks own instructions. Each kind of entity lives in one arena, and operands and jumps
refer to other entities by name only. Beside the arenas a program carries what every
analysis asks for again and again: the edges between blocks, the users of each result, and
the position of each instruction in its block.

Looking up a name outside its arena is a `Fault`. Edges are the exception: a block that
does not exist has none.
-/

namespace ErrorReturns

/-- A position in a source file. -/
structure Position where
  file : String
  line : Nat
  column : Nat
deriving DecidableEq, Repr, Inhabited

/-- Where an instruction or a function stands in the source, with the chain of call sites that
it was inlined into, innermost first. -/
structure SourceLoc where
  position : Position
  inlinedAt : List Position := []
deriving DecidableEq, Repr, Inhabited

/-- An instruction: its operation, the type of its result, and where it stands. -/
structure Inst where
  op : Operation
  ty : Ty
  block : BlockId
  loc : Option SourceLoc
deriving Repr

/-- A basic block: the function it was created for, and its instructions in order. -/
structure Block where
  function : FuncId
  insts : List InstId
deriving Repr

/-- The instructions of a block before a position, which lies in the block or at its end. -/
def Block.before (b : Block) (n : Nat) : Checked (List InstId) :=
  if n ≤ b.insts.length then .ok (b.insts.take n) else .error (.offBlock n b.insts.length)

/-- What is known about a function beside its body. -/
structure Attributes where
  /-- Without side effects; calls of it are never reported. -/
  pure : Bool := false
  /-- An annotation of the compiler, such as a debug or lifetime marker. -/
  intrinsic : Bool := false
deriving DecidableEq, Repr

/-- A function. One without blocks is only declared. -/
structure Function where
  name : String
  module : ModuleId
  params : List Ty
  ret : Ty
  /-- In layout order, the entry first. -/
  blocks : List BlockId := []
  attrs : Attributes := {}
  /-- The name of the return type in the source. -/
  retTypeName : Option String := none
  loc : Option SourceLoc := none
deriving Repr

namespace Function

/-- Whether the function has no body. -/
def isDeclaration (f : Function) : Bool := f.blocks.isEmpty

/-- The block where the function begins. -/
def entry? (f : Function) : Option BlockId := f.blocks.head?

end Function

/-- A module: its name and its functions in order of declaration. -/
structure Module where
  name : String
  functions : List FuncId
deriving Repr

/-- The four arenas of a program. -/
structure Arena where
  modules : Array Module := #[]
  functions : Array Function := #[]
  blocks : Array Block := #[]
  insts : Array Inst := #[]
deriving Repr

namespace Arena

variable (a : Arena)

/-- The module of a name. -/
def module (id : ModuleId) : Checked Module :=
  match a.modules[id.index]? with
  | some m => .ok m
  | none => .error (.noModule id)

/-- The function of a name. -/
def function (id : FuncId) : Checked Function :=
  match a.functions[id.index]? with
  | some f => .ok f
  | none => .error (.noFunction id)

/-- The block of a name. -/
def block (id : BlockId) : Checked Block :=
  match a.blocks[id.index]? with
  | some b => .ok b
  | none => .error (.noBlock id)

/-- The instruction of a name. -/
def inst (id : InstId) : Checked Inst :=
  match a.insts[id.index]? with
  | some i => .ok i
  | none => .error (.noInst id)

/-- The operation of an instruction. -/
def op (id : InstId) : Checked Operation := return (← a.inst id).op

/-- The operation behind an operand, if the operand is the result of an instruction. -/
def opOf? (v : Value) : Checked (Option Operation) :=
  match v with
  | .inst id => return some (← a.op id)
  | _ => return none

/-- The type of an operand. A parameter that the function does not have is void, and an
undefined value is a 32-bit integer. -/
def typeOf (v : Value) : Checked Ty :=
  match v with
  | .inst id => return (← a.inst id).ty
  | .arg owner index => return (← a.function owner).params[index]?.getD .void
  | .const c => return .int c.bits
  | .null | .func _ | .global _ => return .ptr
  | .undef => return .int 32

end Arena

/-- **A program**: the arenas, and what follows from them about edges, users and positions. -/
structure Program extends Arena where
  /-- The blocks that each block may go to, in the order of its terminator. -/
  successorsOf : Array (List BlockId)
  /-- The blocks that may go to each block, in the order of the blocks. -/
  predecessorsOf : Array (List BlockId)
  /-- The instructions that read each result, in order. -/
  usersOf : Array (List InstId)
  /-- The place of each instruction in its block. -/
  positionOf : Array Nat
deriving Repr

namespace Program

variable (p : Program)

/-! ## Names and places -/

/-- The first function of a given name. -/
def functionNamed? (name : String) : Option FuncId :=
  (p.functions.findIdx? (·.name == name)).map FuncId.mk

/-- Every function, in order. -/
def functionIds : List FuncId := (List.range p.functions.size).map FuncId.mk

/-- Every module, in order. -/
def moduleIds : List ModuleId := (List.range p.modules.size).map ModuleId.mk

/-- The block that holds an instruction. -/
def blockOf (i : InstId) : Checked BlockId := return (← p.inst i).block

/-- The function that holds an instruction. -/
def functionOf (i : InstId) : Checked FuncId := do
  return (← p.block (← p.blockOf i)).function

/-- The place of an instruction in its block. -/
def position (i : InstId) : Checked Nat :=
  match p.positionOf[i.index]? with
  | some n => .ok n
  | none => .error (.noInst i)

/-- The instructions that read a result. -/
def users (i : InstId) : Checked (List InstId) :=
  match p.usersOf[i.index]? with
  | some us => .ok us
  | none => .error (.noInst i)

/-! ## Edges -/

/-- Where a block may go. -/
def successors (b : BlockId) : List BlockId := p.successorsOf[b.index]?.getD []

/-- Where a block may be reached from. -/
def predecessors (b : BlockId) : List BlockId := p.predecessorsOf[b.index]?.getD []

/-- The last instruction of a block, if it ends the block. -/
def terminator? (b : BlockId) : Checked (Option InstId) := do
  match (← p.block b).insts.getLast? with
  | none => return none
  | some last => return if (← p.op last).isTerminator then some last else none

/-- The operation that ends a block. -/
def terminatorOp? (b : BlockId) : Checked (Option Operation) := do
  match ← p.terminator? b with
  | none => return none
  | some last => return some (← p.op last)

/-! ## Instructions of a function -/

/-- The instructions of a function in layout order. -/
def instsIn (f : FuncId) : Checked (List InstId) := do
  return (← (← p.function f).blocks.mapM fun b => return (← p.block b).insts).flatten

/-- The calls of a function in layout order. -/
def callsIn (f : FuncId) : Checked (List InstId) := do
  (← p.instsIn f).filterM fun i => return (← p.op i).isCall

/-- The returns of a function in layout order. -/
def returnsIn (f : FuncId) : Checked (List InstId) := do
  (← p.instsIn f).filterM fun i => return (← p.op i).isReturn

/-- Whether an operand is the result of a call. -/
def isCall (v : Value) : Checked Bool := return (← p.opOf? v).any (·.isCall)

/-- Whether an operand is the result of a comparison. -/
def isCmp (v : Value) : Checked Bool := return (← p.opOf? v).any (·.isCmp)

/-- The call that an operand is the result of. -/
def callOf? (v : Value) : Checked (Option InstId) := do
  match v with
  | .inst i => return if (← p.op i).isCall then some i else none
  | _ => return none

/-- The function that an instruction calls by name. -/
def directCallee? (i : InstId) : Checked (Option FuncId) := do
  match ← p.op i with
  | .call (.direct f) _ => return some f
  | _ => return none

/-- Whether an instruction is inline assembly or calls an annotation of the compiler. -/
def isIntrinsicCall (i : InstId) : Checked Bool := do
  match ← p.op i with
  | .call .inlineAsm _ => return true
  | .call (.direct f) _ => return (← p.function f).attrs.intrinsic
  | _ => return false

/-- Whether all of a list are one value that is an integer constant or null. -/
def allOneConstant : List (Option Value) → Bool
  | some v :: rest => (v matches .const _ | .null) && rest.all (· == some v)
  | _ => false

/-- **Constant functions.** Whether a function returns, and every return yields the same
integer constant or null. -/
def returnsSingleConstant (f : FuncId) : Checked Bool := do
  let yields ← (← p.returnsIn f).mapM fun i => do
    match ← p.op i with
    | .ret v => return v
    | _ => return none
  return allOneConstant yields

end Program

end ErrorReturns
