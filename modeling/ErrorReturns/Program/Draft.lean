import ErrorReturns.Program.Basic

/-!
# Writing programs

A program is written as a list of directives: functions are declared first, and a
definition then adds blocks and instructions to one of them. Names are handed out in order
of creation, so a directive may speak of blocks and results that come later; only what a
directive has to look up must exist by then. `Program.build` carries out the directives and
freezes the arenas.
-/

namespace ErrorReturns

/-- One step of a function's definition. -/
inductive BodyDirective where
  /-- Create an empty block; the first one is the entry. -/
  | block
  /-- Add what follows to a block. -/
  | moveTo (block : BlockId)
  /-- Attach a source location to what follows. -/
  | setLoc (loc : Option SourceLoc)
  | call (callee : FuncId) (args : List Value)
  | callIndirect (target : Value) (args : List Value) (ty : Ty)
  | inlineAsm (ty : Ty)
  | load (ptr : Value) (ty : Ty)
  | store (ptr value : Value)
  | alloca
  | gep (base : Value) (offset : Option Int)
  | cast (kind : Cast) (value : Value) (ty : Ty)
  | freeze (value : Value)
  | select (cond ifTrue ifFalse : Value)
  | cmp (pred : Predicate) (lhs rhs : Value)
  | binop (op : BinOp) (lhs rhs : Value)
  | phi (ty : Ty) (incoming : List (BlockId × Value))
  /-- Give a phi its incoming values, which may have been created after it. -/
  | setPhi (phi : Value) (incoming : List (BlockId × Value))
  | extract (aggregate : Value) (index : Nat) (ty : Ty)
  | jump (target : BlockId)
  | branch (cond : Value) (ifTrue ifFalse : BlockId)
  /-- A switch whose case constants take the width of its condition. -/
  | switch (cond : Value) (default : BlockId) (cases : List (Int × BlockId))
  /-- A switch whose case constants have widths of their own. -/
  | switchOn (cond : Value) (default : BlockId) (cases : List (Constant × BlockId))
  | ret (value : Option Value)
  | unreachable
  /-- Any instruction, with the type it is said to have. -/
  | inst (op : Operation) (ty : Ty)
deriving Repr

/-- One step of writing a program. -/
inductive Directive where
  | module (name : String)
  | declare (module : ModuleId) (name : String) (params : List Ty) (ret : Ty)
  | setAttributes (f : FuncId) (attrs : Attributes)
  | setRetTypeName (f : FuncId) (name : String)
  | setFunctionLoc (f : FuncId) (loc : SourceLoc)
  | define (f : FuncId) (body : List BodyDirective)
deriving Repr

namespace Arena

/-- Change a function. -/
def modifyFunction (a : Arena) (id : FuncId) (f : Function → Function) : Checked Arena := do
  let _ ← a.function id
  return { a with functions := a.functions.modify id.index f }

/-- Change a module. -/
def modifyModule (a : Arena) (id : ModuleId) (f : Module → Module) : Checked Arena := do
  let _ ← a.module id
  return { a with modules := a.modules.modify id.index f }

/-- Change a block. -/
def modifyBlock (a : Arena) (id : BlockId) (f : Block → Block) : Checked Arena := do
  let _ ← a.block id
  return { a with blocks := a.blocks.modify id.index f }

/-- Change the operation of an instruction. -/
def modifyOp (a : Arena) (id : InstId) (f : Operation → Operation) : Checked Arena := do
  let _ ← a.inst id
  return { a with insts := a.insts.modify id.index fun i => { i with op := f i.op } }

/-- Create an empty block of a function. -/
def addBlock (a : Arena) (f : FuncId) : Checked (Arena × BlockId) := do
  let id : BlockId := ⟨a.blocks.size⟩
  let a ← a.modifyFunction f fun g => { g with blocks := g.blocks ++ [id] }
  return ({ a with blocks := a.blocks.push ⟨f, []⟩ }, id)

/-- Add an instruction at the end of its block. -/
def addInst (a : Arena) (i : Inst) : Checked Arena := do
  let id : InstId := ⟨a.insts.size⟩
  let a ← a.modifyBlock i.block fun b => { b with insts := b.insts ++ [id] }
  return { a with insts := a.insts.push i }

end Arena

/-- A function definition in progress: the arenas so far, the function, and the block and the
source location that the next instruction gets. -/
structure Draft where
  arena : Arena
  function : FuncId
  block : Option BlockId := none
  loc : Option SourceLoc := none
deriving Repr

namespace Draft

/-- Add an instruction to the current block. The first instruction of a definition that
has not chosen a block opens a new one. -/
def push (d : Draft) (op : Operation) (ty : Ty) : Checked Draft := do
  match d.block with
  | some b => return { d with arena := ← d.arena.addInst ⟨op, ty, b, d.loc⟩ }
  | none =>
    let (arena, b) ← d.arena.addBlock d.function
    return { d with arena := ← arena.addInst ⟨op, ty, b, d.loc⟩, block := some b }

/-- Give a phi new incoming values; anything else stays as it is. -/
def setIncoming (incoming : List (BlockId × Value)) : Operation → Operation
  | .phi _ => .phi incoming
  | op => op

/-- Carry out one step of a definition. -/
def step (d : Draft) : BodyDirective → Checked Draft
  | .block => do
    let (arena, _) ← d.arena.addBlock d.function
    return { d with arena }
  | .moveTo b => return { d with block := some b }
  | .setLoc loc => return { d with loc }
  | .call callee args => do
    d.push (.call (.direct callee) args) (← d.arena.function callee).ret
  | .callIndirect target args ty => d.push (.call (.indirect target) args) ty
  | .inlineAsm ty => d.push (.call .inlineAsm []) ty
  | .load ptr ty => d.push (.load ptr) ty
  | .store ptr value => d.push (.store ptr value) .void
  | .alloca => d.push .alloca .ptr
  | .gep base offset => d.push (.gep base offset) .ptr
  | .cast kind value ty => d.push (.cast kind value) ty
  | .freeze value => do d.push (.freeze value) (← d.arena.typeOf value)
  | .select cond ifTrue ifFalse => do
    d.push (.select cond ifTrue ifFalse) (← d.arena.typeOf ifTrue)
  | .cmp pred lhs rhs => d.push (.cmp pred lhs rhs) (.int 1)
  | .binop op lhs rhs => do d.push (.binop op lhs rhs) (← d.arena.typeOf lhs)
  | .phi ty incoming => d.push (.phi incoming) ty
  | .setPhi (.inst id) incoming =>
    return { d with arena := ← d.arena.modifyOp id (setIncoming incoming) }
  | .setPhi _ _ => return d
  | .extract aggregate index ty => d.push (.extract aggregate index) ty
  | .jump target => d.push (.jump target) .void
  | .branch cond ifTrue ifFalse => d.push (.branch cond ifTrue ifFalse) .void
  | .switch cond default cases => do
    let bits := (← d.arena.typeOf cond).width?.getD 32
    d.push (.switch cond default (cases.map fun c => (Constant.ofInt c.1 bits, c.2))) .void
  | .switchOn cond default cases => d.push (.switch cond default cases) .void
  | .ret value => d.push (.ret value) .void
  | .unreachable => d.push .unreachable .void
  | .inst op ty => d.push op ty

end Draft

namespace Arena

/-- Carry out one directive. -/
def step (a : Arena) : Directive → Checked Arena
  | .module name => return { a with modules := a.modules.push ⟨name, []⟩ }
  | .declare module name params ret => do
    let id : FuncId := ⟨a.functions.size⟩
    let a ← a.modifyModule module fun m => { m with functions := m.functions ++ [id] }
    return { a with functions := a.functions.push { name, module, params, ret } }
  | .setAttributes f attrs => a.modifyFunction f fun g => { g with attrs }
  | .setRetTypeName f name => a.modifyFunction f fun g => { g with retTypeName := some name }
  | .setFunctionLoc f loc => a.modifyFunction f fun g => { g with loc := some loc }
  | .define f body => do
    let d ← body.foldlM Draft.step ⟨a, f, none, none⟩
    return d.arena

/-! ## What follows from the arenas -/

/-- Number the instructions of a block from its start. -/
def markPositions (positions : Array Nat) (b : Block) : Array Nat :=
  b.insts.zipIdx.foldl (fun ps (i, n) => ps.setIfInBounds i.index n) positions

/-- The place of each instruction in its block. -/
def positions (a : Arena) : Array Nat :=
  a.blocks.foldl markPositions (Array.replicate a.insts.size 0)

/-- Note that an instruction reads an operand. -/
def markUser (user : InstId) (users : Array (List InstId)) : Value → Checked (Array (List InstId))
  | .inst used =>
    if used.index < users.size then
      return users.modify used.index fun us => if user ∈ us then us else us ++ [user]
    else .error (.noInst used)
  | _ => return users

/-- The instructions that read each result. Reading a result that does not exist is a
fault. -/
def users (a : Arena) : Checked (Array (List InstId)) :=
  a.insts.toList.zipIdx.foldlM
    (fun us (i, n) => i.op.operands.foldlM (markUser ⟨n⟩) us)
    (Array.replicate a.insts.size [])

/-- Where each block may go: the targets of its terminator that exist. -/
def successors (a : Arena) : Array (List BlockId) :=
  a.blocks.map fun b =>
    match b.insts.getLast?.bind fun last => a.insts[last.index]? with
    | some i => i.op.successors.filter (·.index < a.blocks.size)
    | none => []

/-- Reverse every edge. A block with two edges to one target precedes it twice. -/
def reverseEdges (successors : Array (List BlockId)) : Array (List BlockId) :=
  successors.toList.zipIdx.foldl
    (fun preds (targets, n) =>
      targets.foldl (fun ps t => ps.modify t.index fun bs => bs ++ [⟨n⟩]) preds)
    (Array.replicate successors.size [])

/-- Freeze the arenas. -/
def freeze (a : Arena) : Checked Program := do
  let usersOf ← a.users
  let successorsOf := a.successors
  return {
    toArena := a
    successorsOf
    predecessorsOf := reverseEdges successorsOf
    usersOf
    positionOf := a.positions }

end Arena

/-- **Build a program** from its directives. -/
def Program.build (directives : List Directive) : Checked Program := do
  (← directives.foldlM Arena.step {}).freeze

end ErrorReturns
