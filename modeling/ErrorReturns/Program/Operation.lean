import ErrorReturns.Program.Value

/-!
# What instructions do

An instruction performs one operation. The last five operations end a block: `successors`
lists where they may go, and `operands` lists what any operation reads.
-/

namespace ErrorReturns

/-- A conversion between types. -/
inductive Cast where
  | trunc
  | zext
  | sext
  | bitcast
  | ptrToInt
  | intToPtr
deriving DecidableEq, Repr

namespace Cast

/-- Every conversion. -/
def all : List Cast := [trunc, zext, sext, bitcast, ptrToInt, intToPtr]

/-- The written name of a conversion. -/
def name : Cast → String
  | trunc => "trunc"
  | zext => "zext"
  | sext => "sext"
  | bitcast => "bitcast"
  | ptrToInt => "ptrtoint"
  | intToPtr => "inttoptr"

/-- The conversion of a given name. -/
def ofName? (name : String) : Option Cast := all.find? fun c => c.name == name

end Cast

/-- An arithmetic or bitwise operation on two integers. -/
inductive BinOp where
  | add
  | sub
  | mul
  | sdiv
  | udiv
  | srem
  | urem
  | and
  | or
  | xor
  | shl
  | lshr
  | ashr
deriving DecidableEq, Repr

namespace BinOp

/-- Every operation on two integers. -/
def all : List BinOp :=
  [add, sub, mul, sdiv, udiv, srem, urem, and, or, xor, shl, lshr, ashr]

/-- The written name of an operation. -/
def name : BinOp → String
  | add => "add"
  | sub => "sub"
  | mul => "mul"
  | sdiv => "sdiv"
  | udiv => "udiv"
  | srem => "srem"
  | urem => "urem"
  | and => "and"
  | or => "or"
  | xor => "xor"
  | shl => "shl"
  | lshr => "lshr"
  | ashr => "ashr"

/-- The operation of a given name. -/
def ofName? (name : String) : Option BinOp := all.find? fun op => op.name == name

end BinOp

/-- What a call instruction calls. -/
inductive Callee where
  | direct (f : FuncId)
  /-- A call through an address; the call graph says where it may go. -/
  | indirect (target : Value)
  | inlineAsm
deriving DecidableEq, Repr

/-- The operation of an instruction. -/
inductive Operation where
  | call (callee : Callee) (args : List Value)
  | load (ptr : Value)
  | store (ptr value : Value)
  /-- A fresh stack slot. -/
  | alloca
  /-- An address at an offset from a base, where the offset may be unknown. -/
  | gep (base : Value) (offset : Option Int)
  | cast (kind : Cast) (value : Value)
  | freeze (value : Value)
  | select (cond ifTrue ifFalse : Value)
  | cmp (pred : Predicate) (lhs rhs : Value)
  | binop (op : BinOp) (lhs rhs : Value)
  | phi (incoming : List (BlockId × Value))
  | extract (aggregate : Value) (index : Nat)
  | jump (target : BlockId)
  | branch (cond : Value) (ifTrue ifFalse : BlockId)
  | switch (cond : Value) (default : BlockId) (cases : List (Constant × BlockId))
  | ret (value : Option Value)
  | unreachable
deriving DecidableEq, Repr

namespace Operation

/-- Whether the operation ends a block. -/
def isTerminator : Operation → Bool
  | jump _ | branch _ _ _ | switch _ _ _ | ret _ | unreachable => true
  | _ => false

/-- Whether the operation is a call. -/
def isCall : Operation → Bool
  | call _ _ => true
  | _ => false

/-- Whether the operation is a comparison. -/
def isCmp : Operation → Bool
  | cmp _ _ _ => true
  | _ => false

/-- Whether the operation returns from the function. -/
def isReturn : Operation → Bool
  | ret _ => true
  | _ => false

/-- Where the operation may go, in order; a switch lists its default first. -/
def successors : Operation → List BlockId
  | jump target => [target]
  | branch _ ifTrue ifFalse => [ifTrue, ifFalse]
  | switch _ default cases => default :: cases.map (·.2)
  | _ => []

/-- What the operation reads, in a fixed order: a call its arguments and then the address it
goes through, a store its value and then its address. -/
def operands : Operation → List Value
  | call (.indirect target) args => args ++ [target]
  | call _ args => args
  | load ptr => [ptr]
  | store ptr value => [value, ptr]
  | gep base _ => [base]
  | cast _ value => [value]
  | freeze value => [value]
  | select cond ifTrue ifFalse => [cond, ifTrue, ifFalse]
  | cmp _ lhs rhs => [lhs, rhs]
  | binop _ lhs rhs => [lhs, rhs]
  | phi incoming => incoming.map (·.2)
  | extract aggregate _ => [aggregate]
  | branch cond _ _ => [cond]
  | switch cond _ _ => [cond]
  | ret value => value.toList
  | alloca | jump _ | unreachable => []

end Operation

end ErrorReturns
