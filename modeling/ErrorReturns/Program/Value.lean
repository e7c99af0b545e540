import ErrorReturns.Constant
import ErrorReturns.Program.Entity

/-!
# Types and operands

Types are reduced to what the analysis tells apart. An operand of an instruction is the
result of another instruction, a parameter, or one of several kinds of constant.
-/

namespace ErrorReturns

/-- The type of a value. -/
inductive Ty where
  | void
  /-- An integer of the given width. -/
  | int (bits : Nat)
  | ptr
  | aggregate (fields : List Ty)
deriving Repr, Inhabited

namespace Ty

/-- Whether this is the type of no value. -/
def isVoid : Ty → Bool
  | void => true
  | _ => false

/-- Whether this is a type of addresses. -/
def isPtr : Ty → Bool
  | ptr => true
  | _ => false

/-- The width of an integer type. -/
def width? : Ty → Option Nat
  | int bits => some bits
  | _ => none

end Ty

/-- An operand of an instruction. -/
inductive Value where
  /-- The result of an instruction. -/
  | inst (id : InstId)
  /-- A parameter of a function. -/
  | arg (owner : FuncId) (index : Nat)
  | const (c : Constant)
  /-- The null address. -/
  | null
  /-- The address of a function. -/
  | func (id : FuncId)
  /-- The address of a global variable. -/
  | global (index : Nat)
  | undef
deriving DecidableEq, Repr

namespace Value

/-- An integer constant of a given width. -/
def int (v : Int) (bits : Nat) : Value := const (Constant.ofInt v bits)

/-- The instruction whose result this is. -/
def inst? : Value → Option InstId
  | inst id => some id
  | _ => none

/-- The integer constant this is. -/
def const? : Value → Option Constant
  | const c => some c
  | _ => none

/-- Whether the operand is a constant of any kind, addresses of functions and globals
included. -/
def isConstant : Value → Bool
  | inst _ | arg _ _ => false
  | _ => true

/-- **The 32-bit integer an operand stands for** on the right of a comparison: an integer
constant is cut to 32 bits, and the null address counts as zero. -/
def word32? : Value → Option Int
  | const c => some c.toWord32
  | null => some 0
  | _ => none

/-- The written form of an operand. -/
def render : Value → String
  | inst id => id.render
  | arg owner index => s!"{owner.render}.arg{index}"
  | const c => s!"i{c.bits} {c.value}"
  | null => "null"
  | func id => s!"@{id.render}"
  | global index => s!"@g{index}"
  | undef => "undef"

end Value

end ErrorReturns
