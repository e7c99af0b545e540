import ErrorReturns.Fault

/-!
# Slices of an execution

A slice is the list of blocks that one execution runs through. It may be written in the
order of execution or latest block first, which is how a walk up the predecessors finds
them; positions always count in the order of execution.
-/

namespace ErrorReturns

/-- A run of blocks, with the direction in which it is written down. -/
structure Slice where
  blocks : List BlockId
  /-- The latest block is written first. -/
  backwards : Bool := false
deriving DecidableEq, Repr

namespace Slice

/-- A slice written in the order of execution. -/
def forward (blocks : List BlockId) : Slice := ⟨blocks, false⟩

/-- A slice written latest block first. -/
def backward (blocks : List BlockId) : Slice := ⟨blocks, true⟩

/-- How many blocks the slice has. -/
def length (s : Slice) : Nat := s.blocks.length

/-- The block at a position. -/
def get? (s : Slice) (i : Nat) : Option BlockId :=
  if i < s.length then s.blocks[if s.backwards then s.length - 1 - i else i]? else none

/-- The block at a position, which has to be on the slice. -/
def get (s : Slice) (i : Nat) : Checked BlockId :=
  match s.get? i with
  | some b => .ok b
  | none => .error (.offPath i s.length)

/-- Whether a block is on the slice. -/
def contains (s : Slice) (b : BlockId) : Bool := b ∈ s.blocks

/-- The last position of a block. -/
def lastIndex? (s : Slice) (b : BlockId) : Option Nat :=
  (List.range s.length).reverse.find? fun i => s.get? i == some b

end Slice

end ErrorReturns
