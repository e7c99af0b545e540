import ErrorReturns.Program.Basic

/-!
# Chains of blocks without a choice

Two blocks are linked when every edge out of, or into, the one goes to, or comes from, the
other. Following such links gives the run of blocks that is executed as a whole: backwards,
everything that must have happened before a block; forwards, everything that must happen
after it. A chain stops before it would meet itself again.
-/

namespace ErrorReturns

/-- The one element of a list, however often it occurs. -/
def onlyOne? {α : Type} [DecidableEq α] : List α → Option α
  | [] => none
  | a :: rest => if rest.all (· == a) then some a else none

namespace Program

/-- The predecessor that all edges into a block come from. -/
def uniquePredecessor? (p : Program) (b : BlockId) : Option BlockId := onlyOne? (p.predecessors b)

/-- The successor that all edges out of a block go to. -/
def uniqueSuccessor? (p : Program) (b : BlockId) : Option BlockId := onlyOne? (p.successors b)

/-- Follow links from a block until there is none or it leads back to a visited block. Each
step visits a new block, so as many steps as there are blocks are enough. -/
def follow (next : BlockId → Option BlockId) : Nat → List BlockId → BlockId → List BlockId
  | 0, _, b => [b]
  | steps + 1, visited, b =>
    match next b with
    | none => [b]
    | some c => if c ∈ visited then [b] else b :: follow next steps (c :: visited) c

/-- **The chain before a block**: the block, its unique predecessor, and so on, latest
first. -/
def chainBackward (p : Program) (b : BlockId) : List BlockId :=
  follow p.uniquePredecessor? p.blocks.size [b] b

/-- **The chain after a block**: the block, its unique successor, and so on. -/
def chainForward (p : Program) (b : BlockId) : List BlockId :=
  follow p.uniqueSuccessor? p.blocks.size [b] b

/-- A path together with the chain before its first block, in the order of execution. -/
def extendBackward (p : Program) (path : List BlockId) : List BlockId :=
  match path with
  | [] => []
  | first :: _ => (p.chainBackward first).tail.reverse ++ path

end Program

end ErrorReturns
