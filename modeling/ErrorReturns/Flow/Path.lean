import ErrorReturns.Flow.Chain

/-!
# Paths from a check to the exits

Starting at a check, the paths of a function are enumerated up to its returns. Blocks with
one way out are followed without a choice. At a fork every way out is taken, but once a path
has forked, a later fork is followed only if it shares a successor with the first one:
unrelated conditionals nested in a branch are cut off. A path also ends when it touches a
boundary block, which belongs to another check, and before it would visit a block twice.
-/

namespace ErrorReturns

/-- The place of a condition in the list of a function's conditions. -/
structure CheckId where
  function : FuncId
  index : Nat
deriving DecidableEq, Repr

/-- Conditions are ordered by their functions, then by their places. -/
instance : Ord CheckId where
  compare a b := (compare a.function b.function).then (compare a.index b.index)

instance : Std.TransOrd CheckId :=
  inferInstanceAs
    (Std.TransCmp (compareLex (compareOn CheckId.function) (compareOn CheckId.index)))

/-- The blocks of a path in the order of execution, and the check it starts from. -/
structure Path where
  blocks : List BlockId
  reason : Option CheckId := none
deriving DecidableEq, Repr

namespace Path

/-- A path with one more block. -/
def push (path : Path) (b : BlockId) : Path := { path with blocks := path.blocks ++ [b] }

end Path

/-- The outcome of a walk: the path it extended, and the paths that split off on the way. -/
structure Walk where
  path : Path
  forks : List Path
deriving DecidableEq, Repr

namespace Walk

/-- Join the walks into the successors of a fork. The walk into the last successor goes on
with the current path; each of the others is a path of its own, listed before it. -/
def join (here : Path) : List Walk → Walk
  | [] => ⟨here, []⟩
  | [w] => w
  | w :: rest =>
    let last := join here rest
    ⟨last.path, (w.path :: w.forks) ++ last.forks⟩

end Walk

namespace Program

variable (p : Program)

/-- Whether a path ends at a block because of how the block ends. -/
def endsPath (b : BlockId) : Checked Bool := do
  match ← p.terminatorOp? b with
  | some (.ret _) | some .unreachable | none => return true
  | _ => return false

/-- Whether a fork may be followed, given the first fork of the path. -/
def mayFork (first : Option BlockId) (b : BlockId) : Bool :=
  match first with
  | none => true
  | some f => (p.successors b).any (· ∈ p.successors f)

/-- Extend a path by the walks from a block. Each level visits a new block, so `steps` need not
exceed the number of blocks. -/
def walk (boundary : List BlockId) :
    (steps : Nat) → (path : Path) → (visited : List BlockId) → (first : Option BlockId) →
    (b : BlockId) → Checked Walk
  | 0, path, _, _, _ => return ⟨path, []⟩
  | steps + 1, path, visited, first, b => do
    if b ∈ visited then return ⟨path, []⟩
    let here := path.push b
    if here.blocks.length > 1 ∧ b ∈ boundary then return ⟨here, []⟩
    if ← p.endsPath b then return ⟨here, []⟩
    match p.uniqueSuccessor? b with
    | some next => walk boundary steps here (b :: visited) first next
    | none =>
      if p.mayFork first b then
        let walks ← (p.successors b).mapM
          (walk boundary steps here (b :: visited) (some (first.getD b)))
        return Walk.join here walks
      else return ⟨here, []⟩

/-- **Every path from a block** that continues the blocks of `seed`. The first one listed is the
walk that keeps to the last successor at every fork. -/
def pathsFrom (boundary : List BlockId) (start : BlockId) (seed : Path) : Checked (List Path) := do
  let w ← p.walk boundary (p.blocks.size + 1) seed [] none start
  return w.path :: w.forks

end Program

end ErrorReturns
