/-!
# Sharing out modules

The modules of a program are worked on by several workers. Workers take modules off a common
counter; a worker whose work fails moves the counter to the end, so that no further module is
handed out, and reports its failure unless another one has been reported. Every action of a
worker on what is shared is a turn of its own, and turns may come in any order. With a single
worker the modules are visited in order, up to the first that fails.
-/

namespace ErrorReturns.Schedule

/-- What a worker is about to do. -/
inductive Phase (ε : Type) where
  /-- Take the next module. -/
  | idle
  /-- Finish the work on a module. -/
  | working (m : Nat)
  /-- Report a failure. -/
  | failing (e : ε)
  /-- Nothing any more. -/
  | done
deriving DecidableEq, Repr

/-- What the workers share, and what each of them is about to do. -/
structure Pool (ε : Type) where
  /-- The counter. -/
  next : Nat := 0
  /-- The modules that were taken, in order. -/
  taken : List Nat := []
  failure : Option ε := none
  workers : List (Phase ε)
deriving Repr

namespace Pool

variable {ε : Type}

/-- Some workers before they start. -/
def start (workers : Nat) : Pool ε where
  workers := List.replicate workers .idle

/-- Let a worker enter a phase. -/
def enter (s : Pool ε) (w : Nat) (phase : Phase ε) : Pool ε :=
  { s with workers := s.workers.set w phase }

/-- Take the next module, or find that there is none. -/
def take (count : Nat) (s : Pool ε) (w : Nat) : Pool ε :=
  if s.next < count then
    { s with next := s.next + 1, taken := s.taken ++ [s.next] }.enter w (.working s.next)
  else { s with next := s.next + 1 }.enter w .done

/-- **A turn of a worker**, where `count` modules are shared out and `work` says how the work on
each ends. -/
def turn (count : Nat) (work : Nat → Except ε Unit) (s : Pool ε) (w : Nat) : Pool ε :=
  match s.workers[w]? with
  | some .idle => s.take count w
  | some (.working m) =>
    match work m with
    | .ok () => s.enter w .idle
    | .error e => { s with next := count }.enter w (.failing e)
  | some (.failing e) => { s with failure := s.failure <|> some e }.enter w .done
  | some .done | none => s

/-- Whether every worker is done. -/
def isFinal (s : Pool ε) : Bool := s.workers.all (· matches .done)

/-- Let workers take turns, in the given order. -/
def runTurns (count : Nat) (work : Nat → Except ε Unit) (s : Pool ε) (turns : List Nat) : Pool ε :=
  turns.foldl (turn count work) s

end Pool

/-- The modules that were visited, and the failure that stopped the work, if one did. -/
structure Visit (ε : Type) where
  visited : List Nat
  failure : Option ε
deriving Repr

/-- A single worker: visit modules in order, up to the first that fails. -/
def visitInOrder {ε : Type} (work : Nat → Except ε Unit) : List Nat → Visit ε
  | [] => ⟨[], none⟩
  | m :: rest =>
    match work m with
    | .error e => ⟨[m], some e⟩
    | .ok () =>
      let later := visitInOrder work rest
      ⟨m :: later.visited, later.failure⟩

/-- Several workers that take turns one after the other. A module costs its worker two turns, and
stopping costs two more, so that many rounds are enough. -/
def visitInTurns {ε : Type} (workers count : Nat) (work : Nat → Except ε Unit) : Visit ε :=
  let turns := (List.replicate (2 * count + 3) (List.range workers)).flatten
  let final := Pool.runTurns count work (.start workers) turns
  ⟨final.taken, final.failure⟩

/-- How many workers share the modules. -/
def workerCount (threads count : Nat) : Nat := min threads count

/-- **Work on every module** with at most `threads` workers. -/
def visit {ε : Type} (threads count : Nat) (work : Nat → Except ε Unit) : Visit ε :=
  if workerCount threads count ≤ 1 then visitInOrder work (List.range count)
  else visitInTurns (workerCount threads count) count work

end ErrorReturns.Schedule
