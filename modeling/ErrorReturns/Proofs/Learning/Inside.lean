import ErrorReturns.Learning
import ErrorReturns.Proofs.Learning.ErrorSide
import ErrorReturns.Proofs.Learning.Grounded
import ErrorReturns.Proofs.Learning.PoolBound
import ErrorReturns.Proofs.ReturnRange.Walk
import ErrorReturns.Proofs.Summary.Inside

/-!
# Learning stays in the program

One contract for each part of learning, in a sound context: what it looks up can be looked up, and
what it observes and comes to know is about functions of the program. Two faults are left: a
resolution that never ends, and, where observations are stored, a count that is no word. The second
one is foreseen only for slots that were observed more than 32 times (`Histogram.Storable`).
-/

namespace ErrorReturns

open Checked
open RangeSet (Reachable)

namespace Context.Sound

variable {c : Context} {F : Fault → Prop} (hc : c.Sound)
include hc

/-! ## Similar paths -/

omit hc in
/-- The error values of a condition are found if it names what exists. -/
theorem meets_errorValues? (hp : c.program.Inside) {cond : Condition}
    (hcond : cond.Within c.program) (m : Match) :
    Meets F (fun _ => True) (c.program.errorValues? cond m) := by
  unfold Program.errorValues?
  split
  case h_1 lhs pred rhs origin =>
    refine (Program.meets_callOf? hcond.value).bind fun call? _ => ?_
    cases call? with
    | none => exact meets_pure trivial
    | some call =>
      refine (hp.meets_blockOf hcond.origin).bind fun b hb => ?_
      refine (hp.meets_terminatorOp? hb).bind fun op? _ => ?_
      cases rhs.word32? <;> dsimp only <;> split <;> exact meets_pure trivial
  case h_2 => exact meets_pure trivial

omit hc in
/-- So are those of all decided conditions. -/
theorem meets_errorValuesByCall (hp : c.program.Inside)
    (hconditions : ∀ id cond, c.condition? id = some cond → cond.Within c.program)
    (matched : Table CheckId Match) :
    Meets F (fun _ => True) (c.errorValuesByCall matched) := by
  refine meets_foldlM (fun t _ e _ => ?_) trivial
  dsimp only
  split
  case h_1 cond hcond =>
    refine (meets_errorValues? hp (hconditions _ cond hcond) e.2).bind fun x? _ => ?_
    cases x? <;> exact meets_pure trivial
  case h_2 => exact meets_pure trivial

end Context.Sound

/-! ## The worklist

Whenever a function is visited for the first time its callers may go on the stack. The edges into
functions that have not been visited therefore bound what will still be put there. -/

namespace CallGraph

/-- How many edges lead to functions that have not been visited. -/
def edgesLeft (g : CallGraph) (seen : List FuncId) : Nat :=
  g.sources.entries.foldr (fun e n => if e.1 ∈ seen then n else e.2.size + n) 0

theorem edgesLeft_nil (g : CallGraph) : g.edgesLeft [] = g.edgeCount := by
  unfold edgesLeft edgeCount Table.values
  rw [List.foldr_map]
  simp

/-- Visiting a function takes the edges from its callers away. -/
theorem edgesLeft_visit (g : CallGraph) {f : FuncId} {seen : List FuncId} (h : f ∉ seen) :
    g.edgesLeft (f :: seen) + (g.callers f).length ≤ g.edgesLeft seen := by
  show _ + ((Table.find f g.sources.entries).getD {}).size ≤ _
  unfold edgesLeft
  induction g.sources.entries with
  | nil => exact Nat.le_refl 0
  | cons e rest ih =>
    obtain ⟨k, calls⟩ := e
    rw [List.foldr_cons, List.foldr_cons]
    by_cases hk : f = k
    · -- the entry of the function itself: its calls are taken away, and no later entry counts
      subst hk
      rw [Table.find_cons_self, if_pos List.mem_cons_self, if_neg h, Option.getD_some]
      dsimp only
      omega
    · rw [Table.find_cons_of_ne hk]
      by_cases hseen : k ∈ seen
      · rw [if_pos (List.mem_cons_of_mem f hseen), if_pos hseen]
        exact ih
      · rw [if_neg (List.not_mem_cons_of_ne_of_not_mem (Ne.symm hk) hseen), if_neg hseen]
        omega

end CallGraph

namespace Context.Sound

variable {c : Context} {F : Fault → Prop} (hc : c.Sound)
include hc

/-- **A run of the worklist ends**, and what it finds out is about functions of the program. -/
theorem meets_visitFrom {learn : ErrorTable → FuncId → Checked (Option RangeSet)}
    (hlearn : ∀ errors, errors.Within c.program → ∀ f, c.program.HasFunction f →
      Meets F (fun s? => ∀ s ∈ s?, Reachable s) (learn errors f))
    {steps : Nat} {stack seen : List FuncId} (hstack : ∀ f ∈ stack, c.program.HasFunction f)
    (hsteps : stack.length + c.graph.edgesLeft seen < steps) {known : Propagated}
    (hknown : known.errors.Within c.program) :
    Meets F (fun out => out.errors.Within c.program)
      (c.visitFrom learn steps stack seen known) := by
  induction steps generalizing stack seen known with
  | zero => exact absurd hsteps (Nat.not_lt_zero _)
  | succ steps ih =>
    cases stack with
    | nil => exact meets_pure hknown
    | cons f stack =>
      rw [List.forall_mem_cons] at hstack
      rw [List.length_cons] at hsteps
      unfold visitFrom
      split
      · exact ih hstack.2 (by omega) hknown
      case isFalse hseen =>
        have hvisit := c.graph.edgesLeft_visit hseen
        refine (hlearn known.errors hknown f hstack.1).bind fun s? hs => ?_
        cases s? with
        | none => exact ih hstack.2 (by omega) hknown
        | some s =>
          refine (hc.meets_callingFunctions f).and_eq.bind fun callers h => ?_
          obtain ⟨hcallers, heq⟩ := h
          -- the callers that go on the stack are as many as the edges that are taken away
          have hlength := length_of_mapM heq
          have hfound : ErrorTable.Within c.program (Table.empty.insert ⟨f, 0⟩ s) :=
            Table.All.insert ErrorTable.within_empty hstack.1 (hs s rfl)
          refine ih (fun g hg => ?_) (by simp only [List.length_append, List.length_reverse]; omega)
            (hknown.mergeUnion hfound)
          rcases List.mem_append.mp hg with hg | hg
          · exact hcallers g (List.mem_reverse.mp hg)
          · exact hstack.2 g hg

/-- **A visit of callers has a result** if learning has one for every function. -/
theorem meets_visitCallers {learn : ErrorTable → FuncId → Checked (Option RangeSet)}
    (hlearn : ∀ errors, errors.Within c.program → ∀ f, c.program.HasFunction f →
      Meets F (fun s? => ∀ s ∈ s?, Reachable s) (learn errors f))
    (fs : List FuncId) {errors : ErrorTable} (herrors : errors.Within c.program) :
    Meets F (fun out => out.errors.Within c.program) (c.visitCallers learn fs errors) := by
  refine (meets_mapM_flatten fun f _ => hc.meets_callingFunctions f).bind fun callers hcallers => ?_
  refine hc.meets_visitFrom hlearn (fun g hg => hcallers g (List.mem_reverse.mp hg)) ?_ herrors
  rw [List.length_reverse, CallGraph.edgesLeft_nil]
  exact Nat.lt_succ_self _

/-! ## Constants returned by callers -/

/-- What a path returns is resolved, unless that does not end. -/
theorem meets_returnedAlong? {path : List BlockId} (hpath : c.program.HasBlocks path) :
    Meets c.Unending (fun _ => True) (c.returnedAlong? path) := by
  have hreturn : Meets c.Unending (fun i? => ∀ i ∈ i?, c.program.HasInst i)
      (c.program.finalReturn? path) := by
    unfold Program.finalReturn?
    cases hlast : path.getLast? with
    | none => exact meets_none
    | some last =>
      have hlast := hpath last (List.mem_of_getLast? hlast)
      refine (hc.program.meets_terminator? hlast).bind fun ret? hret => ?_
      cases ret? with
      | none => exact meets_none
      | some ret =>
        refine (Program.meets_op (hret ret rfl)).bind fun op _ => ?_
        split
        · exact meets_some (hret ret rfl)
        · exact meets_none
  refine hreturn.bind fun ret? hret => ?_
  cases ret? with
  | none => exact meets_pure trivial
  | some ret =>
    refine (Program.meets_op (hret ret rfl)).bind fun op hop => ?_
    split
    · exact (hc.meets_resolveAlong (hc.program.hasBlocks_extendBackward hpath) fun w hw =>
        hc.program.has hop (Option.mem_toList.mpr hw)).map fun _ _ => trivial
    · exact meets_pure trivial

theorem meets_canLearn {f : FuncId} (hf : c.program.HasFunction f) :
    Meets F (fun _ => True) (c.canLearn f) := by
  refine (Program.meets_function hf).bind fun x _ => ?_
  split
  · exact meets_pure trivial
  · exact (hc.program.meets_returnsSingleConstant hf).map fun _ _ => trivial

/-- The paths after a check are enumerated, and what they return is resolved. -/
theorem meets_returnedAfter (errors : ErrorTable) (boundary : List BlockId) {cond : Condition}
    (hcond : cond.Within c.program) :
    Meets c.Unending (fun _ => True) (c.returnedAfter errors boundary cond) := by
  unfold returnedAfter
  split
  · refine (Program.meets_callOf? hcond.value).bind fun call? _ => ?_
    split
    · split
      · split
        · exact meets_pure trivial
        · refine (hc.meets_block hcond).bind fun block hblock => ?_
          refine (hc.program.meets_terminatorOp? hblock).bind fun op? hop => ?_
          split
          · have hseed : c.program.HasBlocks [block] := List.forall_mem_singleton.mpr hblock
            have htarget := hc.program.targets_of _ (hop _ rfl) _ List.mem_cons_self
            refine (hc.program.meets_pathsFrom _ htarget hseed).bind fun paths hpaths => ?_
            exact (meets_mapM fun path hpath =>
              hc.meets_returnedAlong? (hpaths path hpath)).trivial
          · exact meets_pure trivial
      · exact meets_pure trivial
    · exact meets_pure trivial
  · exact meets_pure trivial

/-- A function learns from its checks, unless a resolution does not end. -/
theorem meets_learnFromChecks (errors : ErrorTable) {f : FuncId} (hf : c.program.HasFunction f) :
    Meets c.Unending (fun s? => ∀ s ∈ s?, Reachable s) (c.learnFromChecks errors f) := by
  refine Meets.ensuring (P := fun _ => True) ?_ (ensures_learnFromChecks errors f)
  refine (hc.meets_canLearn hf).bind fun able _ => ?_
  split
  · exact meets_pure trivial
  · refine (meets_mapM fun cond hcond =>
      hc.meets_block (hc.within_conditionsOf cond hcond)).bind fun boundary _ => ?_
    exact (meets_mapM fun cond hcond => hc.meets_returnedAfter errors boundary
      (hc.within_conditionsOf cond hcond)).map fun _ _ => trivial

/-- It learns from its calls of handlers under the same condition. -/
theorem meets_learnFromHandlers (handlers : SortedSet FuncId) (errors : ErrorTable) {f : FuncId}
    (hf : c.program.HasFunction f) :
    Meets c.Unending (fun s? => ∀ s ∈ s?, Reachable s)
      (c.learnFromHandlers handlers errors f) := by
  refine Meets.ensuring (P := fun _ => True) ?_ (ensures_learnFromHandlers handlers errors f)
  refine (hc.meets_canLearn hf).bind fun able _ => ?_
  split
  · exact meets_pure trivial
  · refine (Program.meets_function hf).bind fun x hx => ?_
    refine Meets.map (meets_mapM (Q := fun _ => True) fun b hb => ?_) fun _ _ => trivial
    refine (hc.program.meets_errorSuccessor? c.graph handlers b).bind fun s? hs => ?_
    cases s? with
    | none => exact meets_pure trivial
    | some s =>
      refine hc.meets_returnedAlong? (List.forall_mem_cons.mpr ⟨hc.program.blocks_of x hx b hb, ?_⟩)
      exact hc.program.hasBlocks_chainForward (hs s rfl)

/-! ## Propagating -/

end Context.Sound

end ErrorReturns
