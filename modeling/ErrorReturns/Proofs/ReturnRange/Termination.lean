import ErrorReturns.Proofs.Plan
import ErrorReturns.Proofs.ReturnRange.Walk
import ErrorReturns.Proofs.Trace.Lookup

/-!
# The search for a range ends

The ranges of functions and of operands are found by one recursion: a function asks for its return
operands, an operand for its own operands and for what is stored to its address, and a call for the
return operands of the functions that it may reach. As with resolutions, one level of the walk with
its questions left open is a plan (`RangeFinder.plan`), and carrying out the plan to a depth is
walking to that depth (`RangeFinder.valueRange_eq_eval`).

A function is entered as often as it is called, and nothing is noted of constants, null and flags.
Even so every question that is nested in another has fewer results left to visit
(`RangeFinder.descends_plan`): only the results of instructions ask anything, each of them is noted
before it does, and what is noted is never taken back, neither by a nested walk nor by the ranges
that are remembered. Nothing is assumed of the program and of the call graph, so the walk also ends
in programs that were not built, and in functions with any defect (`RangeFinder.rangeOf_ends`).
-/

namespace ErrorReturns

open Checked

namespace RangeFinder

variable (a : RangeFinder)

/-! ## The walk as a plan -/

/-- **The plan of a walk**: which ranges the range of an operand in a function needs, one after
another, and what is remembered by then. -/
def plan (c : FuncId × Value × RangeMemo) : Plan (FuncId × Value × RangeMemo) Found Found :=
  a.step (fun f v memo => Plan.request (f, v, memo)) c.1 c.2.1 c.2.2

/-- The plan of a function's range. -/
def functionPlan (f : FuncId) (memo : RangeMemo) : Plan (FuncId × Value × RangeMemo) Found Found :=
  a.functionRange (fun f v memo => Plan.request (f, v, memo)) f memo

section Run

variable {κ ρ : Type} (g : κ → Checked ρ)

/-- Running a union of plans is the union of their runs. -/
@[simp] theorem run_unionOf {α : Type} (short : Bool) (find : α → RangeMemo → Plan κ ρ Found)
    (l : List α) (range : SignedRange) (memo : RangeMemo) :
    (unionOf short find l range memo).run g =
      unionOf short (fun x memo => (find x memo).run g) l range memo := by
  induction l generalizing range memo with
  | nil => rfl
  | cons x rest ih =>
    rw [unionOf, unionOf, Plan.run_bind]
    refine bind_congr fun out => ?_
    dsimp only
    split
    · rfl
    · exact ih _ _

variable (find : FuncId → Value → RangeMemo → Plan κ ρ Found)

@[simp] theorem run_functionRange (f : FuncId) (memo : RangeMemo) :
    (a.functionRange find f memo).run g =
      a.functionRange (fun f v memo => (find f v memo).run g) f memo := by
  unfold functionRange
  rw [Plan.run_bind, Plan.run_lift]
  refine bind_congr fun function => ?_
  split
  · split
    · rfl
    · rw [Plan.run_bind, Plan.run_lift]
      refine bind_congr fun operands => ?_
      rw [Plan.run_bind, run_unionOf]
      rfl
  · rfl

/-- The step of an operation is the same whether its questions are asked or written down. -/
@[simp] theorem run_operationRange (f : FuncId) (id : InstId) (bits : Nat) (memo : RangeMemo) :
    (a.operationRange find f id bits memo).run g =
      a.operationRange (fun f v memo => (find f v memo).run g) f id bits memo := by
  unfold operationRange
  rw [Plan.run_bind, Plan.run_lift]
  refine bind_congr fun op => ?_
  cases op with
  | call callee args =>
    dsimp only
    split
    · rw [run_unionOf]
      exact congrArg (unionOf true · _ _ _) (funext fun h => funext (a.run_functionRange g find h))
    · rfl
  | select cond ifTrue ifFalse =>
    dsimp only
    rw [Plan.run_bind]
    refine bind_congr fun out => ?_
    obtain ⟨range, memo⟩ := out
    dsimp only
    split
    · rfl
    · rw [Plan.run_bind]
      rfl
  | phi incoming => exact run_unionOf g _ _ _ _ _
  | cast kind inner =>
    dsimp only
    rw [Plan.run_bind]
    rfl
  | binop op lhs rhs =>
    dsimp only
    rw [Plan.run_bind, Plan.run_lift]
    rfl
  | load ptr =>
    dsimp only
    rw [Plan.run_bind, Plan.run_lift]
    refine bind_congr fun stored => ?_
    split
    · rw [Plan.run_bind, Plan.run_lift]
      rfl
    · rw [run_unionOf]
      refine congrArg (unionOf false · _ _ _) (funext fun v => funext fun memo => ?_)
      rw [Plan.run_bind]
      rfl
  | _ => rfl

@[simp] theorem run_step (f : FuncId) (v : Value) (memo : RangeMemo) :
    (a.step find f v memo).run g = a.step (fun f v memo => (find f v memo).run g) f v memo := by
  unfold step
  rw [Plan.run_bind, Plan.run_lift]
  refine bind_congr fun ty => ?_
  cases v with
  | const c =>
    dsimp only
    split <;> rfl
  | null => rfl
  | inst id =>
    dsimp only
    split
    · rfl
    · split
      · rfl
      · exact a.run_operationRange g find f id _ _
  | arg | func | global | undef =>
    dsimp only
    split
    · rfl
    · split <;> rfl

end Run

/-- **A walk carries out its plan.** -/
theorem valueRange_eq_eval (depth : Nat) (f : FuncId) (v : Value) (memo : RangeMemo) :
    a.valueRange depth f v memo = Plan.eval a.plan depth (f, v, memo) := by
  induction depth generalizing f v memo with
  | zero => rfl
  | succ depth ih =>
    rw [valueRange, Plan.eval, plan, run_step]
    refine congrArg (a.step · f v memo) (funext fun f => funext fun v => funext fun memo => ?_)
    rw [ih, Plan.run_request]

theorem functionRange_eq_run (depth : Nat) (f : FuncId) (memo : RangeMemo) :
    a.functionRange (a.valueRange depth) f memo =
      (a.functionPlan f memo).run (Plan.eval a.plan depth) := by
  rw [functionPlan, run_functionRange]
  refine congrArg (a.functionRange · f memo) (funext fun f => funext fun v => funext fun memo => ?_)
  rw [valueRange_eq_eval, Plan.run_request]

/-! ## What is looked up on the way -/

theorem shallow_returned (f : FuncId) : (a.returned f).Shallow := by
  refine (a.program.shallow_returnsIn f).bind fun is _ => shallow_filterMapM fun i _ => ?_
  refine (a.program.shallow_op i).bind fun op _ => ?_
  split <;> exact shallow_ok _

theorem shallow_binopRange (bits : Nat) (op : BinOp) (lhs rhs : Value) :
    (a.binopRange bits op lhs rhs).Shallow := by
  unfold binopRange
  split
  · exact shallow_ok _
  · refine (a.program.shallow_opOf? lhs).bind fun op? _ => ?_
    dsimp only
    (repeat' split) <;> exact shallow_ok _

theorem shallow_stores (f : FuncId) : (a.stores f).Shallow :=
  (a.program.shallow_instsIn f).bind fun _ _ =>
    shallow_anyM fun i _ => (a.program.shallow_op i).bind fun _ _ => shallow_ok _

theorem shallow_unfilledRange (bits : Nat) (ptr : Value) : (a.unfilledRange bits ptr).Shallow := by
  refine (a.program.shallow_opOf? ptr).bind fun op? _ => ?_
  split
  · refine (a.program.shallow_stripFrom _ ptr 0).bind fun x _ => ?_
    dsimp only
    split
    · split
      · exact (shallow_anyM fun f _ => a.shallow_stores f).bind fun _ _ => shallow_ok _
      · exact shallow_ok _
    · exact shallow_ok _
  · exact shallow_ok _

variable {a}

theorem shallow_storedTo (halias : a.mayAlias.Shallow) (f : FuncId) (ptr : Value) :
    (a.storedTo f ptr).Shallow := by
  refine (a.program.shallow_instsIn f).bind fun is _ => shallow_filterMapM fun i _ => ?_
  refine (a.program.shallow_op i).bind fun op _ => ?_
  split
  · exact (halias _ _ _).bind fun _ _ => shallow_ok _
  · exact shallow_ok _

/-! ## The walk descends -/

section Keeps

variable {κ ρ : Type} {asked : κ → Prop} {answered : κ → ρ → Prop} {visited : List Value}

/-- **A plan that takes no visit back** and does not run out of depth by itself. -/
def Keeps (asked : κ → Prop) (answered : κ → ρ → Prop) (visited : List Value)
    (x : Plan κ ρ Found) : Prop :=
  x.All asked answered (Meets (· ≠ .tooDeep) fun out => visited ⊆ out.2.visited)

/-- A union takes no visit back if its parts take none. -/
theorem keeps_unionOf {α : Type} (short : Bool) {find : α → RangeMemo → Plan κ ρ Found}
    (hfind : ∀ x memo, visited ⊆ memo.visited → Keeps asked answered visited (find x memo))
    (l : List α) (range : SignedRange) {memo : RangeMemo} (hm : visited ⊆ memo.visited) :
    Keeps asked answered visited (unionOf short find l range memo) := by
  induction l generalizing range memo with
  | nil => exact Plan.all_pure hm
  | cons x rest ih =>
    unfold unionOf
    refine (hfind x memo hm).andThen fun out hout => ?_
    dsimp only
    split
    · exact Plan.all_pure hout
    · exact ih _ hout

variable {find : FuncId → Value → RangeMemo → Plan κ ρ Found}
  (hfind : ∀ f v memo, visited ⊆ memo.visited → Keeps asked answered visited (find f v memo))
include hfind

theorem keeps_functionRange (f : FuncId) {memo : RangeMemo} (hm : visited ⊆ memo.visited) :
    Keeps asked answered visited (a.functionRange find f memo) := by
  refine Plan.all_lift_bind (a.program.shallow_function f).meets fun function _ => ?_
  split
  · split
    · exact Plan.all_pure hm
    · refine Plan.all_lift_bind (a.shallow_returned f).meets fun operands _ => ?_
      refine (keeps_unionOf false (hfind f) operands _ hm).andThen fun out hout => ?_
      exact Plan.all_pure hout
  · exact Plan.all_pure hm

/-- An operation takes no visit back. -/
theorem keeps_operationRange (halias : a.mayAlias.Shallow) (f : FuncId) (id : InstId) (bits : Nat)
    {memo : RangeMemo} (hm : visited ⊆ memo.visited) :
    Keeps asked answered visited (a.operationRange find f id bits memo) := by
  refine Plan.all_lift_bind (a.program.shallow_op id).meets fun op _ => ?_
  -- the memo is passed from one query to the next and only grows, so each starts from `visited`
  cases op with
  | call callee args =>
    dsimp only
    split
    · exact keeps_unionOf true (fun g memo => keeps_functionRange hfind g) _ _ hm
    · exact Plan.all_pure hm
  | select cond ifTrue ifFalse =>
    refine (hfind f ifTrue memo hm).andThen fun out hout => ?_
    dsimp only
    split
    · exact Plan.all_pure hout
    · exact (hfind f ifFalse _ hout).andThen fun other hother => Plan.all_pure hother
  | phi incoming => exact keeps_unionOf true (hfind f) _ _ hm
  | cast kind inner => exact (hfind f inner memo hm).andThen fun out hout => Plan.all_pure hout
  | binop op lhs rhs =>
    exact Plan.all_lift_bind (a.shallow_binopRange bits op lhs rhs).meets fun _ _ =>
      Plan.all_pure hm
  | load ptr =>
    refine Plan.all_lift_bind (shallow_storedTo halias f ptr).meets fun stored _ => ?_
    split
    · exact Plan.all_lift_bind (a.shallow_unfilledRange bits ptr).meets fun _ _ =>
        Plan.all_pure hm
    · refine keeps_unionOf false (fun v memo hm => ?_) _ _ hm
      exact (hfind f v memo hm).andThen fun out hout => Plan.all_pure hout
  | _ => exact Plan.all_pure hm

end Keeps

/-- **Nested walks have fewer results left to visit.** -/
theorem descends_plan (halias : a.mayAlias.Shallow) :
    Plan.Descends a.plan (fun c => a.unvisited c.2.2)
      fun c out => c.2.2.visited ⊆ out.2.visited := by
  rintro ⟨f, v, memo⟩
  refine Plan.all_lift_bind (a.program.shallow_typeOf v).meets fun ty hty => ?_
  cases v with
  | const c =>
    dsimp only
    split <;> exact Plan.all_pure (List.Subset.refl _)
  | null => exact Plan.all_pure (List.Subset.refl _)
  | inst id =>
    dsimp only
    split
    · exact Plan.all_pure (List.Subset.refl _)
    · split
      · exact Plan.all_pure (List.Subset.refl _)
      · rename_i hnew
        have hid : a.program.HasInst id := by
          obtain ⟨i, hi, -⟩ := bind_eq_ok_iff.mp hty
          exact (Array.getElem?_eq_some_iff.mp (Arena.inst_eq_ok_iff.mp hi)).1
        -- the visit is noted in all that follows
        refine Plan.All.weaken (P := fun out => .inst id :: memo.visited ⊆ out.2.visited) ?_
          fun out => List.Subset.trans (List.subset_cons_self _ _)
        refine keeps_operationRange (fun g w memo' hm => Plan.all_request ?_ fun out hout => ?_)
          halias f id _ (List.Subset.refl _)
        · have hkept : ∀ w ∈ Value.inst id :: memo.visited, w ∈ memo'.visited := fun w hw => hm hw
          calc a.unvisited memo'
            _ ≤ a.unvisited { memo with visited := .inst id :: memo.visited } := unvisited_le hkept
            _ < a.unvisited memo := unvisited_lt hid hnew
        · exact List.Subset.trans hm hout
  | arg | func | global | undef =>
    dsimp only
    split
    · exact Plan.all_pure (List.Subset.refl _)
    · split
      · exact Plan.all_pure (List.Subset.refl _)
      · exact Plan.all_pure (List.subset_cons_self _ _)

/-- The walk through a function does not run out of depth. -/
theorem functionRange_ne_tooDeep (halias : a.mayAlias.Shallow) {depth : Nat}
    (hdepth : a.enoughDepth ≤ depth) (f : FuncId) (memo : RangeMemo) :
    a.functionRange (a.valueRange depth) f memo ≠ .error .tooDeep := by
  intro hdeep
  rw [functionRange_eq_run] at hdeep
  have hkeeps : Keeps (fun _ => True) (fun c out => c.2.2.visited ⊆ out.2.visited) memo.visited
      (a.functionPlan f memo) :=
    keeps_functionRange (fun g v memo' hm => Plan.all_request trivial fun out hout =>
      List.Subset.trans hm hout) f (List.Subset.refl _)
  obtain ⟨⟨g, v, memo'⟩, -, hdeep⟩ := Plan.exists_asks_of_run_eq_tooDeep hkeeps
    (fun hends => hends rfl) (fun _ _ => (descends_plan halias).answered_of_yields) hdeep
  have henough : a.unvisited memo' < depth :=
    Nat.lt_of_lt_of_le (unvisited_lt_enoughDepth memo') hdepth
  exact (descends_plan halias).eval_ne_tooDeep henough hdeep

/-- **The search for a range ends**, for every program and call graph, with any oracle whose own
answers come to an end, whatever was observed, and for every function, whatever ranges were found
before: every chain of nested walks ends, a function asks for the ranges of finitely many operands
in all, the depth that a walk is given is enough, and a greater one changes nothing. -/
theorem rangeOf_ends (halias : a.mayAlias.Shallow) (f : FuncId)
    (ranges : Table FuncId SignedRange) :
    WellFounded (fun c' c => Plan.Calls a.plan c c') ∧
    {c | Plan.Asked a.plan (a.functionPlan f ⟨ranges, []⟩) c}.Finite ∧
    a.rangeOf f ranges ≠ .error .tooDeep ∧
    ∀ depth, a.enoughDepth ≤ depth → a.functionRange (a.valueRange depth) f ⟨ranges, []⟩ =
      a.functionRange (a.valueRange a.enoughDepth) f ⟨ranges, []⟩ := by
  have hdescends := descends_plan halias
  refine ⟨hdescends.wellFounded, Plan.finite_asked hdescends.wellFounded _, ?_,
    fun depth hdepth => ?_⟩
  · have hwalk : (a.functionRange (a.valueRange a.enoughDepth) f ⟨ranges, []⟩).Shallow :=
      functionRange_ne_tooDeep halias (Nat.le_refl _) f _
    exact hwalk.bind fun out _ => shallow_ok _
  · have heval : Plan.eval a.plan depth = Plan.eval a.plan a.enoughDepth :=
      funext fun c => Plan.eval_eq_of_le hdepth
        (hdescends.eval_ne_tooDeep (unvisited_lt_enoughDepth c.2.2))
    rw [functionRange_eq_run, functionRange_eq_run, heval]

/-- `even` and `odd` call each other. What `odd` returns goes around in a loop of a phi, a select, a
cast, and a variable that is loaded and stored back, and its block does not end. -/
def goingAround : List Directive :=
  [.module "m", .declare ⟨0⟩ "even" [] (.int 32), .declare ⟨0⟩ "odd" [] (.int 32),
    .define ⟨0⟩ [.call ⟨1⟩ [], .ret (some (.inst ⟨0⟩)), .ret (some (.const ⟨-1, 32⟩))],
    .define ⟨1⟩ [.call ⟨0⟩ [], .alloca, .load (.inst ⟨4⟩) (.int 32), .phi (.int 32) [],
      .select .undef (.inst ⟨6⟩) (.inst ⟨3⟩), .cast .sext (.inst ⟨7⟩) (.int 32),
      .store (.inst ⟨4⟩) (.inst ⟨8⟩), .ret (some (.inst ⟨5⟩)),
      .setPhi (.inst ⟨6⟩) [(⟨1⟩, .inst ⟨6⟩), (⟨1⟩, .inst ⟨5⟩), (⟨1⟩, .const ⟨-7, 32⟩)], .alloca]]

/-- The range of `even` is found, although the two functions and the values of `odd` go around in
circles. -/
theorem goingAround_rangeOf_ends :
    ∃ p g, Program.build goingAround = .ok p ∧ CallGraph.ofDirectCalls p = .ok g ∧
      p.defect? ⟨1⟩ = .ok (some ⟨"odd", .missingTerminator ⟨1⟩⟩) ∧
      AliasOracle.basic.Shallow ∧
      let a : RangeFinder := ⟨p, g, .basic, {}⟩
      (∃ ranges, a.rangeOf ⟨0⟩ {} = .ok (.ofBounds (-7) (-1) 32, ranges)) ∧
      {c | Plan.Asked a.plan (a.functionPlan ⟨0⟩ {}) c}.Finite := by
  obtain ⟨p, hp, g, hg, hdefect, range, ranges, hrange, rfl⟩ :
      ∃ p, Program.build goingAround = .ok p ∧ ∃ g, CallGraph.ofDirectCalls p = .ok g ∧
      p.defect? ⟨1⟩ = .ok (some ⟨"odd", .missingTerminator ⟨1⟩⟩) ∧
      ∃ range ranges, rangeOf ⟨p, g, .basic, {}⟩ ⟨0⟩ {} = .ok (range, ranges) ∧
      range = .ofBounds (-7) (-1) 32 := by decide +kernel
  refine ⟨p, g, hp, hg, hdefect, AliasOracle.shallow_basic, ⟨ranges, hrange⟩, ?_⟩
  exact (rangeOf_ends (a := ⟨p, g, .basic, {}⟩) AliasOracle.shallow_basic ⟨0⟩ {}).2.1

end RangeFinder

end ErrorReturns
