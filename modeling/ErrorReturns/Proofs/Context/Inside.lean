import ErrorReturns.Context
import ErrorReturns.Proofs.CallGraph
import ErrorReturns.Proofs.Program.WellFormed
import ErrorReturns.Proofs.Table.Keys
import ErrorReturns.Proofs.Table.Lookup
import ErrorReturns.Proofs.Trace.Inside

/-!
# Contexts of well-formed programs

The conditions that are found in a block of a well-formed program are about values of the program
and come from its instructions (`Condition.Within`). A context is `Context.Sound` if its program is
well formed, its graph and its functions under analysis are those of the program, and all its
conditions are of this kind. Every stage of an analysis reads a sound context, and none changes it.
-/

namespace ErrorReturns

open Checked

/-- **A condition of a program**: what it checks and where it comes from, the program has. -/
structure Condition.Within (p : Program) (cond : Condition) : Prop where
  value : p.Has cond.lhs.value
  origin : p.HasInst cond.origin

namespace CheckFinder

variable {s : CheckFinder} (hp : s.program.WellFormed) (halias : s.mayAlias.Answers s.program)
  (hshallow : s.mayAlias.Shallow) (hblock : s.program.HasBlock s.block)
include hp halias hshallow

/-! ## The checked value -/

omit hp halias hshallow in
theorem meets_settle {F : Fault → Prop} {v : Value} (hv : s.program.Has v) (slot : Nat) :
    Meets F (fun found? => ∀ found ∈ found?, s.program.Has found.value) (s.settle v slot) := by
  refine (Program.meets_opOf? hv).bind fun op? _ => ?_
  dsimp only
  split
  · exact meets_some hv
  · exact meets_none

/-- The value that a comparison looks at along some blocks exists. -/
theorem meets_checkedOn {lhs : InstId} (hlhs : s.program.HasInst lhs) {blocks : List BlockId}
    (hblocks : s.program.HasBlocks blocks) :
    Meets (s.program.Unending s.mayAlias)
      (fun found? => ∀ found ∈ found?, s.program.Has found.value) (s.checkedOn lhs blocks) := by
  have hresolve : ∀ {v}, s.program.Has v → Meets (s.program.Unending s.mayAlias)
      (fun w? => ∀ w ∈ w?, s.program.Has w)
      (Resolver.resolveFresh ⟨s.program, s.mayAlias, .backward blocks⟩ v) :=
    fun hv => Program.meets_resolveFresh hp.toInside halias hshallow hblocks hv
  refine (hp.meets_blockOf hlhs).bind fun b _ => ?_
  split
  · exact meets_none
  · refine (hresolve (v := .inst lhs) hlhs).bind fun found? hfound => ?_
    cases found? with
    | none => exact meets_none
    | some found =>
      refine (Program.meets_opOf? (hfound found rfl)).bind fun op? hop => ?_
      split
      case h_1 aggregate index =>
        have haggregate : s.program.Has aggregate :=
          hp.has (hop _ rfl) (by simp [Operation.operands])
        refine (hresolve haggregate).bind fun whole? hwhole => ?_
        cases whole? with
        | none => exact meets_none
        | some whole => exact meets_settle (hwhole whole rfl) index
      case h_2 => exact meets_settle (hfound found rfl) 0

omit halias hshallow in
/-- A chain is continued by blocks that exist. -/
theorem hasBlocks_chainAcross? {blocks longer : List BlockId} (hblocks : s.program.HasBlocks blocks)
    (h : s.chainAcross? blocks = some longer) : s.program.HasBlocks longer := by
  obtain ⟨first, -, h⟩ := Option.bind_eq_some_iff.mp h
  split at h
  case h_1 a b heq =>
    obtain ⟨arm, harm, h⟩ := Option.bind_eq_some_iff.mp h
    obtain rfl := Option.some.inj h
    have hmem : arm ∈ s.program.predecessors first := by
      rw [heq]
      unfold armOf? at harm
      split at harm
      · simp_all
      · split at harm <;> simp_all
    have hchain := hp.hasBlocks_chainBackward (hp.predecessors_of first arm hmem)
    exact hblocks.append fun c hc => hchain c (List.takeWhile_subset _ hc)
  case h_2 => cases h

include hblock

/-- The value that a comparison looks at exists, along whichever blocks it is found. -/
theorem meets_checkedValue? {lhs : InstId} (hlhs : s.program.HasInst lhs) :
    Meets (s.program.Unending s.mayAlias)
      (fun found? => ∀ found ∈ found?, s.program.Has found.value) (s.checkedValue? lhs) := by
  have hchain := hp.hasBlocks_chainBackward hblock
  refine (meets_checkedOn hp halias hshallow hlhs hchain).bind fun found? hfound => ?_
  cases found? with
  | some found => exact meets_pure hfound
  | none =>
    dsimp only
    split
    case h_1 longer hlonger =>
      exact meets_checkedOn hp halias hshallow hlhs (hasBlocks_chainAcross? hp hchain hlonger)
    case h_2 => exact meets_none

/-! ## Conditions of a block -/

variable (s) in
/-- Whether the conditions that an instruction contributes are conditions of the program. -/
def Contribution.Within : Contribution → Prop
  | .conditions found => ∀ c ∈ found, c.Within s.program
  | .stop => True

omit hp halias hshallow hblock in
theorem meets_noConditions {F : Fault → Prop} :
    Meets F (Contribution.Within s) (pure (.conditions [])) :=
  meets_pure fun _ hc => absurd hc List.not_mem_nil

/-- So does the condition of a comparison, nested or not. -/
theorem meets_ofComparison {origin : InstId} (horigin : s.program.HasInst origin)
    (fromBranch : Bool) (pred : Predicate) {lhs : Value} (hlhs : s.program.Has lhs) (rhs : Value) :
    Meets (s.program.Unending s.mayAlias) (Contribution.Within s)
      (s.ofComparison origin fromBranch pred lhs rhs) := by
  have hone : ∀ {checked : CheckedValue}, s.program.Has checked.value → ∀ q v,
      Meets (s.program.Unending s.mayAlias) (Contribution.Within s)
        (pure (.conditions [.comparison checked q v origin fromBranch])) :=
    fun hchecked q v => meets_pure (List.forall_mem_singleton.mpr ⟨hchecked, horigin⟩)
  unfold ofComparison
  cases lhs with
  | inst lhs =>
    refine (meets_checkedValue? hp halias hshallow hblock hlhs).bind fun found? hfound => ?_
    cases found? with
    | none => exact meets_noConditions
    | some checked =>
      have hchecked := hfound checked rfl
      refine (Program.meets_opOf? hchecked).bind fun op? hop => ?_
      split
      case h_1 innerPred innerLhs innerRhs =>
        -- the result of a comparison is compared once more: what the inner one checks counts
        split
        · exact meets_pure trivial
        · have hinner : s.program.Has innerLhs := hp.has (hop _ rfl) (by simp [Operation.operands])
          cases innerLhs with
          | inst inner =>
            refine (meets_checkedValue? hp halias hshallow hblock hinner).bind
              fun nested? hnested => ?_
            cases nested? with
            | none => exact meets_pure trivial
            | some nested =>
              dsimp only
              split
              · exact hone (hnested nested rfl) _ _
              · exact meets_pure trivial
          | _ => exact meets_pure trivial
      case h_2 => exact hone hchecked _ _
  | _ => exact meets_noConditions

theorem meets_ofFlag {cond : Value} (hcond : s.program.Has cond) (fromBranch : Bool) :
    Meets (s.program.Unending s.mayAlias) (Contribution.Within s) (s.ofFlag cond fromBranch) := by
  refine (Program.meets_opOf? hcond).bind fun op? hop => ?_
  split
  case h_1 origin pred lhs rhs =>
    exact meets_ofComparison hp halias hshallow hblock hcond fromBranch pred
      (hp.has (hop _ rfl) (by simp [Operation.operands])) rhs
  case h_2 => exact meets_noConditions

/-- And what one instruction contributes. -/
theorem meets_ofInst {i : InstId} (hi : s.program.HasInst i) :
    Meets (s.program.Unending s.mayAlias) (Contribution.Within s) (s.ofInst i) := by
  refine (Program.meets_op hi).bind fun op hop => ?_
  have hflag : ∀ {v}, v ∈ op.operands → ∀ fromBranch, Meets (s.program.Unending s.mayAlias)
      (Contribution.Within s) (s.ofFlag v fromBranch) :=
    fun hv fromBranch => meets_ofFlag hp halias hshallow hblock (hp.has hop hv) fromBranch
  split
  · exact hflag (by simp [Operation.operands]) _
  · exact hflag (by simp [Operation.operands]) _
  · exact hflag (by simp [Operation.operands]) _
  · exact meets_noConditions

end CheckFinder

namespace Context

/-! ## Calls -/

section Calls

variable {c : Context}

variable (c) in
/-- The calls of the program that may reach a function. -/
def callsReaching (g : FuncId) : List InstId :=
  ((List.range c.program.insts.size).map InstId.mk).filter fun i =>
    c.program.insts[i.index]?.any (·.op.isCall) && decide (g ∈ c.graph.calleeList i)

/-- Every call that may reach a function is among those listed for it. -/
theorem mem_callsReaching {g : FuncId} {call : InstId} {op : Operation}
    (hop : c.program.op call = .ok op) (hcall : op.isCall = true)
    (hg : g ∈ c.graph.calleeList call) : call ∈ c.callsReaching g := by
  simp only [Arena.op, bind_eq_ok_iff, pure_eq_ok, Except.ok.injEq] at hop
  obtain ⟨x, hx, rfl⟩ := hop
  have hx := Arena.inst_eq_ok_iff.mp hx
  have hlt := (Array.getElem?_eq_some_iff.mp hx).1
  refine List.mem_filter.mpr ⟨List.mem_map.mpr ⟨call.index, List.mem_range.mpr hlt, rfl⟩, ?_⟩
  rw [hx, Option.any_some, hcall, Bool.true_and]
  exact decide_eq_true hg

end Calls

/-! ## Soundness -/

/-- **A sound context** of a well-formed program. -/
structure Sound (c : Context) : Prop where
  program : c.program.WellFormed
  graph : c.graph.Within c.program
  answers : c.mayAlias.Answers c.program
  shallow : c.mayAlias.Shallow
  conditions : c.conditions.All c.program.HasFunction
    fun found => ∀ cond ∈ found, cond.Within c.program

/-- The one fault that a stage may meet in a sound context. -/
abbrev Unending (c : Context) : Fault → Prop := c.program.Unending c.mayAlias

namespace Sound

variable {c : Context} {F : Fault → Prop} (hc : c.Sound)
include hc

theorem within_conditionsOf {f : FuncId} : ∀ cond ∈ c.conditionsOf f, cond.Within c.program := by
  unfold conditionsOf
  cases hfound : c.conditions.get? f with
  | none => exact fun _ hcond => absurd hcond List.not_mem_nil
  | some found => exact hc.conditions.get? hfound

theorem meets_block {cond : Condition} (h : cond.Within c.program) :
    Meets F c.program.HasBlock (cond.block c.program) :=
  hc.program.meets_blockOf h.origin

theorem meets_callingFunctions (f : FuncId) :
    Meets F (fun gs => ∀ g ∈ gs, c.program.HasFunction g)
      (c.graph.callingFunctions c.program f) :=
  meets_mapM fun call hcall => hc.program.meets_functionOf (hc.graph.callers f call hcall)

theorem meets_resolveAlong {path : List BlockId} (hpath : c.program.HasBlocks path)
    {v? : Option Value} (hv : ∀ v ∈ v?, c.program.Has v) :
    Meets c.Unending (fun w? => ∀ w ∈ w?, c.program.Has w)
      (c.program.resolveAlong c.mayAlias path v?) :=
  Program.meets_resolveAlong hc.program.toInside hc.answers hc.shallow hpath hv

end Sound

end Context

end ErrorReturns
