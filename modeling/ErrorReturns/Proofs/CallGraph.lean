import ErrorReturns.Analysis
import ErrorReturns.Program.Draft
import ErrorReturns.Proofs.Checked
import ErrorReturns.Proofs.Program.Inside
import ErrorReturns.Proofs.Table.Keys
import ErrorReturns.Proofs.Table.Lookup

/-!
# Callees and callers

A call graph keeps two tables, one for each direction. In a `Linked` graph they say the same: a
call may reach a function exactly when it is listed among the calls that reach it. Every graph is
linked that is `Made` by noting targets, whether they are read off the program or told from outside,
and so is the graph of every context that an analysis prepares. A function whose call may reach
another one is therefore among the callers of the other (`Linked.mem_callingFunctions`).

The graph of the calls by name lists every such call among the calls of the function that it names,
apart from calls of annotations of the compiler, and nothing else (`mem_callers_ofDirectCalls_iff`).

A graph is `Within` a program if it leads to functions of the program only and knows only of calls
in the program, as the graph of the calls by name does (`within_ofDirectCalls`).
-/

namespace ErrorReturns

open Checked (bind_eq_ok_iff)

/-- **A call by name** in the body of some function, of a function that is not an annotation of the
compiler. -/
def Program.CallsByName (p : Program) (call : InstId) (f : FuncId) : Prop :=
  (∃ w insts, p.instsIn w = .ok insts ∧ call ∈ insts) ∧
    (∃ args, p.op call = .ok (.call (.direct f) args)) ∧
      ∃ x, p.function f = .ok x ∧ x.attrs.intrinsic = false

namespace CallGraph

/-- **The two directions of a call graph agree.** -/
structure Linked (g : CallGraph) : Prop where
  inverse : ∀ call f, f ∈ g.calleeList call ↔ call ∈ g.callers f

theorem linked_empty : Linked {} :=
  ⟨fun _ _ => iff_of_false List.not_mem_nil List.not_mem_nil⟩

/-- Noting a target adds it to the callees of its call and to nothing else. -/
@[simp] theorem mem_calleeList_addTarget {g : CallGraph} {call call' : InstId} {f f' : FuncId} :
    f' ∈ (g.addTarget call f).calleeList call' ↔
      call' = call ∧ f' = f ∨ f' ∈ g.calleeList call' := by
  rw [calleeList, calleeList, callees?, callees?, addTarget, Table.get?_update]
  by_cases hcall : call' = call
  · subst hcall
    rw [if_pos rfl, Option.getD_some, and_iff_right rfl]
    exact SortedSet.mem_insert
  · rw [if_neg hcall, or_iff_right fun h => hcall h.1]

/-- A target is added on the side of the callers too. -/
@[simp] theorem mem_callers_addTarget {g : CallGraph} {call call' : InstId} {f f' : FuncId} :
    call' ∈ (g.addTarget call f).callers f' ↔
      call' = call ∧ f' = f ∨ call' ∈ g.callers f' := by
  rw [callers, callers, addTarget, Table.get?_update]
  by_cases hf : f' = f
  · subst hf
    rw [if_pos rfl, Option.getD_some, and_iff_left rfl]
    exact SortedSet.mem_insert
  · rw [if_neg hf, or_iff_right fun h => hf h.2]

/-- Only functions that have been noted have calls that reach them. -/
theorem mem_keys_of_mem_callers {g : CallGraph} {call : InstId} {f : FuncId}
    (h : call ∈ g.callers f) : f ∈ g.sources.keys := by
  unfold callers at h
  rw [Table.mem_keys_iff, Table.contains, Option.isSome_iff_ne_none]
  intro hnone
  rw [hnone] at h
  cases h

theorem Linked.addTarget {g : CallGraph} (hg : g.Linked) (call : InstId) (f : FuncId) :
    (g.addTarget call f).Linked where
  inverse call' f' := by
    rw [mem_calleeList_addTarget, mem_callers_addTarget, hg.inverse]

/-! ## Graphs that can be made -/

/-- **A call graph that can be made** by noting targets, one at a time or many of a call through an
address. -/
inductive Made : CallGraph → Prop
  | empty : Made {}
  | addTarget {g : CallGraph} (hg : Made g) (call : InstId) (f : FuncId) : Made (g.addTarget call f)
  | addIndirect {g : CallGraph} (hg : Made g) (call : InstId) (fs : List FuncId) (isCoarse : Bool) :
      Made (g.addIndirect call fs isCoarse)

/-- **What adding one target keeps holds of every graph that can be made**, if it does not matter
which calls are marked as coarse. -/
theorem Made.induction {P : CallGraph → Prop} (hempty : P {})
    (hadd : ∀ g, g.Made → P g → ∀ call f, P (g.addTarget call f))
    (hmark : ∀ g coarse, P g → P { g with coarse := coarse }) {g : CallGraph} (hg : g.Made) :
    P g := by
  induction hg with
  | empty => exact hempty
  | addTarget hg call f ih => exact hadd _ hg ih call f
  | @addIndirect g hg call fs isCoarse ih =>
    have hall := List.foldlRecOn (motive := fun g => g.Made ∧ P g) fs _ ⟨hg, ih⟩ fun g hg f _ =>
      ⟨hg.1.addTarget call f, hadd g hg.1 hg.2 call f⟩
    unfold CallGraph.addIndirect
    cases isCoarse with
    | false => exact hall.2
    | true => exact hmark _ _ hall.2

/-- **What noting a call by name does**: it adds the target that the call names, unless there is
none or it is an annotation of the compiler. -/
theorem addDirect_cases {p : Program} {g g' : CallGraph} {call : InstId}
    (h : addDirect p g call = .ok g') :
    (∃ f x, p.directCallee? call = .ok (some f) ∧ p.function f = .ok x ∧
      x.attrs.intrinsic = false ∧ g' = g.addTarget call f) ∨
    g' = g ∧ ∀ f, p.directCallee? call = .ok (some f) →
      ∃ x, p.function f = .ok x ∧ x.attrs.intrinsic = true := by
  obtain ⟨callee?, hcallee, h⟩ := bind_eq_ok_iff.mp h
  cases callee? with
  | none =>
    refine Or.inr ⟨(Except.ok.inj h).symm, fun f hf => ?_⟩
    cases hcallee.symm.trans hf
  | some f =>
    simp only [bind_eq_ok_iff, Checked.pure_eq_ok, Except.ok.injEq] at h
    obtain ⟨x, hx, rfl⟩ := h
    cases hplain : x.attrs.intrinsic with
    | false => exact Or.inl ⟨f, x, hcallee, hx, hplain, rfl⟩
    | true =>
      refine Or.inr ⟨rfl, fun f' hf' => ?_⟩
      cases hcallee.symm.trans hf'
      exact ⟨x, hx, hplain⟩

theorem Made.addDirect {p : Program} {g g' : CallGraph} (hg : g.Made) {call : InstId}
    (h : addDirect p g call = .ok g') : g'.Made := by
  obtain ⟨f, _, -, -, -, rfl⟩ | ⟨rfl, -⟩ := addDirect_cases h
  · exact hg.addTarget call f
  · exact hg

/-- **The graph of the calls by name can be made.** -/
theorem made_ofDirectCalls {p : Program} {g : CallGraph} (h : ofDirectCalls p = .ok g) :
    g.Made := by
  refine Checked.foldlM_induction (P := Made) (fun g hg f _ g' h => ?_) .empty h
  obtain ⟨calls, -, h⟩ := bind_eq_ok_iff.mp h
  exact Checked.foldlM_induction (P := Made) (fun _ hg _ _ _ h => hg.addDirect h) hg h

theorem Made.linked {g : CallGraph} (hg : g.Made) : g.Linked :=
  hg.induction linked_empty (fun _ _ hg call f => hg.addTarget call f) fun _ _ hg => ⟨hg.inverse⟩

/-- No call is listed without callees. -/
theorem Made.toList_ne_nil {g : CallGraph} (hg : g.Made) {call : InstId} {fs : SortedSet FuncId}
    (h : g.callees? call = some fs) : fs.toList ≠ [] := by
  refine hg.induction (P := fun g => ∀ call fs, g.callees? call = some fs → fs.toList ≠ [])
    (fun _ _ h => (Option.some_ne_none _ h.symm).elim) (fun g hg hall call f call' fs h => ?_)
    (fun _ _ hall => hall) call fs h
  rw [callees?, CallGraph.addTarget, Table.get?_update] at h
  split at h
  · obtain rfl := Option.some.inj h
    exact List.ne_nil_of_mem (SortedSet.mem_insert.mpr (Or.inl rfl))
  · exact hall call' fs h

theorem nodup_calleeList (g : CallGraph) (call : InstId) : (g.calleeList call).Nodup :=
  SortedSet.nodup_toList _

theorem nodup_callers (g : CallGraph) (f : FuncId) : (g.callers f).Nodup := SortedSet.nodup_toList _

/-- **A function is among the callers** of every function that a call of it may reach. -/
theorem Linked.mem_callingFunctions {g : CallGraph} (hg : g.Linked) {p : Program} {call : InstId}
    {caller f : FuncId} (hcall : p.functionOf call = .ok caller) (hf : f ∈ g.calleeList call)
    {callers : List FuncId} (h : g.callingFunctions p f = .ok callers) : caller ∈ callers := by
  obtain ⟨caller', hcaller', heq⟩ :=
    Checked.exists_mem_of_mapM h ((hg.inverse call f).mp hf)
  exact Except.ok.inj (hcall.symm.trans heq) ▸ hcaller'

/-! ## Calls by name -/

/-- **A call by name is listed** among the calls of the function it names, unless that is an
annotation of the compiler. -/
def Lists (g : CallGraph) (p : Program) (call : InstId) : Prop :=
  ∀ f, p.directCallee? call = .ok (some f) →
    ∃ x, p.function f = .ok x ∧ (x.attrs.intrinsic = false → call ∈ g.callers f)

theorem Lists.mono {p : Program} {g g' : CallGraph} {call : InstId} (h : g.Lists p call)
    (hsub : ∀ f, g.callers f ⊆ g'.callers f) : g'.Lists p call := by
  intro f hf
  obtain ⟨x, hx, hlisted⟩ := h f hf
  exact ⟨x, hx, fun hplain => hsub f (hlisted hplain)⟩

/-- Noting a call by name lists it, and keeps what is listed. -/
theorem lists_addDirect {p : Program} {g g' : CallGraph} {call : InstId}
    (h : addDirect p g call = .ok g') :
    g'.Lists p call ∧ ∀ f, g.callers f ⊆ g'.callers f := by
  obtain ⟨f, x, hcallee, hx, -, rfl⟩ | ⟨rfl, hothers⟩ := addDirect_cases h
  · refine ⟨fun f' hf' => ?_, fun f' call' hcall' => mem_callers_addTarget.mpr (.inr hcall')⟩
    cases hcallee.symm.trans hf'
    exact ⟨x, hx, fun _ => mem_callers_addTarget.mpr (.inl ⟨rfl, rfl⟩)⟩
  · refine ⟨fun f hf => ?_, fun _ => List.Subset.refl _⟩
    obtain ⟨x, hx, hintrinsic⟩ := hothers f hf
    exact ⟨x, hx, fun hplain => absurd (hintrinsic.symm.trans hplain) Bool.noConfusion⟩

/-- Noting the calls of a function lists them, and keeps what is listed. -/
theorem lists_foldlM_addDirect {p : Program} {g g' : CallGraph} {calls : List InstId}
    (h : calls.foldlM (addDirect p) g = .ok g') :
    (∀ call ∈ calls, g'.Lists p call) ∧ ∀ f, g.callers f ⊆ g'.callers f := by
  have hstep : ∀ g₁, (∀ f, g.callers f ⊆ g₁.callers f) → ∀ call ∈ calls, ∀ g₂,
      addDirect p g₁ call = .ok g₂ → (∀ f, g.callers f ⊆ g₂.callers f) ∧
        g₂.Lists p call ∧ ∀ call', g₁.Lists p call' → g₂.Lists p call' := by
    intro g₁ hsub₁ call _ g₂ h
    obtain ⟨hcall, hsub⟩ := lists_addDirect h
    exact ⟨fun f => List.Subset.trans (hsub₁ f) (hsub f), hcall, fun _ hlists => hlists.mono hsub⟩
  exact (Checked.foldlM_forall_mem hstep (fun _ => List.Subset.refl _) h).symm

/-- The calls of each function have been looked at, and are listed. -/
theorem exists_callsIn_of_ofDirectCalls {p : Program} {g : CallGraph} (h : ofDirectCalls p = .ok g)
    {w : FuncId} (hw : w ∈ p.functionIds) :
    ∃ calls, p.callsIn w = .ok calls ∧ ∀ call ∈ calls, g.Lists p call := by
  have hstep : ∀ g : CallGraph, True → ∀ w ∈ p.functionIds, ∀ g',
      (do (← p.callsIn w).foldlM (addDirect p) g) = .ok g' →
      True ∧ (∃ calls, p.callsIn w = .ok calls ∧ ∀ call ∈ calls, g'.Lists p call) ∧
        ∀ v, (∃ calls, p.callsIn v = .ok calls ∧ ∀ call ∈ calls, g.Lists p call) →
          ∃ calls, p.callsIn v = .ok calls ∧ ∀ call ∈ calls, g'.Lists p call := by
    intro g _ w _ g' h
    obtain ⟨calls, hcalls, h⟩ := bind_eq_ok_iff.mp h
    obtain ⟨hlisted, hsub⟩ := lists_foldlM_addDirect h
    refine ⟨trivial, ⟨calls, hcalls, hlisted⟩, fun v hv => ?_⟩
    obtain ⟨calls', hcalls', hlists⟩ := hv
    exact ⟨calls', hcalls', fun call hcall => (hlists call hcall).mono hsub⟩
  exact (Checked.foldlM_forall_mem hstep trivial h).2 w hw

/-- **The graph of the calls by name lists them**, wherever they are made. -/
theorem lists_of_mem_instsIn {p : Program} {g : CallGraph} (h : ofDirectCalls p = .ok g)
    {w : FuncId} {insts : List InstId} (hinsts : p.instsIn w = .ok insts) {call : InstId}
    (hcall : call ∈ insts) : g.Lists p call := by
  intro f hf
  obtain ⟨x, hx, -⟩ := bind_eq_ok_iff.mp hinsts
  obtain ⟨calls, hcalls, hlisted⟩ :=
    exists_callsIn_of_ofDirectCalls h (Program.mem_functionIds_of_function hx)
  obtain ⟨insts', hinsts', hcalls⟩ := bind_eq_ok_iff.mp hcalls
  obtain rfl := Except.ok.inj (hinsts.symm.trans hinsts')
  obtain ⟨args, hop⟩ := Program.directCallee?_eq_some_iff.mp hf
  exact hlisted call ((Program.mem_filterM_op_iff hcalls).mpr ⟨hcall, _, hop, rfl⟩) f hf

theorem lists_ofDirectCalls {p : Program} (hp : p.toArena.Owned) {g : CallGraph}
    (h : ofDirectCalls p = .ok g) {call : InstId} {w : FuncId} (hcall : p.functionOf call = .ok w)
    {x : Function} (hx : p.function w = .ok x) : g.Lists p call := by
  obtain ⟨calls, hcalls, -⟩ :=
    exists_callsIn_of_ofDirectCalls h (Program.mem_functionIds_of_function hx)
  obtain ⟨insts, hinsts, -⟩ := bind_eq_ok_iff.mp hcalls
  exact lists_of_mem_instsIn h hinsts ((Program.mem_instsIn_iff hp hinsts).mpr hcall)

/-- What the graph of the calls by name lists are calls by name. -/
theorem callsByName_of_ofDirectCalls {p : Program} {g : CallGraph} (h : ofDirectCalls p = .ok g) :
    ∀ f, ∀ call ∈ g.callers f, p.CallsByName call f := by
  refine Checked.foldlM_induction
    (P := fun g => ∀ f, ∀ call ∈ g.callers f, p.CallsByName call f)
    (fun g hg w _ g' h => ?_) (fun _ _ hcall => absurd hcall List.not_mem_nil) h
  obtain ⟨calls, hcalls, h⟩ := bind_eq_ok_iff.mp h
  obtain ⟨insts, hinsts, hcalls⟩ := bind_eq_ok_iff.mp hcalls
  refine Checked.foldlM_induction (P := fun g => ∀ f, ∀ call ∈ g.callers f,
    p.CallsByName call f) (fun g hnamed call hcall g' h => ?_) hg h
  obtain ⟨f, x, hcallee, hx, hplain, rfl⟩ | ⟨rfl, -⟩ := addDirect_cases h
  · intro f' call' hcall'
    rcases mem_callers_addTarget.mp hcall' with ⟨rfl, rfl⟩ | hcall'
    · exact ⟨⟨w, insts, hinsts, ((Program.mem_filterM_op_iff hcalls).mp hcall).1⟩,
        Program.directCallee?_eq_some_iff.mp hcallee, x, hx, hplain⟩
    · exact hnamed f' call' hcall'
  · exact hnamed

/-- **The graph of the calls by name lists exactly these.** -/
theorem mem_callers_ofDirectCalls_iff {p : Program} {g : CallGraph} (h : ofDirectCalls p = .ok g)
    {call : InstId} {f : FuncId} : call ∈ g.callers f ↔ p.CallsByName call f := by
  refine ⟨callsByName_of_ofDirectCalls h f call, ?_⟩
  rintro ⟨⟨w, insts, hinsts, hcall⟩, ⟨args, hop⟩, x, hx, hplain⟩
  obtain ⟨x', hx', hlisted⟩ := lists_of_mem_instsIn h hinsts hcall f
    (Program.directCallee?_eq_some_iff.mpr ⟨args, hop⟩)
  exact hlisted (Except.ok.inj (hx.symm.trans hx') ▸ hplain)

/-! ## Graphs within a program -/

/-- **A call graph within a program**: the functions it leads to and the calls it knows of exist. -/
structure Within (g : CallGraph) (p : Program) : Prop where
  callees : ∀ call, ∀ f ∈ g.calleeList call, p.HasFunction f
  callers : ∀ f, ∀ call ∈ g.callers f, p.HasInst call

theorem mem_calleeList {g : CallGraph} {call : InstId} {callees : SortedSet FuncId}
    (h : g.callees? call = some callees) {f : FuncId} :
    f ∈ g.calleeList call ↔ f ∈ callees.toList := by
  rw [calleeList, h, Option.getD_some]

/-- **The graph of the calls by name is within its program**: a call of a function that does not
exist is a fault while the graph is made. -/
theorem within_ofDirectCalls {p : Program} {g : CallGraph} (h : ofDirectCalls p = .ok g) :
    g.Within p := by
  have hcalls : ∀ f, ∀ call ∈ g.callers f, p.HasInst call ∧ p.HasFunction f := by
    intro f call hcall
    obtain ⟨-, ⟨args, hop⟩, x, hx, -⟩ := callsByName_of_ofDirectCalls h f call hcall
    exact ⟨Program.hasInst_of_op_eq_ok hop, Program.hasFunction_of_function_eq_ok hx⟩
  refine ⟨fun call f hf => ?_, fun f call hcall => (hcalls f call hcall).1⟩
  exact (hcalls f call (((made_ofDirectCalls h).linked.inverse call f).mp hf)).2

end CallGraph

/-! ## Contexts of analyses -/

/-- Preparing an analysis settles which functions are under analysis, and nothing else. -/
theorem Analysis.exists_conditions_of_prepare {a : Analysis} {c : Context}
    {rejected : List (FuncId × Defect)} (h : a.prepare = .ok (c, rejected)) :
    ∃ conditions, c = { a.emptyContext with conditions := conditions } := by
  refine Checked.foldlM_induction
    (P := fun acc => ∃ conditions, acc.1 = { a.emptyContext with conditions := conditions })
    (fun acc hacc f _ acc' h => ?_) ⟨_, rfl⟩ h
  obtain ⟨function, -, h⟩ := bind_eq_ok_iff.mp h
  split at h
  · exact Except.ok.inj h ▸ hacc
  · obtain ⟨defect?, -, h⟩ := bind_eq_ok_iff.mp h
    cases defect? with
    | some defect => exact Except.ok.inj h ▸ hacc
    | none =>
      obtain ⟨found, -, h⟩ := bind_eq_ok_iff.mp h
      obtain ⟨conditions, hacc⟩ := hacc
      exact Except.ok.inj h ▸ ⟨_, by dsimp only [Context.addFunction]; rw [hacc]⟩

namespace Context

/-- The context of an analysis of a program as it is written, with the default settings. -/
def ofDirectives (directives : List Directive) : Checked Context := do
  let a ← Analysis.ofProgram (← Program.build directives) {}
  return (← a.prepare).1

/-- Such a context comes from an analysis of the program by its calls by name. -/
theorem exists_prepare_of_ofDirectives {directives : List Directive} {c : Context}
    (h : ofDirectives directives = .ok c) :
    ∃ p g rejected, Program.build directives = .ok p ∧ CallGraph.ofDirectCalls p = .ok g ∧
      Analysis.prepare ⟨p, g, .basic, {}⟩ = .ok (c, rejected) := by
  simp only [ofDirectives, bind_eq_ok_iff, Checked.pure_eq_ok, Except.ok.injEq] at h
  obtain ⟨p, hp, a, ha, ⟨c', rejected⟩, hprepare, rfl⟩ := h
  simp only [Analysis.ofProgram, bind_eq_ok_iff, Checked.pure_eq_ok, Except.ok.injEq] at ha
  obtain ⟨g, hg, rfl⟩ := ha
  exact ⟨p, g, rejected, hp, hg, hprepare⟩

theorem build_of_ofDirectives {directives : List Directive} {c : Context}
    (h : ofDirectives directives = .ok c) : Program.build directives = .ok c.program := by
  obtain ⟨p, g, rejected, hp, -, hprepare⟩ := exists_prepare_of_ofDirectives h
  obtain ⟨conditions, rfl⟩ := Analysis.exists_conditions_of_prepare hprepare
  exact hp

theorem made_of_ofDirectives {directives : List Directive} {c : Context}
    (h : ofDirectives directives = .ok c) : c.graph.Made := by
  obtain ⟨p, g, rejected, -, hg, hprepare⟩ := exists_prepare_of_ofDirectives h
  obtain ⟨conditions, rfl⟩ := Analysis.exists_conditions_of_prepare hprepare
  exact CallGraph.made_ofDirectCalls hg

theorem within_of_ofDirectives {directives : List Directive} {c : Context}
    (h : ofDirectives directives = .ok c) : c.graph.Within c.program := by
  obtain ⟨p, g, rejected, hp, hg, hprepare⟩ := exists_prepare_of_ofDirectives h
  obtain ⟨conditions, rfl⟩ := Analysis.exists_conditions_of_prepare hprepare
  exact CallGraph.within_ofDirectCalls hg

theorem linked_of_ofDirectives {directives : List Directive} {c : Context}
    (h : ofDirectives directives = .ok c) : c.graph.Linked :=
  (made_of_ofDirectives h).linked

end Context

end ErrorReturns
