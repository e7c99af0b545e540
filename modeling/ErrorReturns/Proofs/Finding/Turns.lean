import ErrorReturns.Finding.Missing
import ErrorReturns.Proofs.Checked
import ErrorReturns.Proofs.Finding.Rounds
import Mathlib.Logic.Relation

/-!
# The turns of a search for missing checks

A search for missing checks goes through functions, calls and rounds, but only five things can
happen on the way: a round begins, a proposal is taken up, a function is passed on to a caller, a
failing call without a condition is counted, and what a round has brought becomes known
(`Context.Turn`). A search is a sequence of such turns, so whatever each turn keeps is true of the
outcome of every search (`Context.findMissing_induction`). Counting a call is taken apart further
(`Context.Counting`).
-/

namespace ErrorReturns

open Checked (bind_eq_ok_iff)

namespace Context

variable {c : Context} {errors errors' : ErrorTable} {f : FuncId}

variable (c) in
/-- **What may happen next in a search**, given what is known and how far it has come. -/
inductive Turn : ErrorTable × MissingSearch → ErrorTable × MissingSearch → Prop
  | begin (errors : ErrorTable) (s : MissingSearch) :
      Turn (errors, s) (errors, { s with round := {} })
  | takeUp {errors : ErrorTable} {s : MissingSearch} {f : FuncId} {candidates : SortedSet InstId}
      {prop : Proposal} {returned : List InstId}
      (hprop : c.proposal errors candidates = .ok (prop, returned))
      (hvalues : prop.values.isEmpty = false) :
      Turn (errors, s) (errors, Context.takeUp errors f prop s)
  | passOn (errors : ErrorTable) (s : MissingSearch) (f caller : FuncId) :
      Turn (errors, s) (errors, Context.passOn f s caller)
  | count {errors : ErrorTable} {s : MissingSearch} {f : FuncId} {candidates : SortedSet InstId}
      {consumed : SortedSet InstId} {call : InstId} {state : MissingState}
      (hf : c.isAnalysed f = true) (hcandidates : c.failingCalls errors f = .ok candidates)
      (hcall : call ∈ candidates)
      (hunchecked : ∀ cond ∈ c.conditionsOf f, cond.lhs.value ≠ .inst call)
      (hconsumed : c.program.consumedCalls f = .ok consumed)
      (hcount : c.countCall consumed s.state call = .ok state) :
      Turn (errors, s) (errors, { s with state := state })
  | learn (errors : ErrorTable) (s : MissingSearch) :
      Turn (errors, s) (Round.apply s.round errors, s)

variable (c) in
/-- A sequence of turns. -/
abbrev Turns : ErrorTable × MissingSearch → ErrorTable × MissingSearch → Prop :=
  Relation.ReflTransGen c.Turn

/-! ## A search is a sequence of turns -/

theorem turns_of_foldl_passOn (s : MissingSearch) (callers : List FuncId) :
    c.Turns (errors, s) (errors, callers.foldl (passOn f) s) :=
  List.foldlRecOn (motive := fun s' => c.Turns (errors, s) (errors, s')) callers _ .refl
    fun s' hs' caller _ => hs'.tail (.passOn errors s' f caller)

/-- The rule about returned values is a sequence of turns. -/
theorem turns_of_applyReturnRule {candidates : SortedSet InstId} {s s' : MissingSearch}
    {returned : List InstId}
    (h : c.applyReturnRule errors f candidates s = .ok (s', returned)) :
    c.Turns (errors, s) (errors, s') := by
  obtain ⟨function, -, h⟩ := bind_eq_ok_iff.mp h
  split at h
  · obtain ⟨rfl, -⟩ := Prod.mk.inj (Except.ok.inj h)
    exact .refl
  · obtain ⟨⟨prop, returned'⟩, hprop, h⟩ := bind_eq_ok_iff.mp h
    dsimp only at h
    split at h
    · obtain ⟨rfl, -⟩ := Prod.mk.inj (Except.ok.inj h)
      exact .refl
    · rename_i hvalues
      rw [Bool.or_eq_true, not_or] at hvalues
      obtain ⟨callers, -, h⟩ := bind_eq_ok_iff.mp h
      obtain ⟨rfl, -⟩ := Prod.mk.inj (Except.ok.inj h)
      exact (turns_of_foldl_passOn _ callers).head
        (.takeUp hprop (Bool.eq_false_iff.mpr hvalues.1))

/-- So is the examination of a function. -/
theorem turns_of_examine {s s' : MissingSearch} (hf : c.isAnalysed f = true)
    (h : c.examine errors s f = .ok s') : c.Turns (errors, s) (errors, s') := by
  simp only [examine, bind_eq_ok_iff] at h
  obtain ⟨candidates, hcandidates, ⟨s₁, returned⟩, hrule, h⟩ := h
  refine (turns_of_applyReturnRule hrule).trans ?_
  dsimp only at h
  split at h
  · obtain rfl := Except.ok.inj h
    exact .refl
  · simp only [bind_eq_ok_iff, Checked.pure_eq_ok, Except.ok.injEq] at h
    obtain ⟨consumed, hconsumed, state, hstate, rfl⟩ := h
    -- the calls are counted one after the other, each in the state that the last one left
    refine Checked.foldlM_induction
      (P := fun state => c.Turns (errors, s₁) (errors, { s₁ with state := state }))
      (fun state hturns call hcall state' hcount => ?_) .refl hstate
    obtain ⟨hcall, hkept⟩ := List.mem_filter.mp hcall
    simp only [decide_eq_true_eq] at hkept
    refine hturns.tail (.count hf hcandidates hcall (fun cond hcond hvalue => ?_) hconsumed hcount)
    exact hkept.2 (List.mem_filterMap.mpr ⟨cond, hcond, congrArg Value.inst? hvalue⟩)

theorem turns_of_runRound {pending : List FuncId} {s s' : MissingSearch}
    (h : c.runRound errors pending s = .ok s') : c.Turns (errors, s) (errors, s') :=
  Checked.foldlM_induction (P := fun s' => c.Turns (errors, s) (errors, s'))
    (fun _ hturns _ hf _ h => hturns.trans (turns_of_examine (List.mem_filter.mp hf).2 h))
    (.single (.begin errors s)) h

theorem Passes.turns {pending : List FuncId} {s t : MissingSearch} {ps : List Pass}
    (h : c.Passes errors pending s ps errors' t) : c.Turns (errors, s) (errors', t) := by
  induction h with
  | last hrun _ => exact (turns_of_runRound hrun).tail (.learn _ _)
  | more hrun _ _ ih => exact ((turns_of_runRound hrun).tail (.learn _ _)).trans ih

/-- **What every turn keeps, a search keeps**: it is a sequence of turns, from what is known at
first to what is known in the end. -/
theorem findMissing_induction {P : ErrorTable × MissingSearch → Prop}
    (hturn : ∀ a b, P a → c.Turn a b → P b) {k k' : Knowledge} {state : MissingState}
    (hstart : P (k.errors, { confidence := k.confidence }))
    (h : c.findMissing k = .ok (k', state)) :
    ∃ s, P (k'.errors, s) ∧ k'.confidence = s.confidence ∧ state = s.state := by
  obtain ⟨⟨errors, s⟩, hrun, h⟩ := bind_eq_ok_iff.mp h
  obtain ⟨rfl, rfl⟩ := Prod.mk.inj (Except.ok.inj h)
  obtain ⟨ps, hps⟩ := exists_passes hrun
  refine ⟨s, ?_, rfl, rfl⟩
  have hrun : ∀ b, c.Turns (k.errors, { confidence := k.confidence }) b → P b := by
    intro b hb
    induction hb with
    | refl => exact hstart
    | tail _ hlast ih => exact hturn _ _ ih hlast
  exact hrun _ hps.turns

/-! ## What a turn leaves alone -/

@[simp] theorem state_takeUp (prop : Proposal) (s : MissingSearch) :
    (Context.takeUp errors f prop s).state = s.state := by
  unfold Context.takeUp
  dsimp only
  split
  · split <;> rfl
  · rfl

@[simp] theorem state_passOn (s : MissingSearch) (caller : FuncId) :
    (Context.passOn f s caller).state = s.state := by
  unfold Context.passOn
  split <;> rfl

@[simp] theorem replaced_passOn (s : MissingSearch) (caller : FuncId) :
    (Context.passOn f s caller).round.replaced = s.round.replaced := by
  unfold Context.passOn
  split <;> rfl

/-! ## Failing calls -/

/-- A call that may reach a function with error values. -/
def Fails (c : Context) (errors : ErrorTable) (call : InstId) : Prop :=
  ∃ g ∈ c.graph.calleeList call, ∃ s, errors.get? ⟨g, 0⟩ = some s ∧ s.isEmpty = false

theorem Fails.calleeList_ne_nil {call : InstId} (h : c.Fails errors call) :
    c.graph.calleeList call ≠ [] := by
  obtain ⟨g, hg, -⟩ := h
  exact List.ne_nil_of_mem hg

/-- A call that may fail is a call of the function. -/
theorem of_mem_failingCalls {candidates : SortedSet InstId}
    (h : c.failingCalls errors f = .ok candidates) {call : InstId} (hcall : call ∈ candidates) :
    (∃ insts, c.program.instsIn f = .ok insts ∧ call ∈ insts) ∧
      (∃ op, c.program.op call = .ok op ∧ op.isCall = true) ∧ c.Fails errors call := by
  simp only [failingCalls, bind_eq_ok_iff, Checked.pure_eq_ok, Except.ok.injEq] at h
  obtain ⟨calls, hcalls, rfl⟩ := h
  obtain ⟨hmem, hfails⟩ := List.mem_filter.mp (SortedSet.mem_ofList.mp hcall)
  obtain ⟨insts, hinsts, hcalls⟩ := bind_eq_ok_iff.mp hcalls
  obtain ⟨hmem, hisCall⟩ := (Program.mem_filterM_op_iff hcalls).mp hmem
  obtain ⟨g, hg, hknown⟩ := List.any_eq_true.mp hfails
  obtain ⟨s, hs, hvalues⟩ := (Option.any_eq_true _ _).mp hknown
  exact ⟨⟨insts, hinsts, hmem⟩, hisCall, g, hg, s, hs, by simpa using hvalues⟩

end Context

/-! ## Candidates -/

/-- Places all of whose candidates are of some kind. -/
def Sites.Each (Q : Candidate → Prop) (sites : Sites) : Prop :=
  Table.All (fun _ => True) (fun xs => ∀ x ∈ xs, Q x) sites

theorem Sites.each_empty {Q : Candidate → Prop} : Sites.Each Q {} := Table.all_empty

theorem Sites.Each.add {Q : Candidate → Prop} {sites : Sites} (h : sites.Each Q) (site : Site)
    {x : Candidate} (hx : Q x) : (sites.add site x).Each Q := by
  refine Table.All.update h trivial fun old hold => ?_
  refine List.forall_mem_append.mpr ⟨?_, List.forall_mem_singleton.mpr hx⟩
  cases old with
  | none => exact fun _ hy => absurd hy List.not_mem_nil
  | some xs => exact hold xs rfl

/-! ## Counting a call -/

/-- The location of inlined code that an instruction carries. -/
def Program.inlinedLoc? (p : Program) (i : InstId) : Option SourceLoc :=
  p.insts[i.index]?.bind fun x => x.loc.filter (!·.inlinedAt.isEmpty)

/-- Record a call in the tallies of the functions that it may reach. -/
def Tally.recordAll (tallies : Table FuncId Tally) (callees : List FuncId) (bad : Bool) :
    Table FuncId Tally :=
  callees.foldl (fun t f => t.update f fun old => (old.getD {}).record bad) tallies

namespace Context

variable {c : Context}

variable (c) in
/-- **What counting a call may do**: nothing, if it yields an address or has been counted; only note
that it was seen, if its code was inlined from a place that has been counted; and otherwise record
it, as a missing check unless its result is consumed. -/
inductive Counting (consumed : SortedSet InstId) (call : InstId) (s : MissingState) :
    MissingState → Prop
  | skip : Counting consumed call s s
  | inlined {loc : SourceLoc} (hnew : call ∉ s.visited)
      (hloc : c.program.inlinedLoc? call = some loc) (hseen : loc ∈ s.visitedInlined) :
      Counting consumed call s { s with visited := call :: s.visited }
  | handled (hnew : call ∉ s.visited)
      (hloc : ∀ loc ∈ c.program.inlinedLoc? call, loc ∉ s.visitedInlined)
      (hconsumed : call ∈ consumed) : Counting consumed call s
        { tallies := Tally.recordAll s.tallies (c.graph.calleeList call) false
          sites := s.sites
          visited := call :: s.visited
          visitedInlined := (c.program.inlinedLoc? call).toList ++ s.visitedInlined }
  | missing {inst : Inst} (site : Site) (hinst : c.program.inst call = .ok inst)
      (hptr : inst.ty.isPtr = false) (hnew : call ∉ s.visited)
      (hloc : ∀ loc ∈ c.program.inlinedLoc? call, loc ∉ s.visitedInlined)
      (hconsumed : call ∉ consumed) : Counting consumed call s
        { tallies := Tally.recordAll s.tallies (c.graph.calleeList call) true
          sites := s.sites.add site ⟨call, none⟩
          visited := call :: s.visited
          visitedInlined := (c.program.inlinedLoc? call).toList ++ s.visitedInlined }

/-- **What counting a call does**: one of the cases of `Counting`. The cases are those of the two
marks, on the call and on the place it was inlined from, and of its result being looked at. -/
theorem counting_of_countCall {consumed : SortedSet InstId} {s s' : MissingState} {call : InstId}
    (hcall : c.graph.calleeList call ≠ []) (h : c.countCall consumed s call = .ok s') :
    c.Counting consumed call s s' := by
  obtain ⟨inst, hinst, h⟩ := bind_eq_ok_iff.mp h
  have hloc : c.program.inlinedLoc? call = inst.loc.filter (!·.inlinedAt.isEmpty) := by
    rw [Program.inlinedLoc?, Arena.inst_eq_ok_iff.mp hinst, Option.bind_some]
  split at h
  · exact Except.ok.inj h ▸ .skip
  rename_i hcounts
  rw [Bool.or_eq_true, not_or, Bool.not_eq_true, decide_eq_true_eq] at hcounts
  obtain ⟨hptr, hnew⟩ := hcounts
  dsimp only at h
  rw [← hloc] at h
  split at h
  · rename_i hseen
    obtain ⟨loc, hloc, hseen⟩ := (Option.any_eq_true _ _).mp hseen
    exact Except.ok.inj h ▸ .inlined hnew hloc (of_decide_eq_true hseen)
  rename_i hseen
  have hseen : ∀ loc ∈ c.program.inlinedLoc? call, loc ∉ s.visitedInlined := by
    intro loc hloc hmem
    exact hseen ((Option.any_eq_true _ _).mpr ⟨loc, hloc, decide_eq_true hmem⟩)
  -- from here the call is counted; what is left is whether its result is consumed
  cases hcallees : c.graph.callees? call with
  | none => exact absurd (by rw [CallGraph.calleeList, hcallees]; rfl) hcall
  | some callees =>
    have hlist : callees.toList = c.graph.calleeList call := by
      rw [CallGraph.calleeList, hcallees, Option.getD_some]
    rw [hcallees] at h
    dsimp only at h
    rw [hlist] at h
    split at h
    · rename_i hconsumed
      obtain ⟨site, -, h⟩ := bind_eq_ok_iff.mp h
      have hmissing := Counting.missing (c := c) (s := s) site hinst hptr hnew hseen
        (of_decide_eq_true hconsumed)
      simp only [hconsumed] at h
      exact Except.ok.inj h ▸ hmissing
    · rename_i hconsumed
      rw [Bool.not_eq_true] at hconsumed
      have hhandled := Counting.handled (c := c) (s := s) hnew hseen
        (not_not.mp (of_decide_eq_false hconsumed))
      simp only [hconsumed] at h
      exact Except.ok.inj h ▸ hhandled

end Context

end ErrorReturns
