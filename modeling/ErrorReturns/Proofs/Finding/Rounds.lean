import ErrorReturns.Finding.Missing
import ErrorReturns.Proofs.CallGraph
import ErrorReturns.Proofs.ErrorTable
import Mathlib.Data.List.Basic

/-!
# Rounds of looking for missing checks

The search for missing checks learns error values from what functions return, in rounds, until a
round learns nothing. It is at a fixed point if nothing new can be learned about any function
without values (`Context.Settled`). What can be learned about a function depends on the values of
the functions that certain calls may reach (`Context.Consults`, `Settled.congr`), and a function
whose values are new is passed on to all of its callers in the same round (`Context.Told`), which
are looked at in the next one.

Replaced values are another matter. Their callers may have been told of the function before, and
a round that replaces values but learns none is the last one. A function is then left with
proposals that nobody took up: it is `Overtaken`. This is the only way in which the search can
fall short, provided that a function depends on its own calls only.
-/

namespace ErrorReturns

open Checked (bind_eq_ok_iff)

namespace Context

variable {c : Context} {errors errors' : ErrorTable} {f : FuncId}

/-! ## What a proposal depends on -/

variable (c) in
/-- A path on which a function may return after one of its calls. -/
def ReturnPath (f : FuncId) (path : List BlockId) : Prop :=
  ∃ calls call root paths, c.program.callsIn f = .ok calls ∧ call ∈ calls ∧
    c.program.rootOf call = .ok root ∧ c.program.pathsFrom [] root ⟨[], none⟩ = .ok paths ∧
    path ∈ paths.map Path.blocks

variable (c) in
/-- **The calls that a function depends on** for the errors that it returns: its own, and those
whose results it returns, or compares and returns the comparison. -/
inductive Consults (f : FuncId) : InstId → Prop
  | own {calls : List InstId} {call : InstId} (hcalls : c.program.callsIn f = .ok calls)
      (hcall : call ∈ calls) : Consults f call
  | returned {path : List BlockId} {v : Value} {call : InstId} (hpath : c.ReturnPath f path)
      (hv : c.program.returnedOperand? path = .ok (some v))
      (hcall : c.program.resolveAlong c.mayAlias path (some v) = .ok (some (.inst call))) :
      Consults f call
  | compared {path : List BlockId} {v checked : Value} {cmp call : InstId} {pred : Predicate}
      {lhs rhs : Value} (hpath : c.ReturnPath f path)
      (hv : c.program.returnedOperand? path = .ok (some v))
      (hcmp : c.program.resolveAlong c.mayAlias path (some v) = .ok (some (.inst cmp)))
      (hop : c.program.opOf? (.inst cmp) = .ok (some (.cmp pred lhs rhs)))
      (hlhs : c.program.resolveAlong c.mayAlias path (some lhs) = .ok (some checked))
      (hcall : c.program.callOf? checked = .ok (some call)) : Consults f call

variable (c) in
/-- Two tables say the same about every function that the calls a function depends on may reach. -/
def AgreeFor (f : FuncId) (errors errors' : ErrorTable) : Prop :=
  ∀ call, c.Consults f call → ∀ g ∈ c.graph.calleeList call,
    errors.get? ⟨g, 0⟩ = errors'.get? ⟨g, 0⟩

/-- Which calls may fail is read off from what the tables agree on. -/
theorem failingCalls_congr (h : c.AgreeFor f errors errors') :
    c.failingCalls errors f = c.failingCalls errors' f := by
  unfold failingCalls
  cases hcalls : c.program.callsIn f with
  | error e => rfl
  | ok calls =>
    have hfilter : calls.filter (fun call => (c.graph.calleeList call).any fun g =>
          (errors.get? ⟨g, 0⟩).any (!·.isEmpty)) =
        calls.filter (fun call => (c.graph.calleeList call).any fun g =>
          (errors'.get? ⟨g, 0⟩).any (!·.isEmpty)) := by
      refine List.filter_congr fun call hcall => ?_
      rw [Bool.eq_iff_iff, List.any_eq_true, List.any_eq_true]
      refine exists_congr fun g => and_congr_right fun hg => ?_
      rw [h call (.own hcalls hcall) g hg]
    rw [Checked.ok_bind, Checked.ok_bind, hfilter]

/-- What a call proposes depends on its callees alone. -/
theorem proposeCall_congr {call : InstId}
    (h : ∀ g ∈ c.graph.calleeList call, errors.get? ⟨g, 0⟩ = errors'.get? ⟨g, 0⟩)
    (prop : Proposal) : c.proposeCall errors call prop = c.proposeCall errors' call prop := by
  have hknown : (c.graph.calleeList call).filterMap (fun f =>
        (errors.get? ⟨f, 0⟩).bind fun s => if s.isEmpty then none else some (f, s)) =
      (c.graph.calleeList call).filterMap fun f =>
        (errors'.get? ⟨f, 0⟩).bind fun s => if s.isEmpty then none else some (f, s) :=
    List.filterMap_congr fun g hg => by rw [h g hg]
  rw [proposeCall, proposeCall, hknown]

/-- What a comparison proposes depends on the callees of the call it looks at. -/
theorem proposeComparison_congr {path : List BlockId} {lhs : Value}
    (h : ∀ checked call, c.program.resolveAlong c.mayAlias path (some lhs) = .ok (some checked) →
      c.program.callOf? checked = .ok (some call) →
        ∀ g ∈ c.graph.calleeList call, errors.get? ⟨g, 0⟩ = errors'.get? ⟨g, 0⟩)
    (cmp : InstId) (pred : Predicate) (rhs : Value) (prop : Proposal) :
    c.proposeComparison errors path cmp pred lhs rhs prop =
      c.proposeComparison errors' path cmp pred lhs rhs prop := by
  unfold proposeComparison
  cases hchecked : c.program.resolveAlong c.mayAlias path (some lhs) with
  | error e => rfl
  | ok checked? =>
    cases checked? with
    | none => rfl
    | some checked =>
      simp only [Checked.ok_bind]
      cases hcall : c.program.callOf? checked with
      | error e => rfl
      | ok call? =>
        cases call? with
        | none => rfl
        | some call =>
          simp only [Checked.ok_bind, ErrorTable.errorBranch?_congr (h checked call hchecked hcall)]

/-- What a path contributes depends on the call that it returns, or compares before it returns. -/
theorem proposeFromPath_congr (h : c.AgreeFor f errors errors') {path : List BlockId}
    (hpath : c.ReturnPath f path) (acc : Proposal × List InstId) :
    c.proposeFromPath errors acc path = c.proposeFromPath errors' acc path := by
  unfold proposeFromPath
  -- up to the operation that is returned the table is not read at all
  cases hv : c.program.returnedOperand? path with
  | error e => simp only [Checked.error_bind]
  | ok v? =>
    cases v? with
    | none => simp only [Checked.ok_bind]
    | some v =>
      simp only [Checked.ok_bind]
      cases hr : c.program.resolveAlong c.mayAlias path (some v) with
      | error e => simp only [Checked.error_bind]
      | ok resolved? =>
        cases resolved? with
        | none => simp only [Checked.ok_bind]
        | some resolved =>
          simp only [Checked.ok_bind]
          cases hop : c.program.opOf? resolved with
          | error e => simp only [Checked.error_bind]
          | ok op? =>
            simp only [Checked.ok_bind]
            split
            · rw [proposeComparison_congr fun checked call hchecked hcall =>
                h call (.compared hpath hv hr hop hchecked hcall)]
            · rw [proposeCall_congr (h _ (.returned hpath hv hr))]
            · rfl

/-- **A proposal depends on the callees of the calls it consults** and on no other entry. -/
theorem proposal_congr (h : c.AgreeFor f errors errors') {calls : List InstId}
    (hcalls : c.program.callsIn f = .ok calls) {candidates : SortedSet InstId}
    (hcandidates : ∀ call ∈ candidates, call ∈ calls) :
    c.proposal errors candidates = c.proposal errors' candidates := by
  unfold proposal
  cases hroots : candidates.toList.mapM c.program.rootOf with
  | error e => simp only [Checked.error_bind]
  | ok roots =>
    simp only [Checked.ok_bind]
    refine Checked.foldlM_congr (fun acc root hroot => ?_) _
    obtain ⟨call, hcall, hroot⟩ := Checked.exists_of_mem_mapM hroots (SortedSet.mem_ofList.mp hroot)
    cases hpaths : c.program.pathsFrom [] root ⟨[], none⟩ with
    | error e => simp only [Checked.error_bind]
    | ok paths =>
      simp only [Checked.ok_bind]
      exact Checked.foldlM_congr (fun acc path hpath => proposeFromPath_congr h
        ⟨calls, call, root, paths, hcalls, hcandidates call hcall, hroot, hpaths, hpath⟩ acc) acc

variable (c) in
/-- **Nothing new can be learned about a function**: what it returns from failing calls leads to no
proposal, or to one that says nothing. -/
def Settled (errors : ErrorTable) (f : FuncId) : Prop :=
  ∃ candidates prop returned, c.failingCalls errors f = .ok candidates ∧
    c.proposal errors candidates = .ok (prop, returned) ∧
    (prop.values.isEmpty || prop.values.isFull) = true

theorem mem_callsIn_of_failingCalls {candidates : SortedSet InstId}
    (h : c.failingCalls errors f = .ok candidates) :
    ∃ calls, c.program.callsIn f = .ok calls ∧ ∀ call ∈ candidates, call ∈ calls := by
  simp only [failingCalls, bind_eq_ok_iff, Checked.pure_eq_ok, Except.ok.injEq] at h
  obtain ⟨calls, hcalls, rfl⟩ := h
  exact ⟨calls, hcalls, fun call hcall => List.mem_of_mem_filter (SortedSet.mem_ofList.mp hcall)⟩

theorem Settled.congr (hs : c.Settled errors f) (h : c.AgreeFor f errors errors') :
    c.Settled errors' f := by
  obtain ⟨candidates, prop, returned, hcandidates, hprop, htrivial⟩ := hs
  obtain ⟨calls, hcalls, hmem⟩ := mem_callsIn_of_failingCalls hcandidates
  rw [failingCalls_congr h] at hcandidates
  rw [proposal_congr h hcalls hmem] at hprop
  exact ⟨candidates, prop, returned, hcandidates, hprop, htrivial⟩

/-! ## Looking at one function -/

@[simp] theorem proposal_empty : c.proposal errors {} = .ok ({}, []) := rfl

/-- **What the rule about returned values does**: nothing, if there is nothing to propose, or it
takes up the proposal and passes the function on to its callers. -/
theorem applyReturnRule_cases {candidates : SortedSet InstId} {s s' : MissingSearch}
    {returned : List InstId} (hcandidates : c.failingCalls errors f = .ok candidates)
    (h : c.applyReturnRule errors f candidates s = .ok (s', returned)) :
    ∃ function, c.program.function f = .ok function ∧
      (s' = s ∧ (function.ret.isVoid = true ∨ c.Settled errors f) ∨
        ∃ prop callers, c.graph.callingFunctions c.program f = .ok callers ∧
          s' = callers.foldl (passOn f) (takeUp errors f prop s)) := by
  obtain ⟨function, hfunction, h⟩ := bind_eq_ok_iff.mp h
  refine ⟨function, hfunction, ?_⟩
  split at h
  · rename_i hskip
    obtain ⟨rfl, -⟩ := Prod.mk.inj (Except.ok.inj h)
    refine Or.inl ⟨rfl, ?_⟩
    rcases Bool.or_eq_true_iff.mp hskip with hvoid | hempty
    · exact Or.inl hvoid
    · have hnil : candidates = {} := SortedSet.isEmpty_iff.mp hempty
      exact Or.inr ⟨candidates, {}, [], hcandidates, hnil ▸ proposal_empty, rfl⟩
  · obtain ⟨⟨prop, returned'⟩, hprop, h⟩ := bind_eq_ok_iff.mp h
    dsimp only at h
    split at h
    · rename_i htrivial
      obtain ⟨rfl, -⟩ := Prod.mk.inj (Except.ok.inj h)
      exact Or.inl ⟨rfl, Or.inr ⟨candidates, prop, returned', hcandidates, hprop, htrivial⟩⟩
    · obtain ⟨callers, hcallers, h⟩ := bind_eq_ok_iff.mp h
      obtain ⟨rfl, -⟩ := Prod.mk.inj (Except.ok.inj h)
      exact Or.inr ⟨prop, callers, hcallers, rfl⟩

/-- **What looking at a function does**: either nothing is proposed for it, and nothing is noted, or
a proposal is taken up, and the function is passed on to its callers. -/
theorem examine_cases {s s' : MissingSearch} (h : c.examine errors s f = .ok s') :
    ∃ function s₁, c.program.function f = .ok function ∧ s'.round = s₁.round ∧
      s'.handled = s₁.handled ∧
      (s₁ = s ∧ (function.ret.isVoid = true ∨ c.Settled errors f) ∨
        ∃ prop callers, c.graph.callingFunctions c.program f = .ok callers ∧
          s₁ = callers.foldl (passOn f) (takeUp errors f prop s)) := by
  simp only [examine, bind_eq_ok_iff] at h
  obtain ⟨candidates, hcandidates, ⟨s₁, returned⟩, hrule, h⟩ := h
  obtain ⟨function, hfunction, hcases⟩ := applyReturnRule_cases hcandidates hrule
  refine ⟨function, s₁, hfunction, ?_⟩
  dsimp only at h
  split at h
  · obtain rfl := Except.ok.inj h
    exact ⟨rfl, rfl, hcases⟩
  · simp only [bind_eq_ok_iff, Checked.pure_eq_ok, Except.ok.injEq] at h
    obtain ⟨consumed, -, state, -, rfl⟩ := h
    exact ⟨rfl, rfl, hcases⟩

/-! ## Passing on -/

@[simp] theorem learned_passOn (s : MissingSearch) (caller : FuncId) :
    (passOn f s caller).round.learned = s.round.learned := by
  unfold passOn
  split <;> rfl

@[simp] theorem mem_handled_passOn {s : MissingSearch} {caller : FuncId} {pair : FuncId × FuncId} :
    pair ∈ (passOn f s caller).handled ↔ pair = (caller, f) ∨ pair ∈ s.handled := by
  unfold passOn
  split
  · rename_i hmem
    exact (or_iff_right_of_imp fun h => h ▸ hmem).symm
  · exact List.mem_cons

/-- A caller that is told of a function for the first time is to be looked at next. -/
@[simp] theorem mem_next_passOn {s : MissingSearch} {caller g : FuncId} :
    g ∈ (passOn f s caller).round.next ↔
      g = caller ∧ (caller, f) ∉ s.handled ∨ g ∈ s.round.next := by
  unfold passOn
  split
  · rename_i hmem
    exact (or_iff_right fun h => h.2 hmem).symm
  · rename_i hmem
    rw [and_iff_left hmem]
    exact SortedSet.mem_insert

@[simp] theorem learned_foldl_passOn (s : MissingSearch) (callers : List FuncId) :
    (callers.foldl (passOn f) s).round.learned = s.round.learned :=
  List.foldlRecOn (motive := fun s' => s'.round.learned = s.round.learned) callers _ rfl
    fun s' h caller _ => (learned_passOn s' caller).trans h

@[simp] theorem mem_handled_foldl_passOn {s : MissingSearch} {callers : List FuncId}
    {pair : FuncId × FuncId} : pair ∈ (callers.foldl (passOn f) s).handled ↔
      (∃ caller ∈ callers, pair = (caller, f)) ∨ pair ∈ s.handled := by
  induction callers generalizing s with
  | nil => simp
  | cons caller rest ih =>
    simp only [List.foldl_cons, ih, mem_handled_passOn, List.mem_cons, exists_eq_or_imp]
    rw [or_left_comm, or_assoc]

theorem mem_next_foldl_passOn_of_mem {s : MissingSearch} {callers : List FuncId} {g : FuncId}
    (h : g ∈ s.round.next) : g ∈ (callers.foldl (passOn f) s).round.next :=
  List.foldlRecOn (motive := fun s' : MissingSearch => g ∈ s'.round.next) callers _ h
    fun _ h _ _ => mem_next_passOn.mpr (Or.inr h)

/-- **Every caller is told**, unless it has been told before. -/
theorem mem_next_foldl_passOn {s : MissingSearch} {callers : List FuncId} {caller : FuncId}
    (hcaller : caller ∈ callers) :
    caller ∈ (callers.foldl (passOn f) s).round.next ∨ (caller, f) ∈ s.handled := by
  induction callers generalizing s with
  | nil => cases hcaller
  | cons first rest ih =>
    rw [List.foldl_cons]
    by_cases hhandled : (caller, f) ∈ s.handled
    · exact Or.inr hhandled
    by_cases hfirst : caller = first
    · refine Or.inl (mem_next_foldl_passOn_of_mem (mem_next_passOn.mpr (Or.inl ⟨hfirst, ?_⟩)))
      exact hfirst ▸ hhandled
    · rcases ih (s := passOn f s first) (List.mem_of_ne_of_mem hfirst hcaller) with h | h
      · exact Or.inl h
      · rcases mem_handled_passOn.mp h with h | h
        · exact absurd (congrArg Prod.fst h) hfirst
        · exact Or.inr h

/-! ## Taking up proposals -/

@[simp] theorem handled_takeUp (prop : Proposal) (s : MissingSearch) :
    (takeUp errors f prop s).handled = s.handled := by
  unfold takeUp
  dsimp only
  split
  · split <;> rfl
  · rfl

@[simp] theorem next_takeUp (prop : Proposal) (s : MissingSearch) :
    (takeUp errors f prop s).round.next = s.round.next := by
  unfold takeUp
  dsimp only
  split
  · split <;> rfl
  · rfl

/-- A proposal makes new values known exactly for a function that has none. -/
theorem contains_learned_takeUp {prop : Proposal} {s : MissingSearch} {k : ReturnSlot} :
    (takeUp errors f prop s).round.learned.contains k = true ↔
      k = ⟨f, 0⟩ ∧ errors.contains k = false ∨ s.round.learned.contains k = true := by
  unfold takeUp
  dsimp only
  by_cases hknown : errors.contains ⟨f, 0⟩ = true
  · rw [if_pos hknown, or_iff_right]
    · split <;> rfl
    · rintro ⟨rfl, h⟩
      rw [hknown] at h
      cases h
  · rw [if_neg hknown]
    rw [Bool.not_eq_true] at hknown
    refine Table.contains_update_iff.trans (or_congr_left ?_)
    exact ⟨fun h => ⟨h, h ▸ hknown⟩, And.left⟩

/-! ## One round -/

variable (c) in
/-- **What holds throughout a round**: only functions with error values, old or new, have been
passed on, and a function with new ones has been passed on to all of its callers in this round. -/
structure Told (errors : ErrorTable) (s : MissingSearch) : Prop where
  handled : ∀ caller g, (caller, g) ∈ s.handled →
    errors.contains ⟨g, 0⟩ = true ∨ s.round.learned.contains ⟨g, 0⟩ = true
  learned : ∀ g, s.round.learned.contains ⟨g, 0⟩ = true → errors.contains ⟨g, 0⟩ = false ∧
    ∃ callers, c.graph.callingFunctions c.program g = .ok callers ∧
      ∀ caller ∈ callers, caller ∈ s.round.next

/-- Taking up a proposal and passing it on tells all callers. -/
theorem Told.takeUp_passOn {s : MissingSearch} (hs : c.Told errors s) {prop : Proposal}
    {callers : List FuncId} (hcallers : c.graph.callingFunctions c.program f = .ok callers) :
    c.Told errors (callers.foldl (passOn f) (takeUp errors f prop s)) where
  handled caller g hpair := by
    rw [learned_foldl_passOn, contains_learned_takeUp]
    rw [mem_handled_foldl_passOn, handled_takeUp] at hpair
    rcases hpair with ⟨caller', -, heq⟩ | hpair
    · obtain ⟨-, rfl⟩ := Prod.mk.inj heq
      cases hknown : errors.contains ⟨g, 0⟩ with
      | true => exact Or.inl rfl
      | false => exact Or.inr (Or.inl ⟨rfl, rfl⟩)
    · exact (hs.handled caller g hpair).imp_right Or.inr
  learned g hg := by
    rw [learned_foldl_passOn, contains_learned_takeUp] at hg
    -- callers of a function that already has new values were told when it got them
    have hbefore : s.round.learned.contains ⟨g, 0⟩ = true → errors.contains ⟨g, 0⟩ = false ∧
        ∃ callers', c.graph.callingFunctions c.program g = .ok callers' ∧ ∀ caller ∈ callers',
          caller ∈ (callers.foldl (passOn f) (takeUp errors f prop s)).round.next := by
      intro hlearned
      obtain ⟨hnew, callers', hcallers', htold⟩ := hs.learned g hlearned
      refine ⟨hnew, callers', hcallers', fun caller hcaller => mem_next_foldl_passOn_of_mem ?_⟩
      rw [next_takeUp]
      exact htold caller hcaller
    rcases hg with ⟨heq, hnew⟩ | hlearned
    · obtain rfl : g = f := congrArg ReturnSlot.function heq
      by_cases hlearned : s.round.learned.contains ⟨g, 0⟩ = true
      · exact hbefore hlearned
      · refine ⟨hnew, callers, hcallers, fun caller hcaller => ?_⟩
        refine (mem_next_foldl_passOn hcaller).resolve_right fun hhandled => ?_
        rw [handled_takeUp] at hhandled
        rcases hs.handled caller g hhandled with hknown | hlearned'
        · rw [hnew] at hknown
          cases hknown
        · exact hlearned hlearned'
    · exact hbefore hlearned

/-- What a round does to one of its functions that returns something: it has values in the end, or
nothing new can be learned about it. -/
theorem examine_told {s s' : MissingSearch} (hs : c.Told errors s)
    (h : c.examine errors s f = .ok s') :
    c.Told errors s' ∧
      (∀ function, c.program.function f = .ok function → function.ret.isVoid = false →
        errors.contains ⟨f, 0⟩ = false → s'.round.learned.contains ⟨f, 0⟩ = false →
          c.Settled errors f) ∧
      ∀ k, s.round.learned.contains k = true → s'.round.learned.contains k = true := by
  obtain ⟨function, s₁, hfunction, hround, hhandled, hcases⟩ := examine_cases h
  have hsame : c.Told errors s₁ → c.Told errors s' := fun hs₁ =>
    ⟨fun caller g hpair => hround ▸ hs₁.handled caller g (hhandled ▸ hpair),
      fun g hg => hround ▸ hs₁.learned g (hround ▸ hg)⟩
  rcases hcases with ⟨rfl, hquiet⟩ | ⟨prop, callers, hcallers, rfl⟩
  · refine ⟨hsame hs, fun function' hfunction' hret _ _ => ?_, fun k hk => hround ▸ hk⟩
    obtain rfl := Except.ok.inj (hfunction.symm.trans hfunction')
    refine hquiet.resolve_left fun hvoid => ?_
    rw [hret] at hvoid
    cases hvoid
  · refine ⟨hsame (hs.takeUp_passOn hcallers), fun _ _ _ hnew hlearned => ?_, fun k hk => ?_⟩
    · have hk : s'.round.learned.contains ⟨f, 0⟩ = true := by
        rw [hround, learned_foldl_passOn, contains_learned_takeUp]
        exact Or.inl ⟨rfl, hnew⟩
      rw [hlearned] at hk
      cases hk
    · rw [hround, learned_foldl_passOn, contains_learned_takeUp]
      exact Or.inr hk

/-- **What a round brings about.** -/
theorem runRound_told {pending : List FuncId} {s s' : MissingSearch}
    (hhandled : ∀ caller g, (caller, g) ∈ s.handled → errors.contains ⟨g, 0⟩ = true)
    (h : c.runRound errors pending s = .ok s') :
    c.Told errors s' ∧ ∀ f ∈ pending, c.isAnalysed f = true → ∀ function,
      c.program.function f = .ok function → function.ret.isVoid = false →
        errors.contains ⟨f, 0⟩ = false → s'.round.learned.contains ⟨f, 0⟩ = false →
          c.Settled errors f := by
  have hstart : c.Told errors { s with round := {} } :=
    ⟨fun caller g hpair => Or.inl (hhandled caller g hpair), nofun⟩
  obtain ⟨htold, hall⟩ := Checked.foldlM_forall_mem (P := c.Told errors)
    (Q := fun f s' => ∀ function, c.program.function f = .ok function →
      function.ret.isVoid = false → errors.contains ⟨f, 0⟩ = false →
        s'.round.learned.contains ⟨f, 0⟩ = false → c.Settled errors f)
    (fun s hs f _ s' h => by
      obtain ⟨htold, hsettled, hkeep⟩ := examine_told hs h
      refine ⟨htold, hsettled, fun g hg function hfunction hret hnew hlearned => ?_⟩
      refine hg function hfunction hret hnew (Bool.eq_false_iff.mpr fun hk => ?_)
      rw [hkeep _ hk] at hlearned
      cases hlearned) hstart h
  exact ⟨htold, fun f hf hanalysed => hall f (List.mem_filter.mpr ⟨hf, hanalysed⟩)⟩

/-! ## A run of rounds -/

/-- A round that was run: the functions that were looked at, and what it brought. -/
structure Pass where
  pending : List FuncId
  round : Round

variable (c) in
/-- **The rounds of a search**, from what is known and what is to be looked at, to what is known in
the end. -/
inductive Passes : ErrorTable → List FuncId → MissingSearch → List Pass → ErrorTable →
    MissingSearch → Prop
  | last {errors : ErrorTable} {pending : List FuncId} {s s' : MissingSearch}
      (hrun : c.runRound errors pending s = .ok s')
      (hstop : (s'.round.learned.isEmpty || s'.round.next.isEmpty) = true) :
      Passes errors pending s [⟨pending, s'.round⟩] (Round.apply s'.round errors) s'
  | more {errors errors' : ErrorTable} {pending : List FuncId} {s s' t : MissingSearch}
      {ps : List Pass} (hrun : c.runRound errors pending s = .ok s')
      (hgo : (s'.round.learned.isEmpty || s'.round.next.isEmpty) = false)
      (hrest : Passes (Round.apply s'.round errors) s'.round.next.toList s' ps errors' t) :
      Passes errors pending s (⟨pending, s'.round⟩ :: ps) errors' t

/-- A run of rounds is a sequence of passes. -/
theorem exists_passes {rounds : Nat} {pending : List FuncId} {s t : MissingSearch}
    (h : c.runRounds rounds errors pending s = .ok (errors', t)) :
    ∃ ps, c.Passes errors pending s ps errors' t := by
  induction rounds generalizing errors pending s with
  | zero => cases h
  | succ rounds ih =>
    obtain ⟨s', hrun, h⟩ := bind_eq_ok_iff.mp h
    dsimp only at h
    split at h
    · rename_i hstop
      obtain ⟨rfl, rfl⟩ := Prod.mk.inj (Except.ok.inj h)
      exact ⟨_, .last hrun hstop⟩
    · rename_i hgo
      obtain ⟨ps, hps⟩ := ih h
      exact ⟨_, .more hrun (Bool.eq_false_iff.mpr hgo) hps⟩

theorem get?_apply_of_unchanged {r : Round} {k : ReturnSlot}
    (hreplaced : r.replaced.contains k = false) (hlearned : r.learned.contains k = false) :
    (Round.apply r errors).get? k = errors.get? k := by
  rw [Round.apply, ErrorTable.get?_mergeUnion_of_not_contains hlearned]
  refine Table.get?_foldl_update_of_ne (fun e he heq => ?_) errors fun s _ => s
  rw [Table.contains_iff.mpr ⟨e, he, heq⟩] at hreplaced
  cases hreplaced

theorem contains_apply_of_contains {r : Round} {k : ReturnSlot} (h : errors.contains k = true) :
    (Round.apply r errors).contains k = true :=
  ErrorTable.contains_mergeUnion_iff.mpr (Or.inl
    ((Table.contains_foldl_update_iff errors r.replaced.entries fun s _ => s).mpr (Or.inl h)))

theorem contains_apply_of_learned {r : Round} {k : ReturnSlot} (h : r.learned.contains k = true) :
    (Round.apply r errors).contains k = true :=
  ErrorTable.contains_mergeUnion_iff.mpr (Or.inr h)

theorem Passes.contains_of_contains {pending : List FuncId} {s t : MissingSearch} {ps : List Pass}
    (h : c.Passes errors pending s ps errors' t) {k : ReturnSlot} (hk : errors.contains k = true) :
    errors'.contains k = true := by
  induction h with
  | last _ _ => exact contains_apply_of_contains hk
  | more _ _ _ ih => exact ih (contains_apply_of_contains hk)

theorem Passes.exists_pending {pending : List FuncId} {s t : MissingSearch} {ps : List Pass}
    (h : c.Passes errors pending s ps errors' t) : ∃ p ∈ ps, p.pending = pending := by
  cases h with
  | last _ _ => exact ⟨_, List.mem_cons_self, rfl⟩
  | more _ _ _ => exact ⟨_, List.mem_cons_self, rfl⟩

/-! ## Functions that are overtaken -/

variable (c) in
/-- A round that changes what a function depends on without telling it: it replaces the values of a
function that a call it depends on may reach, or the call is not its own and the values are
new. -/
def Disturbs (r : Round) (f : FuncId) : Prop :=
  ∃ call g, c.Consults f call ∧ g ∈ c.graph.calleeList call ∧
    (r.replaced.contains ⟨g, 0⟩ = true ∨
      r.learned.contains ⟨g, 0⟩ = true ∧ c.program.functionOf call ≠ .ok f)

variable (c) in
/-- **A function is overtaken** if what it depends on changes in a round that does not tell it, and
it is not looked at again. -/
def Overtaken (ps : List Pass) (f : FuncId) : Prop :=
  ∃ before pass after, ps = before ++ pass :: after ∧ c.Disturbs pass.round f ∧
    ∀ p ∈ after, f ∉ p.pending

theorem Overtaken.cons {ps : List Pass} (h : c.Overtaken ps f) (p : Pass) :
    c.Overtaken (p :: ps) f := by
  obtain ⟨before, pass, after, rfl, hpass⟩ := h
  exact ⟨p :: before, pass, after, rfl, hpass⟩

/-- After a round, nothing new can be learned about a function, or it is told to look again, or what
it depends on has changed without that. -/
theorem settled_or_told_or_disturbed (hgraph : c.graph.Linked) {s : MissingSearch}
    (htold : c.Told errors s) (hsettled : c.Settled errors f) :
    c.Settled (Round.apply s.round errors) f ∨
      s.round.learned.isEmpty = false ∧ f ∈ s.round.next ∨ c.Disturbs s.round f := by
  by_cases hagree : c.AgreeFor f errors (Round.apply s.round errors)
  · exact Or.inl (hsettled.congr hagree)
  · refine Or.inr ?_
    obtain ⟨call, hcall, g, hg, hchanged⟩ : ∃ call, c.Consults f call ∧
        ∃ g ∈ c.graph.calleeList call,
          errors.get? ⟨g, 0⟩ ≠ (Round.apply s.round errors).get? ⟨g, 0⟩ := by
      simpa [AgreeFor] using hagree
    by_cases hreplaced : s.round.replaced.contains ⟨g, 0⟩ = true
    · exact Or.inr ⟨call, g, hcall, hg, Or.inl hreplaced⟩
    · have hlearned : s.round.learned.contains ⟨g, 0⟩ = true := by
        by_contra hlearned
        exact hchanged (get?_apply_of_unchanged (Bool.eq_false_iff.mpr hreplaced)
          (Bool.eq_false_iff.mpr hlearned)).symm
      by_cases hown : c.program.functionOf call = .ok f
      · obtain ⟨-, callers, hcallers, hnext⟩ := htold.learned g hlearned
        refine Or.inl ⟨?_, hnext f (hgraph.mem_callingFunctions hown hg hcallers)⟩
        obtain ⟨e, he, -⟩ := Table.contains_iff.mp hlearned
        exact List.isEmpty_eq_false_iff_exists_mem.mpr ⟨e, he⟩
      · exact Or.inr ⟨call, g, hcall, hg, Or.inr ⟨hlearned, hown⟩⟩

theorem Told.contains_apply {s : MissingSearch} (h : c.Told errors s) (caller g : FuncId)
    (hpair : (caller, g) ∈ s.handled) : (Round.apply s.round errors).contains ⟨g, 0⟩ = true :=
  (h.handled caller g hpair).elim contains_apply_of_contains contains_apply_of_learned

/-- A function that a round looks at, and that has no values afterwards, was settled before it. -/
theorem settled_of_runRound {pending : List FuncId} {s s' : MissingSearch}
    (hhandled : ∀ caller g, (caller, g) ∈ s.handled → errors.contains ⟨g, 0⟩ = true)
    (hrun : c.runRound errors pending s = .ok s') (hanalysed : c.isAnalysed f = true)
    {function : Function} (hfunction : c.program.function f = .ok function)
    (hret : function.ret.isVoid = false)
    (hnone : (Round.apply s'.round errors).contains ⟨f, 0⟩ = false) (hf : f ∈ pending) :
    c.Settled errors f := by
  refine (runRound_told hhandled hrun).2 f hf hanalysed function hfunction hret ?_ ?_
  · exact Bool.eq_false_iff.mpr fun hk => by simp [contains_apply_of_contains hk] at hnone
  · exact Bool.eq_false_iff.mpr fun hk => by simp [contains_apply_of_learned hk] at hnone

/-- **A run leaves a function settled or overtaken**, if it looks at the function at all or starts
with the function settled. -/
theorem Passes.settled_or_overtaken (hgraph : c.graph.Linked) {pending : List FuncId}
    {s t : MissingSearch} {ps : List Pass} (h : c.Passes errors pending s ps errors' t)
    (hhandled : ∀ caller g, (caller, g) ∈ s.handled → errors.contains ⟨g, 0⟩ = true)
    (hanalysed : c.isAnalysed f = true) {function : Function}
    (hfunction : c.program.function f = .ok function) (hret : function.ret.isVoid = false)
    (hnone : errors'.contains ⟨f, 0⟩ = false)
    (hstart : (∃ p ∈ ps, f ∈ p.pending) ∨ c.Settled errors f) :
    c.Settled errors' f ∨ c.Overtaken ps f := by
  -- each round starts with `f` settled or still to come; what a round learns either leaves it
  -- settled, puts it into the next round, or overtakes it
  induction h with
  | @last errors pending s s' hrun hstop =>
    have htold := (runRound_told hhandled hrun).1
    have hsettled : c.Settled errors f := by
      refine hstart.elim (fun ⟨p, hp, hf⟩ => ?_) id
      obtain rfl := List.mem_singleton.mp hp
      exact settled_of_runRound hhandled hrun hanalysed hfunction hret hnone hf
    rcases settled_or_told_or_disturbed hgraph htold hsettled with hdone | ⟨hlearned, hnext⟩ | hd
    · exact Or.inl hdone
    · have hsome := List.isEmpty_eq_false_iff_exists_mem.mpr ⟨f, hnext⟩
      simp [SortedSet.isEmpty, hlearned, hsome] at hstop
    · exact Or.inr ⟨[], _, [], rfl, hd, nofun⟩
  | @more errors errors' pending s s' t ps hrun hgo hrest ih =>
    have htold := (runRound_told hhandled hrun).1
    by_cases hlater : ∃ p ∈ ps, f ∈ p.pending
    · exact (ih htold.contains_apply hnone (Or.inl hlater)).imp_right fun h => h.cons _
    · have hnone' : (Round.apply s'.round errors).contains ⟨f, 0⟩ = false :=
        Bool.eq_false_iff.mpr fun hk => by simp [hrest.contains_of_contains hk] at hnone
      have hsettled : c.Settled errors f := by
        refine hstart.elim (fun ⟨p, hp, hf⟩ => ?_) id
        rcases List.mem_cons.mp hp with rfl | hp
        · exact settled_of_runRound hhandled hrun hanalysed hfunction hret hnone' hf
        · exact absurd ⟨p, hp, hf⟩ hlater
      rcases settled_or_told_or_disturbed hgraph htold hsettled with hdone | ⟨-, hnext⟩ | hd
      · exact (ih htold.contains_apply hnone (Or.inr hdone)).imp_right fun h => h.cons _
      · obtain ⟨p, hp, hpending⟩ := hrest.exists_pending
        exact absurd ⟨p, hp, hpending ▸ hnext⟩ hlater
      · exact Or.inr ⟨[], _, ps, rfl, hd, fun p hp hf => hlater ⟨p, hp, hf⟩⟩

/-- **When missing checks reach a fixed point.** The search ends with everything learned that can be
learned about a function from what it returns, unless the function was overtaken: in some round
the values of a function that it depends on were replaced (or they were new and the call is not
its own), and it was not looked at again. If no round replaces values, and a function depends on
its own calls only, nothing more can be learned about it. -/
theorem missing_settled_or_overtaken (hgraph : c.graph.Linked) {k k' : Knowledge}
    {state : MissingState} (h : c.findMissing k = .ok (k', state)) :
    ∃ ps s, c.Passes k.errors c.analysed { confidence := k.confidence } ps k'.errors s ∧
      ∀ f function, c.isAnalysed f = true → c.program.function f = .ok function →
        function.ret.isVoid = false → k'.errors.contains ⟨f, 0⟩ = false →
          (c.Settled k'.errors f ∨ c.Overtaken ps f) ∧
          ((∀ p ∈ ps, p.round.replaced.isEmpty = true) →
            (∀ call, c.Consults f call → c.program.functionOf call = .ok f) →
              c.Settled k'.errors f) := by
  obtain ⟨⟨errors, s⟩, hrun, h⟩ := bind_eq_ok_iff.mp h
  obtain ⟨rfl, -⟩ := Prod.mk.inj (Except.ok.inj h)
  obtain ⟨ps, hps⟩ := exists_passes hrun
  refine ⟨ps, s, hps, fun f function hanalysed hfunction hret hnone => ?_⟩
  have hstart : ∃ p ∈ ps, f ∈ p.pending := by
    obtain ⟨p, hp, hpending⟩ := hps.exists_pending
    exact ⟨p, hp, hpending ▸ Table.mem_keys_iff.mpr hanalysed⟩
  have hdone := hps.settled_or_overtaken hgraph nofun hanalysed hfunction hret hnone (Or.inl hstart)
  refine ⟨hdone, fun hreplaced hown => hdone.resolve_right ?_⟩
  rintro ⟨before, pass, after, rfl, ⟨call, g, hcall, -, hchanged⟩, -⟩
  rcases hchanged with hchanged | ⟨-, hforeign⟩
  · obtain ⟨e, he, -⟩ := Table.contains_iff.mp hchanged
    have hempty := hreplaced pass (by simp)
    rw [Table.isEmpty, List.isEmpty_iff] at hempty
    rw [hempty] at he
    cases he
  · exact hforeign (hown call hcall)

/-- `wrapper` returns what `middle` returns, which returns what `source` returns. -/
def wrappedSource : List Directive :=
  [.module "m", .declare ⟨0⟩ "source" [] (.int 32),
    .declare ⟨0⟩ "middle" [] (.int 32), .declare ⟨0⟩ "wrapper" [] (.int 32),
    .define ⟨1⟩ [.block, .moveTo ⟨0⟩, .call ⟨0⟩ [], .ret (some (.inst ⟨0⟩))],
    .define ⟨2⟩ [.block, .moveTo ⟨1⟩, .call ⟨1⟩ [], .ret (some (.inst ⟨2⟩))]]

/-- `source` surely returns `-1` on errors; for `middle` every value is taken for an error, with
less confidence. -/
def doubtfulMiddle : Knowledge where
  errors := .ofList [(⟨⟨0⟩, 0⟩, .singleton (-1)), (⟨⟨1⟩, 0⟩, .full)]
  confidence := .ofList [(⟨⟨0⟩, 0⟩, 1), (⟨⟨1⟩, 0⟩, 0.5)]

/-- The one round replaces the values of `middle`. It learns nothing, so it is the last one. -/
theorem wrappedSource_run : ∃ c k state function,
    ofDirectives wrappedSource = .ok c ∧ c.findMissing doubtfulMiddle = .ok (k, state) ∧
      c.isAnalysed ⟨2⟩ = true ∧ c.program.function ⟨2⟩ = .ok function ∧
      function.ret.isVoid = false ∧ k.errors.contains ⟨⟨2⟩, 0⟩ = false ∧
      ∃ candidates prop returned, c.failingCalls k.errors ⟨2⟩ = .ok candidates ∧
        c.proposal k.errors candidates = .ok (prop, returned) ∧ prop.values = .singleton (-1) := by
  obtain ⟨c, hc, k, state, hk, function, hfunction, candidates, hcandidates, prop, returned, hprop,
      hanalysed, hret, hnone, hvalues⟩ :
      ∃ c, ofDirectives wrappedSource = .ok c ∧
      ∃ k state, c.findMissing doubtfulMiddle = .ok (k, state) ∧
      ∃ function, c.program.function ⟨2⟩ = .ok function ∧
      ∃ candidates, c.failingCalls k.errors ⟨2⟩ = .ok candidates ∧
      ∃ prop returned, c.proposal k.errors candidates = .ok (prop, returned) ∧
      c.isAnalysed ⟨2⟩ = true ∧ function.ret.isVoid = false ∧ k.errors.contains ⟨⟨2⟩, 0⟩ = false ∧
      prop.values = .singleton (-1) := by decide +kernel
  exact ⟨c, k, state, function, hc, hk, hanalysed, hfunction, hret, hnone,
    candidates, prop, returned, hcandidates, hprop, hvalues⟩

/-- A function is not settled if something is proposed for it. -/
theorem not_settled_of_proposal {candidates : SortedSet InstId} {prop : Proposal}
    {returned : List InstId} (hcandidates : c.failingCalls errors f = .ok candidates)
    (hprop : c.proposal errors candidates = .ok (prop, returned))
    (hvalues : (prop.values.isEmpty || prop.values.isFull) = false) : ¬ c.Settled errors f := by
  rintro ⟨candidates', prop', returned', hcandidates', hprop', hvalues'⟩
  obtain rfl := Except.ok.inj (hcandidates.symm.trans hcandidates')
  obtain ⟨rfl, -⟩ := Prod.mk.inj (Except.ok.inj (hprop.symm.trans hprop'))
  rw [hvalues] at hvalues'
  cases hvalues'

/-- In the end `wrapper` has no values, although `-1` is proposed for it. -/
theorem wrappedSource_not_settled : ∃ c k state function,
    ofDirectives wrappedSource = .ok c ∧ c.findMissing doubtfulMiddle = .ok (k, state) ∧
      c.isAnalysed ⟨2⟩ = true ∧ c.program.function ⟨2⟩ = .ok function ∧
      function.ret.isVoid = false ∧ k.errors.contains ⟨⟨2⟩, 0⟩ = false ∧
      ¬ c.Settled k.errors ⟨2⟩ := by
  obtain ⟨c, k, state, function, hc, hk, hanalysed, hfunction, hret, hnone,
    candidates, prop, returned, hcandidates, hprop, hvalues⟩ := wrappedSource_run
  refine ⟨c, k, state, function, hc, hk, hanalysed, hfunction, hret, hnone, ?_⟩
  exact not_settled_of_proposal hcandidates hprop (hvalues ▸ by decide)

/-- It was overtaken when the values of `middle` were replaced. -/
theorem wrappedSource_overtaken : ∃ c k state ps s,
    ofDirectives wrappedSource = .ok c ∧ c.graph.Linked ∧
      c.findMissing doubtfulMiddle = .ok (k, state) ∧
      c.Passes doubtfulMiddle.errors c.analysed { confidence := doubtfulMiddle.confidence } ps
        k.errors s ∧ c.Overtaken ps ⟨2⟩ := by
  obtain ⟨c, k, state, function, hc, hk, hanalysed, hfunction, hret, hnone,
    candidates, prop, returned, hcandidates, hprop, hvalues⟩ := wrappedSource_run
  have hgraph := linked_of_ofDirectives hc
  obtain ⟨ps, s, hps, hall⟩ := missing_settled_or_overtaken hgraph hk
  obtain ⟨hdone, -⟩ := hall ⟨2⟩ function hanalysed hfunction hret hnone
  refine ⟨c, k, state, ps, s, hc, hgraph, hk, hps, hdone.resolve_left ?_⟩
  exact not_settled_of_proposal hcandidates hprop (hvalues ▸ by decide)

end Context

end ErrorReturns
