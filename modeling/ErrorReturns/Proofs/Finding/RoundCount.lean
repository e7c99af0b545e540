import ErrorReturns.Proofs.Finding.Rounds
import ErrorReturns.Proofs.Meets
import Mathlib.Data.Set.Card

/-!
# The number of rounds

Error values may be replaced back and forth between rounds, so that what is known is no measure of
how far the search for missing checks has come. What does grow are the pairs of a caller and a
function that have been passed on. They are pairs of the call graph, none of them is passed on
twice, and a round that leaves something to look at has passed on a new one
(`MissingSearch.Paired`). There is therefore at most one more round than there are such pairs
(`Context.Passes.length_le`), whether functions call themselves or not.

A pair comes from at least one edge of the call graph, so that the search has rounds enough: it ends
for no other reason than that looking at some function does not (`Context.meets_runRounds`).
-/

namespace ErrorReturns

open Checked

/-! ## Pairs of a caller and a function -/

namespace CallGraph

variable {g : CallGraph} {p : Program} {caller f : FuncId}

variable (g p) in
/-- **The pairs of a caller and a function that it calls**, however many calls there are. -/
def pairs : Set (FuncId × FuncId) :=
  {pair | ∃ call ∈ g.callers pair.2, p.functionOf call = .ok pair.1}

theorem mem_pairs_of_callingFunctions {callers : List FuncId}
    (h : g.callingFunctions p f = .ok callers) (hcaller : caller ∈ callers) :
    (caller, f) ∈ g.pairs p :=
  exists_of_mem_mapM h hcaller

variable (g p) in
/-- A list of the pairs, with one entry for each call. -/
def pairList : List (FuncId × FuncId) :=
  g.sources.entries.flatMap fun e => e.2.toList.filterMap fun call =>
    (p.functionOf call).toOption.map (·, e.1)

/-- The pairs of callers and callees are listed. -/
theorem pairs_subset : g.pairs p ⊆ {pair | pair ∈ g.pairList p} := by
  rintro ⟨caller, f⟩ ⟨call, hcall, hfunction⟩
  dsimp only at hcall hfunction
  unfold CallGraph.callers at hcall
  cases hcalls : g.sources.get? f with
  | none =>
    rw [hcalls] at hcall
    exact absurd hcall List.not_mem_nil
  | some calls =>
    rw [hcalls] at hcall
    refine List.mem_flatMap.mpr ⟨(f, calls), Table.get?_eq_some_iff.mp hcalls, ?_⟩
    exact List.mem_filterMap.mpr ⟨call, hcall, by rw [hfunction]; rfl⟩

theorem finite_pairs (g : CallGraph) (p : Program) : (g.pairs p).Finite :=
  (List.finite_toSet (g.pairList p)).subset pairs_subset

/-- There are no more pairs than edges of the call graph. -/
theorem length_pairList_le (g : CallGraph) (p : Program) :
    (g.pairList p).length ≤ g.edgeCount := by
  unfold pairList edgeCount Table.values
  rw [List.foldr_map]
  induction g.sources.entries with
  | nil => exact Nat.le_refl 0
  | cons e rest ih =>
    rw [List.flatMap_cons, List.length_append, List.foldr_cons]
    exact Nat.add_le_add (List.length_filterMap_le _ _) ih

/-- There are no more pairs than edges. -/
theorem ncard_pairs_le (g : CallGraph) (p : Program) : (g.pairs p).ncard ≤ g.edgeCount := by
  have hsubset : g.pairs p ⊆ (g.pairList p).toFinset := fun pair hpair =>
    Finset.mem_coe.mpr (List.mem_toFinset.mpr (pairs_subset hpair))
  calc (g.pairs p).ncard
      ≤ (g.pairList p).toFinset.card :=
        (Set.ncard_le_ncard hsubset (Finset.finite_toSet _)).trans_eq (Set.ncard_coe_finset _)
    _ ≤ (g.pairList p).length := List.toFinset_card_le _
    _ ≤ g.edgeCount := length_pairList_le g p

end CallGraph

/-! ## Pairs that have been passed on -/

namespace MissingSearch

/-- **The pairs passed on by a search**, in the round before which there were `start` of them. Only
pairs of the call graph are passed on, none of them twice, and there is something to look at next
only if a pair is new. -/
structure Paired (c : Context) (start : Nat) (s : MissingSearch) : Prop where
  nodup : s.handled.Nodup
  called : ∀ pair ∈ s.handled, pair ∈ c.graph.pairs c.program
  grown : start ≤ s.handled.length
  fresh : s.round.next.isEmpty = false → start < s.handled.length

variable {c : Context} {start : Nat} {s s' : MissingSearch} {errors : ErrorTable}

theorem paired_start (confidence : Table ReturnSlot Float) :
    Paired c 0 ⟨confidence, {}, [], {}⟩ where
  nodup := List.nodup_nil
  called _ hpair := absurd hpair List.not_mem_nil
  grown := Nat.le_refl 0
  fresh hnext := nomatch hnext

namespace Paired

/-- No more pairs are passed on than there are. -/
theorem length_handled_le (h : Paired c start s) :
    s.handled.length ≤ (c.graph.pairs c.program).ncard := by
  have hsubset : (s.handled.toFinset : Set (FuncId × FuncId)) ⊆ c.graph.pairs c.program :=
    fun pair hpair => h.called pair (List.mem_toFinset.mp hpair)
  rw [← List.toFinset_card_of_nodup h.nodup, ← Set.ncard_coe_finset]
  exact Set.ncard_le_ncard hsubset (c.graph.finite_pairs c.program)

theorem congr (h : Paired c start s) (hhandled : s'.handled = s.handled)
    (hnext : s'.round.next = s.round.next) : Paired c start s' where
  nodup := hhandled ▸ h.nodup
  called := hhandled ▸ h.called
  grown := hhandled ▸ h.grown
  fresh hs := hhandled ▸ h.fresh (hnext ▸ hs)

/-- The next round starts from the pairs passed on so far. -/
theorem nextRound (h : Paired c start s) : Paired c s.handled.length { s with round := {} } where
  nodup := h.nodup
  called := h.called
  grown := Nat.le_refl _
  fresh hnext := nomatch hnext

/-- Passing a function on to a caller marks a pair that is one of the call graph. -/
theorem passOn (h : Paired c start s) {f caller : FuncId}
    (hpair : (caller, f) ∈ c.graph.pairs c.program) :
    Paired c start (Context.passOn f s caller) := by
  unfold Context.passOn
  split
  · exact h
  case isFalse hnew =>
    -- the list of pairs grows as soon as there is something to look at next
    have hgrown : start < s.handled.length + 1 := Nat.lt_succ_of_le h.grown
    exact
      { nodup := h.nodup.cons hnew
        called := List.forall_mem_cons.mpr ⟨hpair, h.called⟩
        grown := Nat.le_of_lt hgrown
        fresh := fun _ => hgrown }

/-- **Looking at one function**: whatever is proposed for it, replaced or counted, pairs are noted
only as the function is passed on to its callers. -/
theorem examine (h : Paired c start s) {f : FuncId} (hrun : c.examine errors s f = .ok s') :
    Paired c start s' := by
  obtain ⟨_, s₁, -, hround, hhandled, hcases⟩ := Context.examine_cases hrun
  refine congr ?_ hhandled (congrArg Round.next hround)
  rcases hcases with ⟨rfl, -⟩ | ⟨prop, callers, hcallers, rfl⟩
  · exact h
  · have htaken : Paired c start (Context.takeUp errors f prop s) :=
      h.congr (Context.handled_takeUp prop s) (Context.next_takeUp prop s)
    refine List.foldlRecOn (motive := Paired c start) _ _ htaken fun s hs caller hcaller => ?_
    exact hs.passOn (CallGraph.mem_pairs_of_callingFunctions hcallers hcaller)

/-- **One round.** -/
theorem runRound (h : Paired c start s) {pending : List FuncId}
    (hrun : c.runRound errors pending s = .ok s') : Paired c s.handled.length s' :=
  foldlM_induction (P := Paired c s.handled.length) (fun _ hs _ _ _ hrun => hs.examine hrun)
    h.nextRound hrun

/-- A round that is followed by another one has passed on a new pair. -/
theorem length_lt_of_runRound (h : Paired c start s) {pending : List FuncId}
    (hrun : c.runRound errors pending s = .ok s')
    (hgo : (s'.round.learned.isEmpty || s'.round.next.isEmpty) = false) :
    s.handled.length < s'.handled.length :=
  (h.runRound hrun).fresh (Bool.or_eq_false_iff.mp hgo).2

end Paired

end MissingSearch

/-! ## Rounds -/

namespace Context

variable {c : Context} {errors errors' : ErrorTable} {pending : List FuncId} {s t : MissingSearch}
  {ps : List Pass} {start : Nat}

/-- **The rounds of a search** are at most one more than the pairs that are left to pass on. -/
theorem Passes.length_le (h : c.Passes errors pending s ps errors' t) (hs : s.Paired c start) :
    ps.length + s.handled.length ≤ (c.graph.pairs c.program).ncard + 1 := by
  induction h generalizing start with
  | last hrun hstop =>
    have hle := hs.length_handled_le
    rw [List.length_singleton]
    omega
  | more hrun hgo hrest ih =>
    have hle := ih (hs.runRound hrun)
    have hlt := hs.length_lt_of_runRound hrun hgo
    rw [List.length_cons]
    omega

/-- The rounds of a search are those that it needs. -/
theorem Passes.runRounds_eq_ok_iff (h : c.Passes errors pending s ps errors' t) (n : Nat) :
    c.runRounds n errors pending s = .ok (errors', t) ↔ ps.length ≤ n := by
  induction h generalizing n with
  | last hrun hstop =>
    cases n with
    | zero => simp [runRounds]
    | succ n =>
      rw [runRounds, hrun, ok_bind, if_pos hstop]
      simp [pure_eq_ok]
  | more hrun hgo hrest ih =>
    cases n with
    | zero => simp [runRounds]
    | succ n =>
      rw [runRounds, hrun, ok_bind, if_neg (Bool.eq_false_iff.mp hgo), ih, List.length_cons,
        Nat.succ_le_succ_iff]

/-- **The rounds end** before their number is used up, for a round that is not the last has passed
on a new pair. What rounds keep holds in the end, and rounds meet only the faults of a round. -/
theorem meets_runRounds {F : Fault → Prop} {I : ErrorTable → MissingSearch → Prop}
    (hround : ∀ errors pending s, I errors s →
      Meets F (fun s' => I (Round.apply s'.round errors) s') (c.runRound errors pending s))
    {rounds : Nat} (h : I errors s) (hs : s.Paired c start)
    (hrounds : (c.graph.pairs c.program).ncard < rounds + s.handled.length) :
    Meets F (fun out => I out.1 out.2) (c.runRounds rounds errors pending s) := by
  induction rounds generalizing errors pending start s with
  | zero =>
    -- all pairs have been passed on, and one more
    have hle := hs.length_handled_le
    omega
  | succ rounds ih =>
    refine (hround errors pending s h).and_eq.bind fun s' hs' => ?_
    obtain ⟨hs', hrun⟩ := hs'
    dsimp only
    split
    · exact meets_pure hs'
    case isFalse hgo =>
      -- the pair that is new makes up for the round that is used up
      have hlt := hs.length_lt_of_runRound hrun (Bool.eq_false_iff.mpr hgo)
      exact ih hs' (hs.runRound hrun) (by omega)

variable (c) in
/-- Looking at some function meets a fault. -/
def Stuck (e : Fault) : Prop :=
  ∃ errors s f, c.isAnalysed f = true ∧ c.examine errors s f = .error e

theorem meets_stuck_runRound (errors : ErrorTable) (pending : List FuncId) (s : MissingSearch) :
    Meets c.Stuck (fun _ => True) (c.runRound errors pending s) := by
  refine meets_foldlM (I := fun _ => True) (fun s _ f hf => ?_) trivial
  cases hrun : c.examine errors s f with
  | ok s' => exact meets_ok trivial
  | error e => exact ⟨errors, s, f, (List.mem_filter.mp hf).2, hrun⟩

/-- **The search for missing checks ends**, from whatever is known. It goes through at most one more
round than there are pairs of a caller and a function in the call graph, unless looking at some
function meets a fault, which is then the fault of the search. -/
theorem findMissing_ends (c : Context) (k : Knowledge) :
    (∃ ps errors s, c.Passes k.errors c.analysed ⟨k.confidence, {}, [], {}⟩ ps errors s ∧
      (∀ n, c.runRounds n k.errors c.analysed ⟨k.confidence, {}, [], {}⟩ = .ok (errors, s) ↔
        ps.length ≤ n) ∧
      ps.length ≤ (c.graph.pairs c.program).ncard + 1 ∧
      c.findMissing k = .ok (⟨errors, s.confidence⟩, s.state)) ∨
    ∃ errors s f e, c.isAnalysed f = true ∧ c.examine errors s f = .error e ∧
      c.findMissing k = .error e := by
  have hstart := MissingSearch.paired_start (c := c) k.confidence
  have henough : (c.graph.pairs c.program).ncard < c.graph.edgeCount + 1 + 0 :=
    Nat.lt_succ_of_le (c.graph.ncard_pairs_le c.program)
  have hruns : Meets c.Stuck (fun _ => True) (c.runRounds (c.graph.edgeCount + 1) k.errors
      c.analysed ⟨k.confidence, {}, [], {}⟩) :=
    meets_runRounds (I := fun _ _ => True) (fun errors pending s _ =>
      meets_stuck_runRound errors pending s) trivial hstart henough
  rcases hruns.ok_or_error with ⟨⟨errors, s⟩, hrun, -⟩ | ⟨e, hrun, errors, s, f, hf, hstuck⟩
  · left
    obtain ⟨ps, hps⟩ := exists_passes hrun
    exact ⟨ps, errors, s, hps, hps.runRounds_eq_ok_iff, hps.length_le hstart,
      bind_eq_ok_iff.mpr ⟨_, hrun, rfl⟩⟩
  · right
    refine ⟨errors, s, f, e, hf, hstuck, ?_⟩
    rw [findMissing, hrun]
    rfl

/-- `first` and `second` call each other. `first` returns what `source` returns, and `second` what
`first` returns. -/
def mutualCalls : List Directive :=
  [.module "m", .declare ⟨0⟩ "source" [] (.int 32), .declare ⟨0⟩ "first" [] (.int 32),
    .declare ⟨0⟩ "second" [] (.int 32),
    .define ⟨1⟩ [.block, .moveTo ⟨0⟩, .call ⟨2⟩ [], .call ⟨0⟩ [], .ret (some (.inst ⟨1⟩))],
    .define ⟨2⟩ [.block, .moveTo ⟨1⟩, .call ⟨1⟩ [], .ret (some (.inst ⟨3⟩))]]

/-- Two rounds are not enough, but three are: `first` learns from `source`, then `second` from
`first`, and then the values of `first` are replaced. -/
example : (do
    let c ← ofDirectives mutualCalls
    let errors : ErrorTable := .ofList [(⟨⟨0⟩, 0⟩, .singleton (-1))]
    let start : MissingSearch := ⟨.ofList [(⟨⟨0⟩, 0⟩, 1), (⟨⟨1⟩, 0⟩, 0.5)], {}, [], {}⟩
    let found ← c.runRounds 3 errors c.analysed start
    return ((c.runRounds 2 errors c.analysed start).fault?, found.1.keys,
      found.2.round.replaced.keys)) =
    (.ok (some .tooDeep, [⟨⟨0⟩, 0⟩, ⟨⟨1⟩, 0⟩, ⟨⟨2⟩, 0⟩], [⟨⟨1⟩, 0⟩]) :
      Checked (Option Fault × List ReturnSlot × List ReturnSlot)) := by
  decide +kernel

end Context

end ErrorReturns
