import ErrorReturns.Learning
import ErrorReturns.Proofs.Knowledge
import ErrorReturns.Proofs.Learning.Visits
import ErrorReturns.Proofs.ReturnRange.Walk

/-!
# Learning keeps its tables in order

Whatever the program, the call graph, the oracle and the settings are: if learning has a result,
then every set in its tables is made from words by the operations on sets, and how sure something is
has been noted for slots with an entry only (`Knowledge.Grounded`). Values get into the tables by
observations, by counts that are stored, by wrappers and by the two propagations, and how sure they
are is noted when counts are stored. Each of these keeps both.

Nothing is said about faults here, and nothing is asked of what the tables are about. For contexts
that are sound both are added later; what is said about the sets themselves is taken from here
(`Checked.Meets.ensuring`).
-/

namespace ErrorReturns

open Checked
open RangeSet (Reachable)

/-! ## Tables -/

/-- Observations of sets that can be made, whatever they are about. -/
abbrev Histograms.Made (hs : Histograms) : Prop := Table.All (fun _ => True) Histogram.Made hs

/-- Error values that can be made, whatever they are about. -/
abbrev ErrorTable.Made (t : ErrorTable) : Prop := Table.All (fun _ => True) Reachable t

theorem ErrorTable.Within.made {p : Program} {t : ErrorTable} (h : t.Within p) : t.Made :=
  fun e he => ⟨trivial, (h e he).2⟩

namespace Knowledge

/-- How sure something is has been noted for slots with an entry only. -/
def Backed (k : Knowledge) : Prop :=
  ∀ slot, k.confidence.contains slot = true → k.errors.contains slot = true

/-- **Knowledge in order.** -/
structure Grounded (k : Knowledge) : Prop where
  errors : k.errors.Made
  backed : k.Backed

theorem grounded_empty : Grounded {} := ⟨Table.all_empty, nofun⟩

variable {k : Knowledge}

theorem Backed.update (hk : k.Backed) (slot : ReturnSlot) (f : Option RangeSet → RangeSet) :
    Backed { k with errors := k.errors.update slot f } :=
  fun slot' h => Table.contains_update_iff.mpr (Or.inr (hk slot' h))

/-- What becomes known later does not take anything away. -/
theorem Backed.of_errors (hk : k.Backed) {errors : ErrorTable}
    (h : ∀ slot, k.errors.contains slot = true → errors.contains slot = true) :
    Backed { k with errors } :=
  fun slot hslot => h slot (hk slot hslot)

theorem Backed.note (hk : k.Backed) {slot : ReturnSlot} (hslot : k.errors.contains slot = true)
    (x : Float) : Backed { k with confidence := k.confidence.insert slot x } := by
  intro slot' h
  rcases Table.contains_update_iff.mp h with rfl | h
  · exact hslot
  · exact hk slot' h

theorem Backed.narrowErrors (hk : k.Backed) (slot : ReturnSlot) (s : RangeSet) :
    (k.narrowErrors slot s).Backed :=
  hk.update slot _

theorem contains_foldl_narrowErrors {slot : ReturnSlot} {sets : List (RangeSet × Float)}
    (h : sets ≠ [] ∨ k.errors.contains slot = true) :
    (sets.foldl (fun k e => k.narrowErrors slot e.1) k).errors.contains slot = true := by
  induction sets generalizing k with
  | nil => exact h.resolve_left (· rfl)
  | cons e rest ih => exact ih (Or.inr (Table.contains_update_self k.errors slot _))

/-- Counts are stored with an entry for their slot, and then it is noted how sure the entry is. -/
theorem Backed.storeCounts (hk : k.Backed) (threshold : Float) (slot : ReturnSlot)
    (counts : Counts) : (k.storeCounts threshold slot counts).Backed := by
  unfold Knowledge.storeCounts
  dsimp only
  split
  · exact hk
  · refine Backed.note ?_ ?_ _
    · split
      · exact hk.update slot _
      · exact List.foldlRecOn (motive := Backed) _ _ hk fun _ hk e _ => hk.narrowErrors slot e.1
    · split
      · exact Table.contains_update_self k.errors slot _
      case isFalse hpassed =>
        exact contains_foldl_narrowErrors (Or.inl (List.isEmpty_eq_false_iff.mp
          (Bool.eq_false_iff.mpr hpassed)))

theorem Grounded.storeCounts (hk : k.Grounded) (threshold : Float) (slot : ReturnSlot)
    {counts : Counts} (hcounts : counts.Made) : (k.storeCounts threshold slot counts).Grounded :=
  ⟨all_storeCounts hk.errors threshold trivial hcounts, hk.backed.storeCounts threshold slot counts⟩

end Knowledge

namespace Context

variable {c : Context}

/-- A stage that goes through the functions under analysis keeps what it keeps at each. -/
theorem ensures_foldAnalysed {σ : Type} {I : σ → Prop} {step : σ → FuncId → Checked σ}
    (hstep : ∀ s, I s → ∀ f, Ensures I (step s f)) {s : σ} (hs : I s) :
    Ensures I (c.foldAnalysed step s) :=
  meets_foldlM (fun _ hs _ _ => (ensures_eq _).bind fun _ _ =>
    meets_foldlM (fun s hs f _ => hstep s hs f) hs) hs

/-! ## Observations -/

/-- The values that satisfy a check, or its inverse, can be reached by set operations. -/
theorem ensures_errorValues? (p : Program) (cond : Condition) (m : Match) :
    Ensures (fun x? => ∀ x ∈ x?, Reachable x.2) (p.errorValues? cond m) := by
  unfold Program.errorValues?
  split
  case h_1 lhs pred rhs origin =>
    refine (ensures_eq _).bind fun call? _ => ?_
    cases call? with
    | none => exact meets_none
    | some call =>
      refine (ensures_eq _).bind fun b _ => (ensures_eq _).bind fun op? _ => ?_
      cases hw : rhs.word32? with
      | none =>
        dsimp only
        split <;> exact meets_none
      | some w =>
        dsimp only
        split <;> exact meets_some (RangeSet.reachable_narrow_full _ hw)
  case h_2 => exact meets_none

/-- The values of the checks of one call are united. -/
theorem ensures_errorValuesByCall (matched : Table CheckId Match) :
    Ensures (Table.All (fun _ => True) Reachable) (c.errorValuesByCall matched) := by
  refine meets_foldlM (fun t ht e _ => ?_) Table.all_empty
  dsimp only
  split
  · refine (ensures_errorValues? c.program _ e.2).bind fun x? hx => ?_
    cases x? with
    | none => exact meets_pure ht
    | some x =>
      refine meets_pure (ht.update trivial fun old hold => ?_)
      cases old with
      | none => exact .union .empty (hx x rfl)
      | some s => exact .union (hold s rfl) (hx x rfl)
  · exact meets_pure ht

/-- **Observations are of sets that can be made**: the values on one side of a comparison, or on
several. -/
theorem ensures_observations (matched : Table CheckId Match) :
    Ensures Histograms.Made (c.observations matched) := by
  refine (ensures_errorValuesByCall matched).map fun t ht => ?_
  refine List.foldlRecOn (motive := Histograms.Made) _ _ Table.all_empty fun hs hhs e he => ?_
  dsimp only
  split
  · exact hhs
  · exact List.foldlRecOn (motive := Histograms.Made) _ _ hhs fun hs hhs f _ =>
      Histograms.all_observe hhs trivial (ht e he).2

/-- What is observed by similar paths are sets in order. -/
theorem ensures_similarityEvidence (f : FuncId) :
    Ensures (fun e => e.observed.Made) (c.similarityEvidence f) := by
  unfold similarityEvidence
  dsimp only
  split
  · exact meets_pure Table.all_empty
  · refine (ensures_eq _).bind fun paths _ => (ensures_eq _).bind fun d _ =>
      (ensures_eq _).bind fun tallies _ => ?_
    exact (ensures_observations d.matched).map fun _ hobserved => hobserved

theorem ensures_handlerEvidence (f : FuncId) (handlers : SortedSet FuncId)
    (decided : List CheckId) :
    Ensures (fun e => e.observed.Made) (c.handlerEvidence f handlers decided) := by
  unfold handlerEvidence
  split
  · exact meets_pure Table.all_empty
  · refine (ensures_eq _).bind fun matched _ => ?_
    exact (ensures_observations matched).map fun _ hobserved => hobserved

/-! ## Storing -/

/-- Refined observations are sets in order. -/
theorem ensures_refineSlot (finder : RangeFinder) (ranges : Table FuncId SignedRange) (f : FuncId)
    {h : Histogram} (hh : h.Made) :
    Ensures (fun out => out.1.Made) (c.refineSlot finder ranges f h) := by
  refine (ensures_eq _).bind fun function _ => ?_
  split
  · exact meets_pure hh
  · refine (ensures_eq _).bind fun constant _ => ?_
    split
    · exact meets_pure (Histogram.made_empty.update .empty fun _ _ => Nat.succ_pos _)
    · refine (ensures_eq _).bind fun function _ => ?_
      split
      · refine (ensures_eq _).bind fun out _ => ?_
        exact (RangeFinder.meets_narrowAll out.1 h fun _ => trivial).map
          fun _ hrefined => hrefined.1 hh
      · exact meets_pure hh

/-- So are those of all slots. -/
theorem ensures_refineSlots (finder : RangeFinder) {slots : List (ReturnSlot × Histogram)}
    (hslots : ∀ e ∈ slots, Histogram.Made e.2) (ranges : Table FuncId SignedRange) :
    Ensures (fun out => ∀ e ∈ out, Histogram.Made e.2) (c.refineSlots finder slots ranges) := by
  induction slots generalizing ranges with
  | nil => exact meets_nil
  | cons e rest ih =>
    rw [List.forall_mem_cons] at hslots
    refine (ensures_refineSlot finder ranges _ hslots.1).bind fun out hout => ?_
    exact (ih hslots.2 _).map fun more hmore => List.forall_mem_cons.mpr ⟨hout, hmore⟩

theorem ensures_refined {observed : Histograms} (h : observed.Made) :
    Ensures Histograms.Made (c.refined observed) := by
  unfold refined
  split
  · exact (ensures_refineSlots _ (fun e he => (h e he).2) {}).map fun _ hslots =>
      Table.all_ofList fun e he => ⟨trivial, hslots e he⟩
  · exact meets_pure h

/-- **Storing observations** keeps knowledge in order. -/
theorem ensures_store {k : Knowledge} (hk : k.Grounded) {observed : Histograms}
    (h : observed.Made) : Ensures Knowledge.Grounded (c.store k observed) := by
  refine (ensures_refined h).bind fun refined hrefined => ?_
  refine Meets.bind (meets_foldlM (I := Knowledge.Grounded) (fun k hk e he => ?_) hk)
    fun k hk => (ensures_eq _).map fun wrappers _ => ?_
  · refine (ensures_eq _).bind fun function _ => ?_
    exact (Histogram.Made.ensures_pooled (hrefined e he).2 _).map fun counts hcounts =>
      hk.storeCounts _ e.1 hcounts
  · exact List.foldlRecOn (motive := Knowledge.Grounded) _ _ hk fun k hk f _ =>
      ⟨hk.errors.insert trivial .empty, hk.backed.update _ _⟩

/-! ## Propagation -/

/-- A visit adds sets in order, if those that are learned are. -/
theorem Visits.made {learn : ErrorTable → FuncId → Checked (Option RangeSet)}
    (hlearn : ∀ errors f, Ensures (fun s? => ∀ s ∈ s?, Reachable s) (learn errors f))
    {stack seen : List FuncId} {errors errors' : ErrorTable} {vs : List Visit}
    (h : c.Visits learn stack seen errors vs errors') (herrors : errors.Made) : errors'.Made := by
  induction h with
  | done => exact herrors
  | again _ _ ih => exact ih herrors
  | quiet _ _ ih => exact ih herrors
  | gain hfound _ _ ih =>
    have hs := (hlearn _ _).of_eq_ok hfound _ rfl
    exact ih (ErrorTable.all_mergeUnion herrors (Table.all_empty.insert trivial hs))

/-- Visiting callers keeps knowledge in order, if what is found out can be made. -/
theorem ensures_visitCallers {learn : ErrorTable → FuncId → Checked (Option RangeSet)}
    (hlearn : ∀ errors f, Ensures (fun s? => ∀ s ∈ s?, Reachable s) (learn errors f))
    (fs : List FuncId) {k : Knowledge} (hk : k.Grounded) :
    Ensures (fun out => Knowledge.Grounded { k with errors := out.errors })
      (c.visitCallers learn fs k.errors) := by
  refine (ensures_eq _).imp fun out hout => ?_
  obtain ⟨callers, vs, -, hvs, -⟩ := exists_visits_of_visitCallers hout
  exact ⟨hvs.made hlearn hk.errors, hk.backed.of_errors fun _ => hvs.contains_of_contains⟩

/-- A path returns a constant as a set of one value. -/
theorem ensures_returnedAlong? (path : List BlockId) :
    Ensures (fun s? => ∀ s ∈ s?, Reachable s) (c.returnedAlong? path) := by
  refine (ensures_eq _).bind fun ret? _ => ?_
  cases ret? with
  | none => exact meets_none
  | some ret =>
    refine (ensures_eq _).bind fun op _ => ?_
    split
    · refine (ensures_eq _).map fun resolved _ s hs => ?_
      obtain ⟨w, hw, rfl⟩ := Option.map_eq_some_iff.mp hs
      obtain ⟨v, -, hw⟩ := Option.bind_eq_some_iff.mp hw
      exact .singleton (Value.fits_word32? hw)
    · exact meets_none

/-- What was found is united. -/
theorem reachable_unionFound {found : List (Option RangeSet)}
    (h : ∀ s? ∈ found, ∀ s ∈ s?, Reachable s) : ∀ s ∈ unionFound found, Reachable s := by
  intro s hs
  unfold unionFound at hs
  split at hs
  · cases hs
  case h_2 =>
    obtain rfl := Option.some.inj hs
    refine RangeSet.reachable_foldl_union (fun t ht => ?_) .empty
    obtain ⟨t?, ht?, rfl⟩ := List.mem_filterMap.mp ht
    exact h _ ht? t rfl

/-- What is returned after a check are sets of one value each. -/
theorem ensures_returnedAfter (errors : ErrorTable) (boundary : List BlockId) (cond : Condition) :
    Ensures (fun found => ∀ s? ∈ found, ∀ s ∈ s?, Reachable s)
      (c.returnedAfter errors boundary cond) := by
  unfold returnedAfter
  split
  · refine (ensures_eq _).bind fun call? _ => ?_
    split
    · split
      · split
        · exact meets_nil
        · refine (ensures_eq _).bind fun block _ => (ensures_eq _).bind fun op? _ => ?_
          split
          · refine (ensures_eq _).bind fun paths _ => ?_
            exact meets_mapM fun path _ => ensures_returnedAlong? path.blocks
          · exact meets_nil
      · exact meets_nil
    · exact meets_nil
  · exact meets_nil

theorem ensures_learnFromChecks (errors : ErrorTable) (f : FuncId) :
    Ensures (fun s? => ∀ s ∈ s?, Reachable s) (c.learnFromChecks errors f) := by
  refine (ensures_eq _).bind fun able _ => ?_
  split
  · exact meets_none
  · refine (ensures_eq _).bind fun boundary _ => ?_
    exact (meets_mapM_flatten fun cond _ => ensures_returnedAfter errors boundary cond).map
      fun _ hfound => reachable_unionFound hfound

/-- What is returned after calls of handlers can be reached by set operations. -/
theorem ensures_learnFromHandlers (handlers : SortedSet FuncId) (errors : ErrorTable)
    (f : FuncId) : Ensures (fun s? => ∀ s ∈ s?, Reachable s)
      (c.learnFromHandlers handlers errors f) := by
  refine (ensures_eq _).bind fun able _ => ?_
  split
  · exact meets_none
  · refine (ensures_eq _).bind fun function _ => ?_
    refine Meets.map (meets_mapM (Q := fun s? => ∀ s ∈ s?, Reachable s) fun b _ => ?_)
      fun found hfound => reachable_unionFound hfound
    refine (ensures_eq _).bind fun s? _ => ?_
    split
    · exact ensures_returnedAlong? _
    · exact meets_none

/-! ## Learning -/

/-- **Learning keeps knowledge in order**, and so is what it observes. -/
theorem ensures_learn {k : Knowledge} (hk : k.Grounded) :
    Ensures (fun out => out.1.observed.Made ∧ out.2.Grounded) (c.learn k) := by
  refine Meets.bind (ensures_foldAnalysed (I := fun e : Evidence => e.observed.Made)
    (fun e he f => (ensures_similarityEvidence f).map fun _ hother =>
      Histograms.all_merge he hother) Table.all_empty) fun e he => ?_
  refine Meets.bind (ensures_foldAnalysed (I := fun e : Evidence => e.observed.Made)
    (fun e he f => (ensures_handlerEvidence f _ _).map fun _ hother =>
      Histograms.all_merge he hother) he) fun e he => ?_
  refine (ensures_store hk he).bind fun k hk => ?_
  refine Meets.bind (P := fun errors => Knowledge.Grounded { k with errors })
    ((ensures_visitCallers (ensures_learnFromHandlers _) _ hk).map fun _ h => h)
    fun errors herrors => ?_
  refine Meets.bind (P := fun errors => Knowledge.Grounded { k with errors })
    ((ensures_visitCallers ensures_learnFromChecks _ herrors).map fun _ h => h)
    fun errors herrors => ?_
  exact meets_pure ⟨he, herrors⟩

end Context

end ErrorReturns
