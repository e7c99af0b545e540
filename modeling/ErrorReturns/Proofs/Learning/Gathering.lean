import ErrorReturns.Proofs.Learning.Inside
import ErrorReturns.Proofs.Learning.Observations

/-!
# How much is gathered

While observations and calls are gathered, nothing looks at how great their counts get. They do not
get great. Every observation of a slot has a decided condition of its own that compares the slot,
and a tally counts every call that may reach its function at most once (`Context.Backed`). The
functions under analysis are distinct, so that what one of them contributes has other conditions
and other calls behind it than what the others do, and no count is greater than the number of
conditions or of calls there are (`Context.ensures_backed_gatherHandlers`).

Storing is different: sets that contain one another make each other's counts grow. This takes more
than 32 observations of one slot, and hence more than 32 conditions that compare it
(`Context.Crowded`). Learning goes wrong in no other way, unless some resolution never ends
(`Context.Sound.meets_learn`).
-/

namespace ErrorReturns

open Checked

/-! ## Sums of counts -/

@[simp] theorem Histogram.total_merge (h other : Histogram) :
    total (h.merge other).entries = total h.entries + total other.entries := by
  unfold merge
  induction other.entries generalizing h with
  | nil => rfl
  | cons e rest ih => rw [List.foldl_cons, ih, total_add, total_cons, Nat.add_assoc]

namespace Histograms

/-- How often a slot was observed. -/
def totalOf (hs : Histograms) (slot : ReturnSlot) : Nat :=
  Histogram.total (Table.entries ((hs.get? slot).getD {}))

@[simp] theorem totalOf_empty (slot : ReturnSlot) : totalOf {} slot = 0 := rfl

/-- One observation adds one to the sum of its slot. -/
theorem totalOf_observe (hs : Histograms) (slot slot' : ReturnSlot) (s : RangeSet) :
    (hs.observe slot s).totalOf slot' = hs.totalOf slot' + [slot].count slot' := by
  rw [totalOf, observe, Table.get?_update]
  by_cases h : slot' = slot
  · subst h
    rw [if_pos rfl, Option.getD_some, Histogram.total_add, List.count_singleton_self]
    rfl
  · rw [if_neg h, List.count_eq_zero_of_not_mem (mt List.mem_singleton.mp h)]
    rfl

/-- So do observations one after another. -/
theorem totalOf_foldl_observe (hs : Histograms) (os : List (ReturnSlot × RangeSet))
    (slot : ReturnSlot) :
    (os.foldl (fun hs o => hs.observe o.1 o.2) hs).totalOf slot =
      hs.totalOf slot + (os.map (·.1)).count slot := by
  induction os generalizing hs with
  | nil => rfl
  | cons o os ih =>
    rw [List.foldl_cons, ih, totalOf_observe, Nat.add_assoc, ← List.count_append]
    rfl

/-- **Observations add up.** -/
@[simp] theorem totalOf_merge (hs other : Histograms) (slot : ReturnSlot) :
    (hs.merge other).totalOf slot = hs.totalOf slot + other.totalOf slot := by
  unfold totalOf merge
  rw [Table.get?_foldl_update hs (fun h h? => Histogram.merge (h?.getD {}) h) other slot]
  cases other.get? slot with
  | none => rfl
  | some h => exact Histogram.total_merge _ h

end Histograms

namespace Context

variable {c : Context} {slot : ReturnSlot}

/-! ## Conditions behind observations -/

variable (c) in
/-- The call whose result the condition at a place compares, if it is one that decides a branch. -/
def checkedCall? (id : CheckId) : Option CheckedCall :=
  match c.condition? id with
  | some (.comparison lhs _ _ _ true) =>
    (c.program.callOf? lhs.value).toOption.join.map fun call => ⟨call, lhs.slot⟩
  | _ => none

variable (c slot) in
/-- Whether a checked call is counted for a slot. -/
def countsCall (x : CheckedCall) : Bool :=
  !c.graph.isCoarse x.call && decide (slot.function ∈ c.graph.calleeList x.call) &&
    x.slot == slot.slot

variable (c slot) in
/-- **Whether the condition at a place compares a slot**: the result of a call that counts for it.
-/
def compares (id : CheckId) : Bool := (c.checkedCall? id).any (c.countsCall slot)

theorem checkedCall?_of_reveals {id : CheckId} {m : Match} {cond : Condition} {x : CheckedCall}
    {pred : Predicate} {rhs : Int} (hcond : c.condition? id = some cond)
    (h : cond.Reveals c.program m x pred rhs) : c.checkedCall? id = some x := by
  obtain ⟨lhs, q, v, origin, rfl, hcall, hslot, -⟩ := h
  rw [checkedCall?, hcond]
  dsimp only
  rw [hcall, hslot]
  rfl

/-- A call is observed once for each slot that it counts for. -/
theorem count_observedOf (e : CheckedCall × RangeSet) :
    ((c.observedOf e).map (·.1)).count slot = if c.countsCall slot e.1 then 1 else 0 := by
  unfold observedOf countsCall
  cases c.graph.isCoarse e.1.call with
  | true => rfl
  | false =>
    rw [if_neg Bool.false_ne_true, List.map_map]
    have hnodup : ((c.graph.calleeList e.1.call).map fun f => (⟨f, e.1.slot⟩ : ReturnSlot)).Nodup :=
      (c.graph.nodup_calleeList e.1.call).map fun f f' heq => (ReturnSlot.mk.inj heq).1
    refine hnodup.count.trans (if_congr ?_ rfl rfl)
    obtain ⟨f, n⟩ := slot
    simp only [List.mem_map, ReturnSlot.mk.injEq, Bool.not_false, Bool.true_and, Bool.and_eq_true,
      decide_eq_true_eq, beq_iff_eq]
    exact ⟨fun ⟨_, hf, hf', hslot⟩ => ⟨hf' ▸ hf, hslot⟩, fun ⟨hf, hslot⟩ => ⟨f, hf, rfl, hslot⟩⟩

/-- A slot is observed as often as there are calls that count for it. -/
theorem totalOf_observeCalls (values : Table CheckedCall RangeSet) (hs : Histograms) :
    (c.observeCalls values hs).totalOf slot =
      hs.totalOf slot + (values.keys.filter (c.countsCall slot)).length := by
  have hsum : ∀ es : List (CheckedCall × RangeSet),
      ((es.flatMap c.observedOf).map (·.1)).count slot =
      ((es.map (·.1)).filter (c.countsCall slot)).length := by
    intro es
    induction es with
    | nil => rfl
    | cons e es ih =>
      rw [List.flatMap_cons, List.map_append, List.count_append, ih, count_observedOf,
        List.map_cons, List.filter_cons]
      split
      · rw [List.length_cons, Nat.add_comm]
      · exact Nat.zero_add _
  rw [observeCalls_eq, Histograms.totalOf_foldl_observe, hsum]
  rfl

/-- **Every observation has a decided condition of its own**: of each call that counts for the slot
some condition is decided, and a condition is about one call. -/
theorem ensures_totalOf_observations (matched : Table CheckId Match) (slot : ReturnSlot) :
    Ensures (fun hs => hs.totalOf slot ≤ (matched.keys.filter (c.compares slot)).length)
      (c.observations matched) := by
  refine (ensures_errorValuesByCall_collects matched).map fun values hvalues => ?_
  rw [totalOf_observeCalls, Histograms.totalOf_empty, Nat.zero_add]
  have hsub : values.keys.filter (c.countsCall slot) ⊆
      (matched.keys.filter (c.compares slot)).filterMap c.checkedCall? := by
    intro x hx
    obtain ⟨hx, hcounts⟩ := List.mem_filter.mp hx
    obtain ⟨pred, rhs, e, he, cond, hcond, hreveals⟩ :=
      (hvalues.contains_iff x).mp (Table.mem_keys_iff.mp hx)
    have hcall := checkedCall?_of_reveals hcond hreveals
    have hcompares : c.compares slot e.1 = true := by
      rw [compares, hcall, Option.any_some, hcounts]
    exact List.mem_filterMap.mpr
      ⟨e.1, List.mem_filter.mpr ⟨List.mem_map_of_mem he, hcompares⟩, hcall⟩
  calc (values.keys.filter (c.countsCall slot)).length
      ≤ ((matched.keys.filter (c.compares slot)).filterMap c.checkedCall?).length :=
        ((values.nodup_keys.filter _).subperm hsub).length_le
    _ ≤ (matched.keys.filter (c.compares slot)).length := List.length_filterMap_le _ _

end Context

/-! ## Calls behind tallies -/

/-- How many calls a tally counts. -/
def HandlerTally.calls (t : HandlerTally) : Nat := t.inError + t.notInError

/-- How many calls of a function some tallies count. -/
def callsCounted (t : Table FuncId HandlerTally) (g : FuncId) : Nat := ((t.get? g).getD {}).calls

/-- The calls counted on both sides are added. -/
@[simp] theorem Evidence.callsCounted_merge (e other : Evidence) (g : FuncId) :
    callsCounted (e.merge other).handlers g =
      callsCounted e.handlers g + callsCounted other.handlers g := by
  unfold callsCounted merge
  dsimp only
  rw [Table.get?_foldl_update e.handlers (fun t old => (old.getD {}).add t) other.handlers g]
  cases other.handlers.get? g with
  | none => rfl
  | some t =>
    simp only [Option.elim_some, Option.getD_some, HandlerTally.calls, HandlerTally.add]
    omega

namespace Context

variable {c : Context} {f g : FuncId}

variable (c) in
/-- The calls of some functions that may reach a function. -/
def callsFrom (fs : List FuncId) (g : FuncId) : List InstId :=
  (c.callsReaching g).filter fun i => fs.any fun f => decide (c.program.functionOf i = .ok f)

variable (c) in
/-- **Evidence with something behind every count.** The decided conditions are those of some
functions. Every observation of a slot has a decided condition of its own that compares the slot,
and every call that is counted is a call of these functions of its own. -/
structure Backed (fs : List FuncId) (e : Evidence) : Prop where
  decided : ∀ id, e.matched.contains id = true → id.function ∈ fs
  observed : ∀ slot, e.observed.totalOf slot ≤ (e.matched.keys.filter (c.compares slot)).length
  called : ∀ g, callsCounted e.handlers g ≤ (c.callsFrom fs g).length

/-- The decided conditions of evidence and of evidence about other conditions. -/
theorem length_filter_keys_merge {e a : Evidence}
    (hdisjoint : ∀ id, e.matched.contains id = true → a.matched.contains id = false)
    (q : CheckId → Bool) : ((e.merge a).matched.keys.filter q).length =
      (e.matched.keys.filter q).length + (a.matched.keys.filter q).length := by
  have hnodup : (e.matched.keys ++ a.matched.keys).Nodup := by
    refine List.nodup_append.mpr ⟨e.matched.nodup_keys, a.matched.nodup_keys, ?_⟩
    rintro id hid _ hid' rfl
    rw [Table.mem_keys_iff] at hid hid'
    rw [hdisjoint id hid] at hid'
    cases hid'
  have hperm : (e.merge a).matched.keys.Perm (e.matched.keys ++ a.matched.keys) := by
    refine (List.perm_ext_iff_of_nodup (Table.nodup_keys _) hnodup).mpr fun id => ?_
    rw [List.mem_append, Table.mem_keys_iff, Table.mem_keys_iff, Table.mem_keys_iff,
      Table.contains, Table.contains, Table.contains, e.get?_matched_merge a]
    cases a.matched.get? id <;> simp
  rw [(hperm.filter q).length_eq, List.filter_append, List.length_append]

/-- Decided conditions after some others have been added. -/
theorem contains_matched_merge {e a : Evidence} {id : CheckId}
    (h : (e.merge a).matched.contains id = true) :
    e.matched.contains id = true ∨ a.matched.contains id = true := by
  rw [Table.contains, e.get?_matched_merge a] at h
  cases hid : a.matched.get? id with
  | none =>
    rw [hid] at h
    exact Or.inl h
  | some m => exact Or.inr (Option.isSome_of_mem hid)

theorem totalOf_observed_merge_le {e a : Evidence}
    (he : e.observed.totalOf slot ≤ (e.matched.keys.filter (c.compares slot)).length)
    (ha : a.observed.totalOf slot ≤ (a.matched.keys.filter (c.compares slot)).length)
    (hdisjoint : ∀ id, e.matched.contains id = true → a.matched.contains id = false) :
    (e.merge a).observed.totalOf slot ≤
      ((e.merge a).matched.keys.filter (c.compares slot)).length := by
  rw [length_filter_keys_merge hdisjoint]
  exact (e.observed.totalOf_merge a.observed slot).trans_le (Nat.add_le_add he ha)

theorem nodup_callsReaching (g : FuncId) : (c.callsReaching g).Nodup :=
  (List.nodup_range.map InstId.mk_injective).filter _

theorem mem_callsFrom {fs : List FuncId} {i : InstId} :
    i ∈ c.callsFrom fs g ↔ i ∈ c.callsReaching g ∧ ∃ f ∈ fs, c.program.functionOf i = .ok f := by
  rw [callsFrom, List.mem_filter, List.any_eq_true]
  simp only [decide_eq_true_eq]

/-- Different functions have different calls. -/
theorem length_callsFrom_append {fs gs : List FuncId} (hdisjoint : ∀ f ∈ fs, f ∉ gs) (g : FuncId) :
    (c.callsFrom fs g).length + (c.callsFrom gs g).length ≤ (c.callsFrom (fs ++ gs) g).length := by
  rw [← List.length_append]
  refine List.Subperm.length_le (List.Nodup.subperm (List.nodup_append.mpr
    ⟨(nodup_callsReaching g).filter _, (nodup_callsReaching g).filter _, ?_⟩) ?_)
  · rintro i hi _ hi' rfl
    obtain ⟨-, f, hf, hif⟩ := mem_callsFrom.mp hi
    obtain ⟨-, f', hf', hif'⟩ := mem_callsFrom.mp hi'
    obtain rfl := Except.ok.inj (hif.symm.trans hif')
    exact hdisjoint f hf hf'
  · refine List.append_subset.mpr ⟨fun i hi => ?_, fun i hi => ?_⟩
    · obtain ⟨hreaches, f, hf, hif⟩ := mem_callsFrom.mp hi
      exact mem_callsFrom.mpr ⟨hreaches, f, List.mem_append_left _ hf, hif⟩
    · obtain ⟨hreaches, f, hf, hif⟩ := mem_callsFrom.mp hi
      exact mem_callsFrom.mpr ⟨hreaches, f, List.mem_append_right _ hf, hif⟩

namespace Backed

variable {fs gs : List FuncId} {e a : Evidence}

/-- **Evidence of other functions** can be added. -/
theorem merge (he : c.Backed fs e) (ha : c.Backed gs a) (hdisjoint : ∀ f ∈ fs, f ∉ gs) :
    c.Backed (fs ++ gs) (e.merge a) where
  decided id hid := List.mem_append.mpr
    ((contains_matched_merge hid).imp (he.decided id) (ha.decided id))
  observed slot := totalOf_observed_merge_le (he.observed slot) (ha.observed slot) fun id hid =>
    Bool.eq_false_iff.mpr fun hid' => hdisjoint _ (he.decided id hid) (ha.decided id hid')
  called g := by
    rw [Evidence.callsCounted_merge]
    exact Nat.le_trans (Nat.add_le_add (he.called g) (ha.called g))
      (length_callsFrom_append hdisjoint g)

/-- **What handlers add** is about conditions that were not decided, and no call is counted. -/
theorem addByHandlers (he : c.Backed fs e) (hf : f ∈ fs) {handlers : SortedSet FuncId}
    {e' : Evidence} (h : c.addByHandlers handlers e f = .ok e') : c.Backed fs e' := by
  obtain ⟨a, ha, h⟩ := bind_eq_ok_iff.mp h
  obtain rfl := Except.ok.inj h
  obtain ⟨hdecides, hnew⟩ := decidesIn_of_handlerEvidence ha
  have hdisjoint : ∀ id, e.matched.contains id = true → a.matched.contains id = false :=
    fun id hid => Bool.eq_false_iff.mpr fun hid' =>
      hnew id hid' (mem_matchedIn_iff.mpr ⟨hid, hdecides id hid'⟩)
  have hdecided : ∀ id, (e.merge a).matched.contains id = true → id.function ∈ fs := fun id hid =>
    (contains_matched_merge hid).elim (he.decided id) fun hid => hdecides id hid ▸ hf
  unfold handlerEvidence at ha
  split at ha
  · obtain rfl := Except.ok.inj ha
    exact ⟨hdecided, fun slot => totalOf_observed_merge_le (he.observed slot) (Nat.zero_le _)
      hdisjoint, he.called⟩
  · simp only [bind_eq_ok_iff, pure_eq_ok, Except.ok.injEq] at ha
    obtain ⟨matched, -, observed, hobserved, rfl⟩ := ha
    refine ⟨hdecided, fun slot => totalOf_observed_merge_le (he.observed slot) ?_ hdisjoint,
      he.called⟩
    exact (ensures_totalOf_observations matched slot).of_eq_ok hobserved

/-- **A tally counts at most as many calls as may reach its function.** -/
theorem calls_le (he : c.Backed fs e) (g : FuncId) :
    callsCounted e.handlers g ≤ (c.callsReaching g).length :=
  Nat.le_trans (he.called g) (List.length_filter_le _ _)

end Backed

theorem nodup_inModuleOrder (hp : c.program.toArena.Owned) : c.inModuleOrder.Nodup := by
  have hnodup := (hp.functions.flatMap_nodup FuncId.mk_injective).filter c.isAnalysed
  rwa [List.filter_flatMap] at hnodup

end Context

end ErrorReturns
