import ErrorReturns.Learning.Propagation
import ErrorReturns.Proofs.CallGraph
import ErrorReturns.Proofs.ErrorTable

/-!
# Visits of callers

Error values are propagated to callers by visiting functions from a stack, each at most once. A
run is written down as the sequence of its `Visit`s. Everything that is put on the stack is
visited, and so are the callers of every function about which something is found
(`Visits.visited_of_caller`); values change only where something is found
(`Visits.get?_of_not_found`). These hold whatever is looked for.

What is looked for here are constants that a function returns where a check of it fails. That
depends on the values of the functions that the checked calls may reach
(`learnFromChecks_congr`). The propagation is at a fixed point if nothing more is found in any
function. Since no function is visited twice, a function that was visited too early is
`LeftBehind`, and there is no other way in which the propagation can fall short.
-/

namespace ErrorReturns

open Checked (bind_eq_ok_iff)

namespace Context

variable {c : Context} {errors errors' : ErrorTable} {f : FuncId}

/-! ## A run of visits -/

/-- A visit of a function: what was known then, and what was found. -/
structure Visit where
  function : FuncId
  errors : ErrorTable
  found : Option RangeSet

variable (c) in
/-- **The visits from a stack**, from what is known to what is known in the end. -/
inductive Visits (learn : ErrorTable → FuncId → Checked (Option RangeSet)) :
    List FuncId → List FuncId → ErrorTable → List Visit → ErrorTable → Prop
  | done {seen : List FuncId} {errors : ErrorTable} : Visits learn [] seen errors [] errors
  | again {f : FuncId} {stack seen : List FuncId} {errors errors' : ErrorTable} {vs : List Visit}
      (hseen : f ∈ seen) (hrest : Visits learn stack seen errors vs errors') :
      Visits learn (f :: stack) seen errors vs errors'
  | quiet {f : FuncId} {stack seen : List FuncId} {errors errors' : ErrorTable} {vs : List Visit}
      (hlearn : learn errors f = .ok none)
      (hrest : Visits learn stack (f :: seen) errors vs errors') :
      Visits learn (f :: stack) seen errors (⟨f, errors, none⟩ :: vs) errors'
  | gain {f : FuncId} {stack seen callers : List FuncId} {errors errors' : ErrorTable}
      {vs : List Visit} {s : RangeSet} (hlearn : learn errors f = .ok (some s))
      (hcallers : c.graph.callingFunctions c.program f = .ok callers)
      (hrest : Visits learn (callers.reverse ++ stack) (f :: seen)
        (errors.mergeUnion (Table.empty.insert ⟨f, 0⟩ s)) vs errors') :
      Visits learn (f :: stack) seen errors (⟨f, errors, some s⟩ :: vs) errors'

variable {learn : ErrorTable → FuncId → Checked (Option RangeSet)} {stack seen : List FuncId}
  {vs : List Visit}

/-- How many of some visits found something. -/
def gains (vs : List Visit) : Nat := vs.countP (·.found.isSome)

@[simp] theorem gains_cons (v : Visit) (vs : List Visit) :
    gains (v :: vs) = gains vs + if v.found.isSome then 1 else 0 :=
  List.countP_cons

/-- **A run is a sequence of visits**, of which those that find something are counted. -/
theorem exists_visits {steps : Nat} {known out : Propagated}
    (h : c.visitFrom learn steps stack seen known = .ok out) :
    ∃ vs, c.Visits learn stack seen known.errors vs out.errors ∧
      out.gained = known.gained + gains vs := by
  -- one constructor of `Visits` for each branch of a step
  induction steps generalizing stack seen known with
  | zero => cases h
  | succ steps ih =>
    cases stack with
    | nil =>
      obtain rfl := Except.ok.inj h
      exact ⟨[], .done, rfl⟩
    | cons f stack =>
      rw [visitFrom] at h
      split at h
      · rename_i hseen
        obtain ⟨vs, hvs, hgained⟩ := ih h
        exact ⟨vs, .again hseen hvs, hgained⟩
      · obtain ⟨found, hlearn, h⟩ := bind_eq_ok_iff.mp h
        cases found with
        | none =>
          obtain ⟨vs, hvs, hgained⟩ := ih h
          exact ⟨_, .quiet hlearn hvs, hgained⟩
        | some s =>
          obtain ⟨callers, hcallers, h⟩ := bind_eq_ok_iff.mp h
          obtain ⟨vs, hvs, hgained⟩ := ih h
          refine ⟨_, .gain hlearn hcallers hvs, hgained.trans ?_⟩
          simp only [Propagated.gain, gains_cons, Option.isSome_some, if_true]
          omega

theorem exists_visits_of_visitCallers {fs : List FuncId} {out : Propagated}
    (h : c.visitCallers learn fs errors = .ok out) :
    ∃ callers vs, fs.mapM (c.graph.callingFunctions c.program) = .ok callers ∧
      c.Visits learn callers.flatten.reverse [] errors vs out.errors ∧ out.gained = gains vs := by
  obtain ⟨callers, hcallers, h⟩ := bind_eq_ok_iff.mp h
  obtain ⟨vs, hvs, hgained⟩ := exists_visits h
  exact ⟨callers, vs, hcallers, hvs, hgained.trans (Nat.zero_add _)⟩

/-- A visited function has been seen from then on. -/
theorem mem_seen_or_visited_cons {v : Visit} :
    f ∈ seen ∨ f ∈ (v :: vs).map Visit.function ↔
      f ∈ v.function :: seen ∨ f ∈ vs.map Visit.function := by
  rw [List.map_cons, List.mem_cons, List.mem_cons, or_left_comm, or_assoc]

/-- Everything on the stack is visited, unless it has been before. -/
theorem Visits.visited_of_mem_stack (h : c.Visits learn stack seen errors vs errors')
    (hf : f ∈ stack) : f ∈ seen ∨ f ∈ vs.map Visit.function := by
  induction h with
  | done => cases hf
  | again hseen _ ih =>
    rcases List.mem_cons.mp hf with rfl | hf
    · exact Or.inl hseen
    · exact ih hf
  | quiet _ _ ih =>
    rw [mem_seen_or_visited_cons]
    rcases List.mem_cons.mp hf with rfl | hf
    · exact Or.inl List.mem_cons_self
    · exact ih hf
  | gain _ _ _ ih =>
    rw [mem_seen_or_visited_cons]
    rcases List.mem_cons.mp hf with rfl | hf
    · exact Or.inl List.mem_cons_self
    · exact ih (List.mem_append_right _ hf)

/-- **The callers of a function about which something is found are visited**, unless they have been
before. -/
theorem Visits.visited_of_caller (h : c.Visits learn stack seen errors vs errors') {v : Visit}
    (hv : v ∈ vs) (hfound : v.found.isSome = true) :
    ∃ callers, c.graph.callingFunctions c.program v.function = .ok callers ∧
      ∀ f ∈ callers, f ∈ seen ∨ f ∈ vs.map Visit.function := by
  induction h with
  | done => cases hv
  | again _ _ ih => exact ih hv
  | quiet _ _ ih =>
    simp only [mem_seen_or_visited_cons]
    rcases List.mem_cons.mp hv with rfl | hv
    · cases hfound
    · exact ih hv
  | gain _ hcallers hrest ih =>
    simp only [mem_seen_or_visited_cons]
    rcases List.mem_cons.mp hv with rfl | hv
    · exact ⟨_, hcallers, fun f hf =>
        hrest.visited_of_mem_stack (List.mem_append_left _ (List.mem_reverse.mpr hf))⟩
    · exact ih hv

@[simp] theorem contains_insert_empty_iff {k k' : ReturnSlot} {s : RangeSet} :
    (Table.empty.insert k s).contains k' = true ↔ k' = k :=
  Table.contains_update_iff.trans (or_iff_left nofun)

/-- **Values change only where something is found.** -/
theorem Visits.get?_of_not_found (h : c.Visits learn stack seen errors vs errors') {k : ReturnSlot}
    (hk : ∀ v ∈ vs, v.found.isSome = true → k ≠ ⟨v.function, 0⟩) :
    errors'.get? k = errors.get? k := by
  induction h with
  | done => rfl
  | again _ _ ih => exact ih hk
  | quiet _ _ ih => exact ih (List.forall_mem_cons.mp hk).2
  | gain _ _ _ ih =>
    obtain ⟨hne, hk⟩ := List.forall_mem_cons.mp hk
    refine (ih hk).trans (ErrorTable.get?_mergeUnion_of_not_contains (Bool.eq_false_iff.mpr ?_))
    exact fun hcontains => hne rfl (contains_insert_empty_iff.mp hcontains)

theorem Visits.contains_of_contains (h : c.Visits learn stack seen errors vs errors')
    {k : ReturnSlot} (hk : errors.contains k = true) : errors'.contains k = true := by
  induction h with
  | done => exact hk
  | again _ _ ih => exact ih hk
  | quiet _ _ ih => exact ih hk
  | gain _ _ _ ih => exact ih (ErrorTable.contains_mergeUnion_iff.mpr (Or.inl hk))

/-- A function about which something is found has values in the end. -/
theorem Visits.contains_of_found (h : c.Visits learn stack seen errors vs errors') {v : Visit}
    (hv : v ∈ vs) (hfound : v.found.isSome = true) : errors'.contains ⟨v.function, 0⟩ = true := by
  induction h with
  | done => cases hv
  | again _ _ ih => exact ih hv
  | quiet _ _ ih =>
    rcases List.mem_cons.mp hv with rfl | hv
    · cases hfound
    · exact ih hv
  | gain _ _ hrest ih =>
    rcases List.mem_cons.mp hv with rfl | hv
    · refine hrest.contains_of_contains (ErrorTable.contains_mergeUnion_iff.mpr (Or.inr ?_))
      exact contains_insert_empty_iff.mpr rfl
    · exact ih hv

/-- A visit that finds nothing leaves the visits after it with what was known. -/
theorem Visits.after_quiet {before after : List Visit} {v : Visit}
    (h : c.Visits learn stack seen errors (before ++ v :: after) errors')
    (hfound : v.found = none) :
    learn v.errors v.function = .ok none ∧
      ∃ stack' seen', c.Visits learn stack' seen' v.errors after errors' := by
  generalize hvs : before ++ v :: after = vs at h
  induction h generalizing before with
  | done => simp at hvs
  | again _ _ ih => exact ih hvs
  | quiet hlearn hrest ih =>
    rcases List.append_eq_cons_iff.mp hvs with ⟨-, hvs⟩ | ⟨before', -, hvs⟩
    · obtain ⟨rfl, rfl⟩ := List.cons.inj hvs
      exact ⟨hlearn, _, _, hrest⟩
    · exact ih hvs.symm
  | gain _ _ _ ih =>
    rcases List.append_eq_cons_iff.mp hvs with ⟨-, hvs⟩ | ⟨before', -, hvs⟩
    · obtain ⟨rfl, -⟩ := List.cons.inj hvs
      cases hfound
    · exact ih hvs.symm

/-! ## What is found in the checks of a function -/

variable (c) in
/-- The calls that a function checks, each with the slot of its result that is checked. -/
def ChecksCall (f : FuncId) (call : InstId) (slot : Nat) : Prop :=
  ∃ lhs pred rhs origin fromBranch,
    .comparison lhs pred rhs origin fromBranch ∈ c.conditionsOf f ∧
      c.program.callOf? lhs.value = .ok (some call) ∧ lhs.slot = slot

/-- What a check brings depends on the values of the functions that the checked call may reach. -/
theorem returnedAfter_congr {cond : Condition} (hcond : cond ∈ c.conditionsOf f)
    (h : ∀ call slot, c.ChecksCall f call slot → ∀ g ∈ c.graph.calleeList call,
      errors.get? ⟨g, slot⟩ = errors'.get? ⟨g, slot⟩) (boundary : List BlockId) :
    c.returnedAfter errors boundary cond = c.returnedAfter errors' boundary cond := by
  cases cond with
  | fallback _ _ => rfl
  | comparison lhs pred rhs origin fromBranch =>
    simp only [returnedAfter]
    cases hcall : c.program.callOf? lhs.value with
    | error e => simp only [Checked.error_bind]
    | ok call? =>
      cases call? with
      | none => simp only [Checked.ok_bind]
      | some call =>
        have hcheck : c.ChecksCall f call lhs.slot :=
          ⟨lhs, pred, rhs, origin, fromBranch, hcond, hcall, rfl⟩
        simp only [Checked.ok_bind, ErrorTable.errorBranch?_congr (h call lhs.slot hcheck)]

theorem learnFromChecks_congr (hself : errors.contains ⟨f, 0⟩ = errors'.contains ⟨f, 0⟩)
    (h : ∀ call slot, c.ChecksCall f call slot → ∀ g ∈ c.graph.calleeList call,
      errors.get? ⟨g, slot⟩ = errors'.get? ⟨g, slot⟩) :
    c.learnFromChecks errors f = c.learnFromChecks errors' f := by
  have hfound : ∀ boundary, (c.conditionsOf f).mapM (c.returnedAfter errors boundary) =
      (c.conditionsOf f).mapM (c.returnedAfter errors' boundary) := fun boundary =>
    Checked.mapM_congr fun _ hcond => returnedAfter_congr hcond h boundary
  simp only [learnFromChecks, hself, hfound]

/-- If something is found in the checks of a function where nothing was found before, the values of
a function that a checked call may reach have changed. -/
theorem exists_changed_of_learnFromChecks {s : RangeSet}
    (hself : errors.contains ⟨f, 0⟩ = errors'.contains ⟨f, 0⟩)
    (hbefore : c.learnFromChecks errors f = .ok none)
    (hafter : c.learnFromChecks errors' f = .ok (some s)) :
    ∃ call slot, c.ChecksCall f call slot ∧ ∃ g ∈ c.graph.calleeList call,
      errors.get? ⟨g, slot⟩ ≠ errors'.get? ⟨g, slot⟩ := by
  by_contra hsame
  have heq := learnFromChecks_congr (c := c) hself fun call slot hcheck g hg => by
    by_contra hne
    exact hsame ⟨call, slot, hcheck, g, hg, hne⟩
  rw [hbefore, hafter] at heq
  cases heq

/-- A check that brings something checks a call of a function with error values. -/
theorem checksCall_of_returnedAfter {boundary : List BlockId} {cond : Condition}
    (hcond : cond ∈ c.conditionsOf f) {found : List (Option RangeSet)}
    (h : c.returnedAfter errors boundary cond = .ok found) (hne : found ≠ []) :
    ∃ call slot g s, c.ChecksCall f call slot ∧ g ∈ c.graph.calleeList call ∧
      errors.get? ⟨g, slot⟩ = some s ∧ s.isEmpty = false := by
  have hnil : ∀ {m : Checked (List (Option RangeSet))}, m = .ok found → m ≠ .ok [] :=
    fun h h' => hne (Except.ok.inj (h.symm.trans h'))
  cases cond with
  | fallback _ _ => exact absurd rfl (hnil h)
  | comparison lhs pred rhs origin fromBranch =>
    obtain ⟨call?, hcall, h⟩ := bind_eq_ok_iff.mp h
    cases call? with
    | none => exact absurd rfl (hnil h)
    | some call =>
      dsimp only at h
      split at h
      · split at h
        · exact absurd rfl (hnil h)
        · rename_i hbranch
          obtain ⟨g, hg, s, hs, hsome⟩ :=
            ErrorTable.exists_of_errorBranch?_eq_some (Decidable.not_not.mp hbranch)
          exact ⟨call, lhs.slot, g, s, ⟨lhs, pred, rhs, origin, fromBranch, hcond, hcall, rfl⟩, hg,
            hs, hsome⟩
      · exact absurd rfl (hnil h)

/-- **What is found in the checks of a function** is found where it checks a call of a function with
error values, and only if it can have some itself and has none. -/
theorem checksCall_of_learnFromChecks {s : RangeSet}
    (h : c.learnFromChecks errors f = .ok (some s)) :
    c.canLearn f = .ok true ∧ errors.contains ⟨f, 0⟩ = false ∧
      ∃ call slot g s, c.ChecksCall f call slot ∧ g ∈ c.graph.calleeList call ∧
        errors.get? ⟨g, slot⟩ = some s ∧ s.isEmpty = false := by
  obtain ⟨can, hcan, h⟩ := bind_eq_ok_iff.mp h
  split at h
  · cases h
  · rename_i hopen
    obtain ⟨htrue, hnone⟩ := Bool.or_eq_false_iff.mp (Bool.eq_false_iff.mpr hopen)
    rw [Bool.not_eq_false'] at htrue
    subst htrue
    simp only [bind_eq_ok_iff] at h
    obtain ⟨boundary, -, found, hfound, h⟩ := h
    have hunion : unionFound found.flatten = some s := Except.ok.inj h
    refine ⟨hcan, hnone, ?_⟩
    have hne : found.flatten ≠ [] := by
      intro hnil
      rw [hnil] at hunion
      cases hunion
    obtain ⟨l, hl, hlne⟩ : ∃ l ∈ found, l ≠ [] := by
      simpa [List.flatten_eq_nil_iff] using hne
    obtain ⟨cond, hcond, hl⟩ := Checked.exists_of_mem_mapM hfound hl
    exact checksCall_of_returnedAfter hcond hl hlne

/-! ## Functions that are left behind -/

variable (c) in
/-- **A function is left behind** if it is visited and nothing is found, and after that something is
found about a function that a call which it checks may reach. -/
def LeftBehind (vs : List Visit) (f : FuncId) : Prop :=
  ∃ before v after call g, vs = before ++ v :: after ∧ v.function = f ∧ v.found = none ∧
    c.ChecksCall f call 0 ∧ g ∈ c.graph.calleeList call ∧
    ∃ w ∈ after, w.function = g ∧ w.found.isSome = true

/-- A function that checks a call of its own of a function with error values is visited. -/
theorem Visits.visited_of_checksCall (hgraph : c.graph.Linked) {callers : List (List FuncId)}
    (hcallers : ((errors.entries.filter (!·.2.isEmpty)).map (·.1.function)).mapM
      (c.graph.callingFunctions c.program) = .ok callers)
    (h : c.Visits learn callers.flatten.reverse [] errors vs errors') {call : InstId} {slot : Nat}
    {g : FuncId} {s : RangeSet} (hown : c.program.functionOf call = .ok f)
    (hg : g ∈ c.graph.calleeList call) (hs : errors'.get? ⟨g, slot⟩ = some s)
    (hsome : s.isEmpty = false) : f ∈ vs.map Visit.function := by
  by_cases hgained : ∃ v ∈ vs, v.found.isSome = true ∧ (⟨g, slot⟩ : ReturnSlot) = ⟨v.function, 0⟩
  · obtain ⟨v, hv, hfound, heq⟩ := hgained
    obtain rfl : g = v.function := congrArg ReturnSlot.function heq
    obtain ⟨callers', hcallers', hvisited⟩ := h.visited_of_caller hv hfound
    exact (hvisited f (hgraph.mem_callingFunctions hown hg hcallers')).resolve_left nofun
  · -- the values were known from the start
    have hinitial : errors.get? ⟨g, slot⟩ = some s := by
      rw [← hs]
      exact (h.get?_of_not_found fun v hv hfound heq => hgained ⟨v, hv, hfound, heq⟩).symm
    have hknown : g ∈ (errors.entries.filter (!·.2.isEmpty)).map (·.1.function) :=
      List.mem_map.mpr ⟨(⟨g, slot⟩, s), List.mem_filter.mpr
        ⟨Table.get?_eq_some_iff.mp hinitial, by simp [hsome]⟩, rfl⟩
    obtain ⟨callers', hmem, hcallers'⟩ := Checked.exists_mem_of_mapM hcallers hknown
    have hstack : f ∈ callers.flatten.reverse := List.mem_reverse.mpr (List.mem_flatten.mpr
      ⟨callers', hmem, hgraph.mem_callingFunctions hown hg hcallers'⟩)
    exact (h.visited_of_mem_stack hstack).resolve_left nofun

/-- **When the propagation to callers reaches a fixed point.** In the end nothing more is found in
the checks of a function that checks its own calls, unless the function was left behind: it was
visited before something was found about a function whose call it checks. -/
theorem checks_settled_or_leftBehind (hgraph : c.graph.Linked)
    (h : c.propagateChecked errors = .ok errors') :
    ∃ callers vs,
      ((errors.entries.filter (!·.2.isEmpty)).map (·.1.function)).mapM
        (c.graph.callingFunctions c.program) = .ok callers ∧
      c.Visits c.learnFromChecks callers.flatten.reverse [] errors vs errors' ∧
      ∀ f, (∀ call slot, c.ChecksCall f call slot → c.program.functionOf call = .ok f) →
        (∀ s, c.learnFromChecks errors' f ≠ .ok (some s)) ∨ c.LeftBehind vs f := by
  obtain ⟨out, h, hout⟩ := bind_eq_ok_iff.mp h
  obtain ⟨callers, vs, hcallers, hvs, -⟩ := exists_visits_of_visitCallers h
  rw [Except.ok.inj hout] at hvs
  refine ⟨callers, vs, hcallers, hvs, fun f hown => or_iff_not_imp_left.mpr fun hmore => ?_⟩
  obtain ⟨s, hs⟩ : ∃ s, c.learnFromChecks errors' f = .ok (some s) := by simpa using hmore
  obtain ⟨-, hnone, call, slot, g, set, hcheck, hg, hset, hsome⟩ :=
    checksCall_of_learnFromChecks hs
  -- something could still be learned about `f`, so it was visited and nothing was found then
  have hvisited := hvs.visited_of_checksCall hgraph hcallers (hown call slot hcheck) hg hset hsome
  obtain ⟨v, hv, rfl⟩ := List.mem_map.mp hvisited
  have hfound : v.found = none := by
    by_contra hfound
    rw [hvs.contains_of_found hv (Option.isSome_iff_ne_none.mpr hfound)] at hnone
    cases hnone
  obtain ⟨before, after, rfl⟩ := List.append_of_mem hv
  obtain ⟨hquiet, stack', seen', hafter⟩ := hvs.after_quiet hfound
  have hself : v.errors.contains ⟨v.function, 0⟩ = errors'.contains ⟨v.function, 0⟩ := by
    rw [hnone, Bool.eq_false_iff]
    intro hcontains
    rw [hafter.contains_of_contains hcontains] at hnone
    cases hnone
  -- what it learns from has changed since that visit, and only a later visit can have changed it
  obtain ⟨call, slot, hcheck, g, hg, hchanged⟩ := exists_changed_of_learnFromChecks hself hquiet hs
  obtain ⟨w, hw, hfound', heq⟩ : ∃ w ∈ after, w.found.isSome = true ∧
      (⟨g, slot⟩ : ReturnSlot) = ⟨w.function, 0⟩ := by
    by_contra hnever
    refine hchanged (hafter.get?_of_not_found fun w hw hfound heq => ?_).symm
    exact hnever ⟨w, hw, hfound, heq⟩
  obtain ⟨rfl, rfl⟩ := ReturnSlot.mk.inj heq
  exact ⟨before, v, after, call, w.function, rfl, rfl, hfound, hcheck, hg, w, hw, rfl, hfound'⟩

/-- `inner` checks `source` and returns `-2` if it fails. `outer` checks `inner` and returns `-3` if
that fails; it also calls `source`, without a check. -/
def innerAndOuter : List Directive :=
  [.module "m", .declare ⟨0⟩ "source" [] (.int 32),
    .declare ⟨0⟩ "inner" [] (.int 32), .declare ⟨0⟩ "outer" [] (.int 32),
    .define ⟨1⟩ [.block, .block, .block,
      .moveTo ⟨0⟩, .call ⟨0⟩ [], .cmp .slt (.inst ⟨0⟩) (.int 0 32), .branch (.inst ⟨1⟩) ⟨1⟩ ⟨2⟩,
      .moveTo ⟨1⟩, .ret (some (.int (-2) 32)), .moveTo ⟨2⟩, .ret (some (.int 0 32))],
    .define ⟨2⟩ [.block, .block, .block,
      .moveTo ⟨3⟩, .call ⟨1⟩ [], .cmp .slt (.inst ⟨5⟩) (.int 0 32), .branch (.inst ⟨6⟩) ⟨4⟩ ⟨5⟩,
      .moveTo ⟨4⟩, .ret (some (.int (-3) 32)),
      .moveTo ⟨5⟩, .call ⟨0⟩ [], .ret (some (.int 0 32))]]

/-- What is known of `source` alone. -/
def failingSource : ErrorTable := .ofList [(⟨⟨0⟩, 0⟩, .singleton (-1))]

/-- `outer` is visited as a caller of `source`, before `inner` is. -/
theorem innerAndOuter_run : ∃ c errors, ofDirectives innerAndOuter = .ok c ∧
    c.propagateChecked failingSource = .ok errors ∧
      c.learnFromChecks errors ⟨2⟩ = .ok (some (.singleton (-3))) ∧
      ∀ call slot, c.ChecksCall ⟨2⟩ call slot → c.program.functionOf call = .ok ⟨2⟩ := by
  obtain ⟨c, hc, errors, herrors, hfound, hcall?, howner, hlhs⟩ :
      ∃ c, ofDirectives innerAndOuter = .ok c ∧
      ∃ errors, c.propagateChecked failingSource = .ok errors ∧
      c.learnFromChecks errors ⟨2⟩ = .ok (some (.singleton (-3))) ∧
      c.program.callOf? (.inst ⟨5⟩) = .ok (some ⟨5⟩) ∧ c.program.functionOf ⟨5⟩ = .ok ⟨2⟩ ∧
      (c.conditionsOf ⟨2⟩).map Condition.lhs = [⟨.inst ⟨5⟩, 0⟩] := by decide +kernel
  refine ⟨c, errors, hc, herrors, hfound, ?_⟩
  rintro call slot ⟨lhs, pred, rhs, origin, fromBranch, hcond, hcall, -⟩
  have hmem : lhs ∈ (c.conditionsOf ⟨2⟩).map Condition.lhs := List.mem_map.mpr ⟨_, hcond, rfl⟩
  rw [hlhs, List.mem_singleton] at hmem
  obtain rfl := hmem
  obtain rfl := Option.some.inj (Except.ok.inj (hcall?.symm.trans hcall))
  exact howner

/-- In the end `outer` has no values, although it returns `-3` where `inner` fails. -/
theorem innerAndOuter_more_to_find : ∃ c errors, ofDirectives innerAndOuter = .ok c ∧
    c.propagateChecked failingSource = .ok errors ∧ c.canLearn ⟨2⟩ = .ok true ∧
      errors.contains ⟨⟨2⟩, 0⟩ = false ∧
      c.learnFromChecks errors ⟨2⟩ = .ok (some (.singleton (-3))) := by
  obtain ⟨c, errors, hc, herrors, hfound, -⟩ := innerAndOuter_run
  obtain ⟨hcan, hnone, -⟩ := checksCall_of_learnFromChecks hfound
  exact ⟨c, errors, hc, herrors, hcan, hnone, hfound⟩

/-- It was left behind when `inner` got its values. -/
theorem innerAndOuter_leftBehind : ∃ c errors callers vs, ofDirectives innerAndOuter = .ok c ∧
    c.graph.Linked ∧ c.propagateChecked failingSource = .ok errors ∧
      (∀ call slot, c.ChecksCall ⟨2⟩ call slot → c.program.functionOf call = .ok ⟨2⟩) ∧
      c.Visits c.learnFromChecks callers [] failingSource vs errors ∧ c.LeftBehind vs ⟨2⟩ := by
  obtain ⟨c, errors, hc, herrors, hfound, hown⟩ := innerAndOuter_run
  have hgraph := linked_of_ofDirectives hc
  obtain ⟨callers, vs, -, hvs, hall⟩ := checks_settled_or_leftBehind hgraph herrors
  refine ⟨c, errors, _, vs, hc, hgraph, herrors, hown, hvs, (hall ⟨2⟩ hown).resolve_left ?_⟩
  exact fun hsettled => hsettled _ hfound

end Context

end ErrorReturns
