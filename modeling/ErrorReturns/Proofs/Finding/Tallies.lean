import ErrorReturns.Proofs.CallGraph
import ErrorReturns.Proofs.Context.Inside
import ErrorReturns.Proofs.Finding.Turns
import Mathlib.Data.List.Basic
import Mathlib.Data.List.Perm.Subperm

/-!
# Tallies of missing checks

A function may be looked at in many rounds, each time with other failing calls, and its calls come
up again and again. What is counted is nevertheless a set of calls: a call is marked when it is
counted and never counted again, and of several calls that were inlined from the same place only the
first one counts. The calls that count (`Program.countedCalls`) can be read off the marks, and the
tallies are what is found when they are gone through once: how many of them may reach a function,
and how many of these have been reported (`MissingState.Tallied`).
-/

namespace ErrorReturns

open Checked (bind_eq_ok_iff)

/-! ## Calls that count -/

namespace Program

variable {p : Program}

variable (p) in
/-- Whether a call was inlined from the same place as one of some others. -/
def sharesInlined (call : InstId) (others : List InstId) : Bool :=
  (p.inlinedLoc? call).any fun loc => others.any fun other => p.inlinedLoc? other = some loc

variable (p) in
/-- **The calls that count** among marked ones, which are listed from the last to the first: all but
those that were inlined from the same place as an earlier one. -/
def countedCalls : List InstId → List InstId
  | [] => []
  | call :: earlier =>
    if p.sharesInlined call earlier then countedCalls earlier else call :: countedCalls earlier

theorem sharesInlined_iff {call : InstId} {others : List InstId} :
    p.sharesInlined call others = true ↔
      ∃ loc, p.inlinedLoc? call = some loc ∧ ∃ other ∈ others, p.inlinedLoc? other = some loc := by
  simp [sharesInlined, Option.any_eq_true]

theorem countedCalls_sublist (marked : List InstId) : (p.countedCalls marked).Sublist marked := by
  induction marked with
  | nil => exact .slnil
  | cons call earlier ih =>
    unfold countedCalls
    split
    · exact ih.cons call
    · exact ih.cons_cons call

/-- No two calls that count were inlined from the same place. -/
theorem eq_of_inlinedLoc? {marked : List InstId} {a b : InstId} (ha : a ∈ p.countedCalls marked)
    (hb : b ∈ p.countedCalls marked) {loc : SourceLoc} (hla : p.inlinedLoc? a = some loc)
    (hlb : p.inlinedLoc? b = some loc) : a = b := by
  induction marked with
  | nil => cases ha
  | cons call earlier ih =>
    unfold countedCalls at ha hb
    split at ha
    case isTrue hshares =>
      rw [if_pos hshares] at hb
      exact ih ha hb
    case isFalse hshares =>
      rw [if_neg hshares] at hb
      -- a call is counted only if none before it, counted or not, has its location
      have hnew : p.inlinedLoc? call = some loc → ∀ other ∈ p.countedCalls earlier,
          p.inlinedLoc? other ≠ some loc := by
        intro hcall other hother hloc
        have hmem := (countedCalls_sublist earlier).subset hother
        exact hshares (sharesInlined_iff.mpr ⟨loc, hcall, other, hmem, hloc⟩)
      rcases List.mem_cons.mp ha with rfl | ha' <;> rcases List.mem_cons.mp hb with rfl | hb'
      · rfl
      · exact absurd hlb (hnew hla b hb')
      · exact absurd hla (hnew hlb a ha')
      · exact ih ha' hb'

end Program

/-! ## Reports and tallies -/

/-- The calls of all candidates. -/
def Sites.calls (sites : Sites) : List InstId := sites.entries.flatMap fun e => e.2.map (·.call)

/-- Adding a candidate at a place adds its call. -/
theorem Sites.calls_add (sites : Sites) (site : Site) (x : Candidate) :
    (sites.add site x).calls.Perm (x.call :: sites.calls) := by
  show ((Table.place site (fun cs => cs.getD [] ++ [x]) sites.entries).flatMap
    fun e => e.2.map (·.call)).Perm (x.call :: sites.entries.flatMap fun e => e.2.map (·.call))
  induction sites.entries with
  | nil => exact .refl _
  | cons e rest ih =>
    unfold Table.place
    split
    · exact .refl _
    · simp only [List.flatMap_cons, Option.getD_some, List.map_append, List.map_cons, List.map_nil]
      rw [List.append_assoc]
      exact List.perm_middle
    · simp only [List.flatMap_cons]
      exact (ih.append_left _).trans List.perm_middle

namespace Tally

variable {tallies : Table FuncId Tally}

/-- **What recording a call changes**: the tallies of the functions that it may reach. -/
theorem get?_recordAll {callees : List FuncId} (hcallees : callees.Nodup) (bad : Bool)
    (g : FuncId) : (recordAll tallies callees bad).get? g =
      if g ∈ callees then some (((tallies.get? g).getD {}).record bad) else tallies.get? g := by
  induction callees generalizing tallies with
  | nil => rfl
  | cons f rest ih =>
    obtain ⟨hf, hrest⟩ := List.nodup_cons.mp hcallees
    rw [recordAll, List.foldl_cons, ← recordAll, ih hrest, Table.get?_update]
    by_cases hg : g = f
    · subst hg
      rw [if_neg hf, if_pos rfl, if_pos List.mem_cons_self]
    · simp only [List.mem_cons, hg, false_or, if_false]

end Tally

namespace Context

variable {c : Context}

variable (c) in
/-- How many of some calls may reach a function. -/
def reaching (g : FuncId) (calls : List InstId) : Nat :=
  calls.countP fun call => g ∈ c.graph.calleeList call

@[simp] theorem reaching_cons (g : FuncId) (call : InstId) (calls : List InstId) :
    c.reaching g (call :: calls) =
      c.reaching g calls + if g ∈ c.graph.calleeList call then 1 else 0 := by
  simp [reaching, List.countP_cons]

theorem reaching_le_of_subset (g : FuncId) {calls others : List InstId} (hcalls : calls.Nodup)
    (hsub : ∀ call ∈ calls, call ∈ others) : c.reaching g calls ≤ c.reaching g others := by
  rw [reaching, reaching, List.countP_eq_length_filter, List.countP_eq_length_filter]
  refine ((hcalls.filter _).subperm fun call hcall => ?_).length_le
  obtain ⟨hmem, hreaches⟩ := List.mem_filter.mp hcall
  exact List.mem_filter.mpr ⟨hsub call hmem, hreaches⟩

end Context

namespace MissingState

variable {c : Context} {s : MissingState}

/-- The tally of a function; one that never came up has seen nothing. -/
def tallyOf (s : MissingState) (g : FuncId) : Tally := (s.tallies.get? g).getD {}

/-- **What holds throughout a search**: the marks are on different calls, the reported calls are
among those that count, and the tallies agree with both. -/
structure Tallied (c : Context) (s : MissingState) : Prop where
  marked : s.visited.Nodup
  isCall : ∀ call ∈ s.visited, ∃ op, c.program.op call = .ok op ∧ op.isCall = true
  inlined : ∀ loc ∈ s.visitedInlined, ∃ call ∈ s.visited, c.program.inlinedLoc? call = some loc
  inlinedOf : ∀ call ∈ s.visited, ∀ loc, c.program.inlinedLoc? call = some loc →
    loc ∈ s.visitedInlined
  reported : s.sites.calls.Nodup
  counted : ∀ call ∈ s.sites.calls, call ∈ c.program.countedCalls s.visited
  bad : ∀ g, (s.tallyOf g).bad = c.reaching g s.sites.calls
  total : ∀ g, (s.tallyOf g).total = c.reaching g (c.program.countedCalls s.visited)

/-- Before a search nothing is counted. -/
theorem tallied_empty : Tallied c {} where
  marked := List.nodup_nil
  isCall := nofun
  inlined := nofun
  inlinedOf := nofun
  reported := List.nodup_nil
  counted := nofun
  bad _ := rfl
  total _ := rfl

/-- A call that was inlined from a place seen before is marked, and not counted again. -/
theorem Tallied.inlined_call (h : Tallied c s) {call : InstId} {op : Operation}
    (hop : c.program.op call = .ok op) (hcall : op.isCall = true) {loc : SourceLoc}
    (hnew : call ∉ s.visited) (hloc : c.program.inlinedLoc? call = some loc)
    (hseen : loc ∈ s.visitedInlined) : Tallied c { s with visited := call :: s.visited } := by
  have hshares : c.program.sharesInlined call s.visited = true :=
    Program.sharesInlined_iff.mpr ⟨loc, hloc, h.inlined loc hseen⟩
  have hcounted : c.program.countedCalls (call :: s.visited) = c.program.countedCalls s.visited :=
    if_pos hshares
  refine
    { h with
      marked := List.nodup_cons.mpr ⟨hnew, h.marked⟩
      isCall := List.forall_mem_cons.mpr ⟨⟨op, hop, hcall⟩, h.isCall⟩
      inlined := fun loc' hloc' => ?_
      inlinedOf := List.forall_mem_cons.mpr ⟨fun loc' hloc' => ?_, h.inlinedOf⟩
      counted := fun call' hcall' => hcounted ▸ h.counted call' hcall'
      total := fun g => hcounted ▸ h.total g }
  · obtain ⟨call', hcall', heq⟩ := h.inlined loc' hloc'
    exact ⟨call', List.mem_cons_of_mem call hcall', heq⟩
  · exact Option.some.inj (hloc.symm.trans hloc') ▸ hseen

/-- A call that counts is recorded with all functions that it may reach. -/
theorem Tallied.record (h : Tallied c s) {call : InstId} {op : Operation}
    (hop : c.program.op call = .ok op) (hcall : op.isCall = true) (hnew : call ∉ s.visited)
    (hloc : ∀ loc ∈ c.program.inlinedLoc? call, loc ∉ s.visitedInlined) {sites : Sites}
    (unchecked : Bool)
    (hsites : sites.calls.Perm (if unchecked then call :: s.sites.calls else s.sites.calls)) :
    Tallied c
      { tallies := Tally.recordAll s.tallies (c.graph.calleeList call) unchecked
        sites := sites
        visited := call :: s.visited
        visitedInlined := (c.program.inlinedLoc? call).toList ++ s.visitedInlined } := by
  -- the call is counted: no call visited before shares its inlined location, since every such
  -- location stands in `visitedInlined`
  have hshares : ¬ c.program.sharesInlined call s.visited = true := by
    rw [Program.sharesInlined_iff]
    rintro ⟨loc, hcall, other, hother, heq⟩
    exact hloc loc hcall (h.inlinedOf other hother loc heq)
  have hcounted : c.program.countedCalls (call :: s.visited) =
      call :: c.program.countedCalls s.visited := if_neg hshares
  have htally : ∀ g,
      ((Tally.recordAll s.tallies (c.graph.calleeList call) unchecked).get? g).getD {} =
      if g ∈ c.graph.calleeList call then (s.tallyOf g).record unchecked else s.tallyOf g := by
    intro g
    rw [Tally.get?_recordAll (c.graph.nodup_calleeList call)]
    split <;> rfl
  -- a reported call has been visited, so a new one is not yet among the reported
  have hfresh : call ∉ s.sites.calls := fun hmem =>
    hnew ((Program.countedCalls_sublist s.visited).subset (h.counted call hmem))
  refine
    { marked := List.nodup_cons.mpr ⟨hnew, h.marked⟩
      isCall := List.forall_mem_cons.mpr ⟨⟨op, hop, hcall⟩, h.isCall⟩
      inlined := fun loc hmem => ?inlined
      inlinedOf := List.forall_mem_cons.mpr
        ⟨fun loc hmem => ?own, fun other hother loc hmem => ?old⟩
      reported := ?reported
      counted := fun other hother => ?counted
      bad := fun g => ?misses
      total := fun g => ?total }
  case inlined =>
    rcases List.mem_append.mp hmem with hmem | hmem
    · exact ⟨call, List.mem_cons_self, Option.mem_toList.mp hmem⟩
    · obtain ⟨other, hother, heq⟩ := h.inlined loc hmem
      exact ⟨other, List.mem_cons_of_mem call hother, heq⟩
  case own => exact List.mem_append_left _ (Option.mem_toList.mpr hmem)
  case old => exact List.mem_append_right _ (h.inlinedOf other hother loc hmem)
  case reported =>
    refine hsites.nodup_iff.mpr ?_
    split
    · exact List.nodup_cons.mpr ⟨hfresh, h.reported⟩
    · exact h.reported
  case counted =>
    rw [hcounted]
    have hmem := hsites.mem_iff.mp hother
    split at hmem
    · exact (List.mem_cons.mp hmem).elim (· ▸ List.mem_cons_self)
        fun hmem => List.mem_cons_of_mem call (h.counted other hmem)
    · exact List.mem_cons_of_mem call (h.counted other hmem)
  -- both sides of the equation grow by one for the callees of the call and stay for the others
  case misses =>
    rw [tallyOf, htally, Context.reaching, hsites.countP_eq, ← Context.reaching]
    cases unchecked with
    | false =>
      rw [if_neg Bool.false_ne_true, ← h.bad]
      split <;> rfl
    | true =>
      rw [if_pos rfl, Context.reaching_cons, ← h.bad]
      split <;> rfl
  case total =>
    rw [tallyOf, htally, hcounted, Context.reaching_cons, ← h.total]
    split <;> rfl

/-- **Counting a call** leaves every count right. -/
theorem Tallied.counting (h : Tallied c s) {consumed : SortedSet InstId} {call : InstId}
    {op : Operation} (hop : c.program.op call = .ok op) (hcall : op.isCall = true)
    {s' : MissingState} (hcount : c.Counting consumed call s s') : Tallied c s' := by
  cases hcount with
  | skip => exact h
  | inlined hnew hloc hseen => exact h.inlined_call hop hcall hnew hloc hseen
  | handled hnew hloc _ => exact h.record hop hcall hnew hloc false (.refl _)
  | missing site _ _ hnew hloc _ =>
    exact h.record hop hcall hnew hloc true (s.sites.calls_add site ⟨call, none⟩)

/-- Every turn of the search keeps the tallies. -/
theorem Tallied.turn {a b : ErrorTable × MissingSearch} (h : Tallied c a.2.state)
    (hturn : c.Turn a b) : Tallied c b.2.state := by
  cases hturn with
  | begin => exact h
  | takeUp => simpa only [Context.state_takeUp] using h
  | passOn => simpa only [Context.state_passOn] using h
  | count _ hcandidates hcall _ _ hcount =>
    obtain ⟨-, ⟨op, hop, hisCall⟩, hfails⟩ := Context.of_mem_failingCalls hcandidates hcall
    exact h.counting hop hisCall (Context.counting_of_countCall hfails.calleeList_ne_nil hcount)
  | learn => exact h

end MissingState

namespace Context

variable {c : Context}

/-- **Every call counts at most once.** However often a function is looked at, no call is reported
twice, and of the calls that count no two were inlined from the same place. The tally of a function
says how many of the reported calls may reach it, and how many of those that count; so it is never
more than the number of all calls that may reach it. -/
theorem missing_tallies_count_once {k k' : Knowledge} {state : MissingState}
    (h : c.findMissing k = .ok (k', state)) :
    state.sites.calls.Nodup ∧ (c.program.countedCalls state.visited).Nodup ∧
      (∀ call ∈ state.sites.calls, call ∈ c.program.countedCalls state.visited) ∧
      (∀ a ∈ c.program.countedCalls state.visited, ∀ b ∈ c.program.countedCalls state.visited,
        ∀ loc, c.program.inlinedLoc? a = some loc → c.program.inlinedLoc? b = some loc → a = b) ∧
      ∀ g, (state.tallyOf g).bad = c.reaching g state.sites.calls ∧
        (state.tallyOf g).total = c.reaching g (c.program.countedCalls state.visited) ∧
        (state.tallyOf g).bad ≤ (state.tallyOf g).total ∧
        (state.tallyOf g).total ≤ (c.callsReaching g).length := by
  obtain ⟨s, htallied, -, rfl⟩ := findMissing_induction
    (P := fun a => MissingState.Tallied c a.2.state) (fun a b ha hturn => ha.turn hturn)
    MissingState.tallied_empty h
  have hsub := Program.countedCalls_sublist (p := c.program) s.state.visited
  have hcounted := htallied.marked.sublist hsub
  refine ⟨htallied.reported, hcounted, htallied.counted,
    fun a ha b hb loc => Program.eq_of_inlinedLoc? ha hb,
    fun g => ⟨htallied.bad g, htallied.total g, ?_, ?_⟩⟩
  · rw [htallied.bad, htallied.total]
    exact reaching_le_of_subset g htallied.reported htallied.counted
  · rw [htallied.total, reaching, List.countP_eq_length_filter]
    refine ((hcounted.filter _).subperm fun call hcall => ?_).length_le
    obtain ⟨hmem, hg⟩ := List.mem_filter.mp hcall
    obtain ⟨op, hop, hisCall⟩ := htallied.isCall call (hsub.subset hmem)
    exact mem_callsReaching hop hisCall (of_decide_eq_true hg)

/-- `pass` returns what `source` returns. `careless` ignores the result of `pass` three times, twice
in code that was inlined from the same place, and compares what `source` returns. -/
def carelessInlined : List Directive :=
  [.module "m", .declare ⟨0⟩ "source" [] (.int 32), .declare ⟨0⟩ "pass" [] (.int 32),
    .declare ⟨0⟩ "careless" [] .void,
    .define ⟨1⟩ [.call ⟨0⟩ [], .ret (some (.inst ⟨0⟩))],
    .define ⟨2⟩ [.setLoc (some ⟨⟨"util.h", 3, 1⟩, [⟨"main.c", 8, 5⟩]⟩), .call ⟨1⟩ [], .call ⟨1⟩ [],
      .setLoc none, .call ⟨1⟩ [], .call ⟨0⟩ [], .cmp .slt (.inst ⟨5⟩) (.int 0 32), .ret none]]

/-- `careless` is looked at in both rounds. In the first one the call of `source` is counted; in the
second one it is not counted again, and two of the three calls of `pass` are. -/
theorem carelessInlined_tallies_count_once : ∃ c k state,
    ofDirectives carelessInlined = .ok c ∧
      c.findMissing { errors := .ofList [(⟨⟨0⟩, 0⟩, .singleton (-1))] } = .ok (k, state) ∧
      state.visited = [⟨4⟩, ⟨3⟩, ⟨2⟩, ⟨5⟩] ∧
      c.program.countedCalls state.visited = [⟨4⟩, ⟨2⟩, ⟨5⟩] ∧ state.sites.calls = [⟨2⟩, ⟨4⟩] ∧
      state.tallyOf ⟨0⟩ = ⟨0, 1⟩ ∧ state.tallyOf ⟨1⟩ = ⟨2, 2⟩ ∧
      (state.tallyOf ⟨1⟩).bad = c.reaching ⟨1⟩ state.sites.calls ∧
      (state.tallyOf ⟨1⟩).total ≤ (c.callsReaching ⟨1⟩).length := by
  obtain ⟨c, hc, k, state, hk, hvisited, hcounted, hcalls, hsource, hpass⟩ :
      ∃ c, ofDirectives carelessInlined = .ok c ∧
      ∃ k state, c.findMissing { errors := .ofList [(⟨⟨0⟩, 0⟩, .singleton (-1))] } =
        .ok (k, state) ∧ state.visited = [⟨4⟩, ⟨3⟩, ⟨2⟩, ⟨5⟩] ∧
      c.program.countedCalls state.visited = [⟨4⟩, ⟨2⟩, ⟨5⟩] ∧ state.sites.calls = [⟨2⟩, ⟨4⟩] ∧
      state.tallyOf ⟨0⟩ = ⟨0, 1⟩ ∧ state.tallyOf ⟨1⟩ = ⟨2, 2⟩ := by decide +kernel
  obtain ⟨-, -, -, -, htallies⟩ := missing_tallies_count_once hk
  obtain ⟨hbad, -, -, htotal⟩ := htallies ⟨1⟩
  exact ⟨c, k, state, hc, hk, hvisited, hcounted, hcalls, hsource, hpass, hbad, htotal⟩

end Context

end ErrorReturns
