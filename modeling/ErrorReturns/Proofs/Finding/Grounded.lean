import ErrorReturns.Analysis
import ErrorReturns.Proofs.Finding.Turns
import ErrorReturns.Proofs.Learning.Grounded

/-!
# Finding keeps the tables in order

The search for missing checks is the last to write into what is known. In its rounds it adds
entries, replaces entries and joins values to entries, and when an entry is replaced it notes how
sure the new one is. Every turn of the search keeps knowledge in order
(`MissingSearch.Grounded.turn`), so it is in order at the end of every run
(`Analysis.tables_in_order_of_run`). The evidence of reports is taken from what is known and from
the sides of conditions.
-/

namespace ErrorReturns

open Checked
open RangeSet (Reachable)

/-! ## Candidates and reports -/

/-- A candidate whose sets of values can be made. -/
def Candidate.Made (cand : Candidate) : Prop :=
  ∀ sides ∈ cand.checked, Reachable sides.1 ∧ Reachable sides.2

/-- Places with candidates of this kind. -/
def Sites.Made (sites : Sites) : Prop :=
  Table.All (fun _ => True) (fun cs => ∀ cand ∈ cs, cand.Made) sites

theorem Sites.made_empty : Sites.Made {} := Table.all_empty

theorem Sites.Made.add {sites : Sites} (h : sites.Made) (site : Site) {cand : Candidate}
    (hcand : cand.Made) : (sites.add site cand).Made :=
  Sites.Each.add h site hcand

/-- A call without a condition says nothing about values. -/
theorem Candidate.made_unchecked (call : InstId) : Candidate.Made ⟨call, none⟩ :=
  fun _ h => absurd h (Option.not_mem_none _)

/-- A report whose evidence can be made. -/
def Violation.Made (v : Violation) : Prop := ∀ s ∈ v.evidence, Reachable s

/-- Sides whose sets of values can be made. -/
def Sides.Made (sides : Sides) : Prop := Reachable sides.satisfying ∧ Reachable sides.failing

theorem Sides.made_getD {sides? : Option Sides} (h : ∀ sides ∈ sides?, sides.Made) :
    (sides?.getD {}).Made := by
  cases sides? with
  | none => exact ⟨.empty, .empty⟩
  | some sides => exact h sides rfl

theorem Sides.Made.add {sides : Sides} (h : sides.Made) (pred : Predicate) {v : Value} {w : Int}
    (hw : v.word32? = some w) : (sides.add pred w).Made :=
  ⟨.union h.1 (RangeSet.reachable_narrow_full pred hw),
    .union h.2 (RangeSet.reachable_narrow_full pred.inverse hw)⟩

/-- **What is shown in a report**: the known values together come first, then the two sides of each
check. -/
theorem Scorer.reachable_evidence {K : ReturnSlot → Prop} {s : Scorer}
    (herrors : Table.All K Reachable s.errors) (callees : List FuncId) {candidates : List Candidate}
    (hcandidates : ∀ cand ∈ candidates, cand.Made) :
    ∀ t ∈ s.evidence callees candidates, Reachable t := by
  refine List.forall_mem_cons.mpr ⟨?_, fun t ht => ?_⟩
  · refine RangeSet.reachable_foldl_union (fun t ht => ?_) .empty
    obtain ⟨f, -, ht⟩ := List.mem_filterMap.mp (List.mem_of_mem_filter ht)
    exact herrors.get? ht
  · obtain ⟨sides, hsides, ht⟩ := List.mem_flatMap.mp ht
    obtain ⟨cand, hcand, hsides⟩ := List.mem_filterMap.mp hsides
    obtain ⟨hsatisfying, hfailing⟩ := hcandidates cand hcand sides hsides
    simp only [List.mem_cons, List.not_mem_nil, or_false] at ht
    rcases ht with rfl | rfl
    · exact hsatisfying
    · exact hfailing

/-! ## Missing checks -/

/-- **A search in order**: what is known, what the round has brought, and the candidates. -/
structure MissingSearch.Grounded (errors : ErrorTable) (s : MissingSearch) : Prop where
  known : errors.Made
  learned : s.round.learned.Made
  replaced : s.round.replaced.Made
  sites : s.state.sites.Made
  backed : Knowledge.Backed ⟨errors, s.confidence⟩

namespace Context

variable {c : Context} {errors : ErrorTable}

/-- A comparison proposes values that can be reached by set operations. -/
theorem ensures_proposeComparison (path : List BlockId) (cmp : InstId) (pred : Predicate)
    (lhs rhs : Value) {prop : Proposal} (hprop : Reachable prop.values) :
    Ensures (fun prop => Reachable prop.values)
      (c.proposeComparison errors path cmp pred lhs rhs prop) := by
  refine (ensures_eq _).bind fun checked? _ => ?_
  cases checked? with
  | none => exact meets_pure hprop
  | some checked =>
    refine (ensures_eq _).bind fun call? _ => ?_
    cases call? with
    | none => exact meets_pure hprop
    | some call =>
      dsimp only
      cases rhs.word32? with
      | none => exact meets_pure hprop
      | some rhs =>
        dsimp only
        cases errors.errorBranch? c.graph pred 0 rhs call with
        | none => exact meets_pure hprop
        | some errorWhenTrue =>
          cases errorWhenTrue with
          | false => exact meets_pure (.union hprop (.singleton (by decide)))
          | true =>
            refine (ensures_eq _).bind fun extended _ => ?_
            cases extended <;> exact meets_pure (.union hprop (.singleton (by decide)))

/-- So does a call, from the error values of its callees. -/
theorem reachable_proposeCall {K : ReturnSlot → Prop} (herrors : Table.All K Reachable errors)
    (call : InstId) {prop : Proposal} (hprop : Reachable prop.values) :
    Reachable (c.proposeCall errors call prop).values := by
  refine .union hprop (List.foldlRecOn (motive := Reachable) _ _ .full fun s hs e he => ?_)
  refine .inter hs ?_
  obtain ⟨f, -, he⟩ := List.mem_filterMap.mp he
  obtain ⟨known, hknown, he⟩ := Option.bind_eq_some_iff.mp he
  split at he
  · cases he
  · obtain rfl := Option.some.inj he
    exact herrors.get? hknown

/-- A path proposes what its branches and its end propose. -/
theorem ensures_proposeFromPath (herrors : errors.Made) (path : List BlockId)
    {acc : Proposal × List InstId} (hacc : Reachable acc.1.values) :
    Ensures (fun acc => Reachable acc.1.values) (c.proposeFromPath errors acc path) := by
  refine (ensures_eq _).bind fun v? _ => ?_
  cases v? with
  | none => exact meets_pure hacc
  | some v =>
    refine (ensures_eq _).bind fun resolved? _ => ?_
    cases resolved? with
    | none => exact meets_pure hacc
    | some resolved =>
      refine (ensures_eq _).bind fun op? _ => ?_
      split
      · exact (ensures_proposeComparison path _ _ _ _ hacc).map fun _ h => h
      · exact meets_pure (reachable_proposeCall herrors _ hacc)
      · exact meets_pure hacc

/-- **What is proposed for a function** is a set that can be made. -/
theorem ensures_proposal (herrors : errors.Made) (candidates : SortedSet InstId) :
    Ensures (fun out => Reachable out.1.values) (c.proposal errors candidates) := by
  refine (ensures_eq _).bind fun roots _ => ?_
  refine meets_foldlM (I := fun acc : Proposal × List InstId => Reachable acc.1.values)
    (fun acc hacc root _ => (ensures_eq _).bind fun paths _ => ?_) .empty
  exact meets_foldlM (fun acc hacc path _ => ensures_proposeFromPath herrors path hacc) hacc

end Context

theorem Context.Round.all_apply {K : ReturnSlot → Prop} {r : Round}
    (hlearned : Table.All K Reachable r.learned) (hreplaced : Table.All K Reachable r.replaced)
    {errors : ErrorTable} (herrors : Table.All K Reachable errors) :
    Table.All K Reachable (Round.apply r errors) := by
  refine ErrorTable.all_mergeUnion ?_ hlearned
  refine List.foldlRecOn (motive := Table.All K Reachable) _ _ herrors fun t ht e he => ?_
  exact ht.insert (hreplaced e he).1 (hreplaced e he).2

namespace MissingSearch.Grounded

variable {c : Context} {errors : ErrorTable} {s : MissingSearch}

/-- How sure a proposal is will be noted only if it replaces an entry. -/
theorem takeUp (h : Grounded errors s) (f : FuncId) {prop : Proposal}
    (hprop : Reachable prop.values) : Grounded errors (Context.takeUp errors f prop s) := by
  unfold Context.takeUp
  dsimp only
  split
  case isTrue hknown =>
    split
    · exact
        { h with
          replaced := ErrorTable.all_insertIfNew h.replaced trivial hprop
          backed := h.backed.note hknown _ }
    · exact h
  case isFalse =>
    exact { h with learned := ErrorTable.all_insertIfNew h.learned trivial hprop }

theorem passOn (h : Grounded errors s) (f caller : FuncId) :
    Grounded errors (Context.passOn f s caller) := by
  unfold Context.passOn
  split
  · exact h
  · exact { h with }

theorem count (h : Grounded errors s) {consumed : SortedSet InstId} {call : InstId}
    {state : MissingState} (hcount : c.Counting consumed call s.state state) :
    Grounded errors { s with state := state } := by
  cases hcount with
  | skip => exact h
  | inlined => exact { h with }
  | handled => exact { h with }
  | missing site => exact { h with sites := h.sites.add site (Candidate.made_unchecked call) }

/-- What a round has brought becomes known, and nothing is taken away. -/
theorem learn (h : Grounded errors s) : Grounded (Context.Round.apply s.round errors) s :=
  { h with
    known := Context.Round.all_apply h.learned h.replaced h.known
    backed := h.backed.of_errors fun _ => Context.contains_apply_of_contains }

/-- **Every turn keeps a search in order.** -/
theorem turn {a b : ErrorTable × MissingSearch} (h : Grounded a.1 a.2) (hturn : c.Turn a b) :
    Grounded b.1 b.2 := by
  cases hturn with
  | begin => exact { h with learned := Table.all_empty, replaced := Table.all_empty }
  | takeUp hprop => exact h.takeUp _ ((Context.ensures_proposal h.known _).of_eq_ok hprop)
  | passOn => exact h.passOn _ _
  | count _ hcandidates hcall _ _ hcount =>
    have hfails := (Context.of_mem_failingCalls hcandidates hcall).2.2
    exact h.count (Context.counting_of_countCall hfails.calleeList_ne_nil hcount)
  | learn => exact h.learn

end MissingSearch.Grounded

namespace Context

variable {c : Context} {errors : ErrorTable}

/-- **The search for missing checks keeps knowledge in order**, and its reports too. -/
theorem ensures_findMissing {k : Knowledge} (hk : k.Grounded) :
    Ensures (fun out => out.1.Grounded ∧ out.2.sites.Made) (c.findMissing k) := by
  refine (ensures_eq _).imp fun ⟨k', state⟩ h => ?_
  have hstart : MissingSearch.Grounded k.errors { confidence := k.confidence } :=
    { known := hk.errors
      learned := Table.all_empty
      replaced := Table.all_empty
      sites := Sites.made_empty
      backed := hk.backed }
  obtain ⟨s, hs, hconfidence, rfl⟩ := findMissing_induction
    (P := fun a => MissingSearch.Grounded a.1 a.2) (fun _ _ ha hturn => ha.turn hturn) hstart h
  exact ⟨⟨hs.known, fun slot hslot => hs.backed slot (hconfidence ▸ hslot)⟩, hs.sites⟩

/-! ## Incorrect checks -/

/-- The two sides of each check are made by set operations. -/
theorem ensures_sidesOf (f : FuncId) :
    Ensures (Table.All (fun _ => True) Sides.Made) (c.sidesOf f) := by
  refine meets_foldlM (fun t ht cond _ => ?_) Table.all_empty
  cases cond with
  | fallback => exact meets_pure ht
  | comparison lhs pred rhs =>
    dsimp only
    cases hrhs : rhs.word32? with
    | none => exact meets_pure ht
    | some w =>
      refine (ensures_eq _).bind fun call? _ => ?_
      cases call? with
      | none => exact meets_pure ht
      | some call =>
        exact meets_pure (ht.update trivial fun old hold => (Sides.made_getD hold).add pred hrhs)

/-- A verdict reports the sides that it was given. -/
theorem ensures_judge {e : IncorrectEvidence} (he : ∀ x ∈ e.candidates, x.2.Made)
    (checked : CheckedCall) {sides : Sides} (hsides : sides.Made) :
    Ensures (fun e => ∀ x ∈ e.candidates, x.2.Made) (c.judge errors e checked sides) := by
  unfold judge
  split
  · dsimp only
    split
    · exact meets_pure he
    · refine (ensures_eq _).map fun site _ => ?_
      refine List.forall_mem_append.mpr ⟨he, List.forall_mem_singleton.mpr fun x hx => ?_⟩
      exact Option.some.inj hx ▸ hsides
  · exact meets_pure he

/-- The reports on incorrect checks hold sets in order. -/
theorem ensures_findIncorrect (errors : ErrorTable) :
    Ensures (fun s => s.sites.Made) (c.findIncorrect errors) := by
  refine ensures_foldAnalysed (I := fun s : IncorrectState => s.sites.Made) (fun s hs f => ?_)
    Sites.made_empty
  have hchecks : Ensures (fun e : IncorrectEvidence => ∀ x ∈ e.candidates, x.2.Made)
      (c.incorrectChecks errors f) :=
    (ensures_sidesOf f).bind fun t ht => meets_foldlM
      (fun e he x hx => ensures_judge he x.1 (ht x hx).2) fun _ hx => absurd hx List.not_mem_nil
  refine hchecks.map fun e he => ?_
  exact List.foldlRecOn (motive := Sites.Made) _ _ hs fun _ hsites x hx => hsites.add x.1 (he x hx)

/-! ## Reports -/

/-- Every report that is scored shows sets in order as its evidence. -/
theorem ensures_score (herrors : errors.Made) (kind : ViolationKind) {sites : Sites}
    (hsites : sites.Made) (tallies : Table FuncId Tally) (threshold : Float) :
    Ensures (fun vs => ∀ v ∈ vs, v.Made)
      (Scorer.score ⟨c.program, c.graph, errors⟩ kind sites tallies threshold) := by
  refine meets_filterMapM fun e he => ?_
  unfold Scorer.report?
  split
  · split
    · refine (ensures_eq _).bind fun allPure _ => ?_
      split
      · exact meets_none
      · dsimp only
        split
        · exact meets_none
        · refine (ensures_eq _).bind fun names _ => ?_
          exact meets_some (Scorer.reachable_evidence (s := ⟨c.program, c.graph, errors⟩) herrors _
            (hsites e he).2)
    · exact meets_none
  · exact meets_none

/-- Reports on values that are cut off show the values that were known. -/
theorem ensures_findTruncations {k : Knowledge} (hk : k.errors.Made) :
    Ensures (fun vs => ∀ v ∈ vs, v.Made) (c.findTruncations k) := by
  have hreport : ∀ f s call user, Reachable s →
      Ensures Violation.Made (c.truncationReport k f s call user) := fun f s call user hs =>
    (ensures_eq _).bind fun _ _ => (ensures_eq _).bind fun _ _ =>
      (ensures_eq _).map fun _ _ => List.forall_mem_singleton.mpr hs
  refine Meets.map (meets_mapM_flatten fun e he => ?_) fun _ h => h
  unfold truncationsOf
  split
  · refine Meets.map (meets_mapM_flatten fun call _ => ?_) fun _ h => h
    refine (ensures_eq _).bind fun caller _ => ?_
    split
    · exact meets_nil
    · refine (ensures_eq _).bind fun users _ => (ensures_eq _).bind fun tested _ => ?_
      split
      · exact meets_nil
      · refine (ensures_eq _).bind fun cuts _ => ?_
        exact meets_mapM fun user _ => hreport _ _ _ _ (hk e he).2
  · exact meets_nil

/-- So do those on comparisons that are unsigned. -/
theorem ensures_findSignedness {k : Knowledge} (hk : k.errors.Made) :
    Ensures (fun vs => ∀ v ∈ vs, v.Made) (c.findSignedness k) := by
  refine Meets.map (meets_filterMapM (Q := fun t : TypedSlot => Reachable t.values)
    fun e he => ?_) fun typed htyped v hv => ?_
  · refine (ensures_eq _).bind fun function _ => ?_
    split
    · exact meets_none
    · refine meets_pure fun t ht => ?_
      obtain ⟨name, -, rfl⟩ := Option.map_eq_some_iff.mp ht
      exact (hk e he).2
  · obtain ⟨t, ht, rfl⟩ := List.mem_map.mp hv
    exact List.forall_mem_singleton.mpr (htyped t (List.mem_of_mem_filter ht))

/-- **Finding violations keeps knowledge in order**, and its evidence can be made. -/
theorem ensures_find {k : Knowledge} (hk : k.Grounded) :
    Ensures (fun out => (∀ v ∈ out.1, v.Made) ∧ out.2.Grounded) (c.find k) := by
  refine (ensures_findMissing hk).bind fun ⟨k, missing⟩ ⟨hk, hmissing⟩ => ?_
  refine (ensures_findIncorrect k.errors).bind fun incorrect hincorrect => ?_
  refine (ensures_score hk.errors .missing hmissing _ _).bind fun vs₁ h₁ => ?_
  refine (ensures_score hk.errors .incorrect hincorrect _ _).bind fun vs₂ h₂ => ?_
  refine (ensures_findTruncations hk.errors).bind fun vs₃ h₃ => ?_
  refine (ensures_findSignedness hk.errors).map fun vs₄ h₄ => ⟨?_, hk⟩
  simp only [List.forall_mem_append]
  exact ⟨⟨⟨h₁, h₂⟩, h₃⟩, h₄⟩

end Context

/-! ## Whole runs -/

/-- **An outcome in order**: every set of values in it is canonical, and how sure something is has
been noted for slots with error values only. -/
structure Outcome.InOrder (o : Outcome) : Prop where
  errors : ∀ e ∈ o.knowledge.errors.entries, e.2.Canonical
  observed : ∀ e ∈ o.learned.observed.entries, ∀ x ∈ e.2.entries, x.1.Canonical
  evidence : ∀ v ∈ o.violations, ∀ s ∈ v.evidence, s.Canonical
  confidence : ∀ slot, o.knowledge.confidence.contains slot = true →
    o.knowledge.errors.contains slot = true

namespace Analysis

/-- **Every run leaves its tables in order**, whatever the program, the call graph, the oracle and
the settings are, as long as there is an outcome. -/
theorem tables_in_order_of_run {a : Analysis} {o : Outcome} (h : a.run = .ok o) : o.InOrder := by
  simp only [run, bind_eq_ok_iff, pure_eq_ok, Except.ok.injEq] at h
  obtain ⟨⟨c, rejected⟩, -, ⟨learned, k⟩, hlearn, ⟨violations, k'⟩, hfind, rfl⟩ := h
  obtain ⟨hobserved, hk⟩ := (Context.ensures_learn Knowledge.grounded_empty).of_eq_ok hlearn
  obtain ⟨hevidence, hk'⟩ := (Context.ensures_find hk).of_eq_ok hfind
  exact
    { errors := fun e he => (hk'.errors e he).2.canonical
      observed := fun e he x hx => ((hobserved e he).2 x hx).1.canonical
      evidence := fun v hv s hs => (hevidence v hv s hs).canonical
      confidence := hk'.backed }

/-- `careful` checks `source` twice, `pass` returns what `source` does, and `careless` cuts what
`pass` returns to eight bits. -/
def passedOnSource : List Directive :=
  [.module "m", .declare ⟨0⟩ "source" [] (.int 32), .declare ⟨0⟩ "log" [] .void,
    .declare ⟨0⟩ "careful" [] .void, .declare ⟨0⟩ "pass" [] (.int 32),
    .declare ⟨0⟩ "careless" [] .void,
    .define ⟨2⟩ [.block, .block, .block, .block, .block,
      .moveTo ⟨0⟩, .call ⟨0⟩ [], .cmp .slt (.inst ⟨0⟩) (.int 0 32), .branch (.inst ⟨1⟩) ⟨1⟩ ⟨2⟩,
      .moveTo ⟨1⟩, .call ⟨1⟩ [], .ret none,
      .moveTo ⟨2⟩, .call ⟨0⟩ [], .cmp .slt (.inst ⟨5⟩) (.int 0 32), .branch (.inst ⟨6⟩) ⟨3⟩ ⟨4⟩,
      .moveTo ⟨3⟩, .call ⟨1⟩ [], .ret none,
      .moveTo ⟨4⟩, .ret none],
    .define ⟨3⟩ [.call ⟨0⟩ [], .ret (some (.inst ⟨11⟩))],
    .define ⟨4⟩ [.call ⟨3⟩ [], .cast .trunc (.inst ⟨13⟩) (.int 8), .ret none]]

/-- Error values are observed of `source` and passed on to `pass`; only for the first it is noted
how sure they are. -/
theorem passedOnSource_tables_in_order : ∃ p a o,
    Program.build passedOnSource = .ok p ∧ Analysis.ofProgram p {} = .ok a ∧ a.run = .ok o ∧
    o.knowledge.errors.keys = [⟨⟨0⟩, 0⟩, ⟨⟨3⟩, 0⟩] ∧ o.knowledge.confidence.keys = [⟨⟨0⟩, 0⟩] ∧
    o.learned.observed.keys = [⟨⟨0⟩, 0⟩] ∧ o.violations.map (·.kind) = [.truncation] ∧
    o.InOrder := by
  obtain ⟨p, hp, a, ha, o, ho, herrors, hconfidence, hobserved, hkinds⟩ :
      ∃ p, Program.build passedOnSource = .ok p ∧ ∃ a, Analysis.ofProgram p {} = .ok a ∧
      ∃ o, a.run = .ok o ∧ o.knowledge.errors.keys = [⟨⟨0⟩, 0⟩, ⟨⟨3⟩, 0⟩] ∧
      o.knowledge.confidence.keys = [⟨⟨0⟩, 0⟩] ∧ o.learned.observed.keys = [⟨⟨0⟩, 0⟩] ∧
      o.violations.map (·.kind) = [.truncation] := by decide +kernel
  exact ⟨p, a, o, hp, ha, ho, herrors, hconfidence, hobserved, hkinds, tables_in_order_of_run ho⟩

end Analysis

end ErrorReturns
