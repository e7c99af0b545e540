import ErrorReturns.Learning.Handlers
import ErrorReturns.Proofs.Comparison
import ErrorReturns.Proofs.Context.Valid
import ErrorReturns.Proofs.Knowledge
import ErrorReturns.Proofs.Learning.Merging
import ErrorReturns.Proofs.RangeSet.Membership

/-!
# The side that handlers mark

Handlers mark one side of a block: the successor from which the chain of blocks calls more of them
than from any other one (`Program.HandlesMost`). There is at most one such side, and it is the one
that is found (`Program.errorSuccessor?_eq_some_iff`).

A branch has two sides and one condition, so that it is enough to know on which side the handlers
are. A switch has one condition for each case, and they share the block. All of them are decided by
the one side that handlers mark, but the values of each are those of its own case. These values are
on the marked side exactly if the case itself leads there
(`Context.switch_evidence_on_error_side_iff`); for the other cases the evidence is about values that
the switch sends elsewhere (`Context.loggedCase_evidence_elsewhere`).
-/

namespace ErrorReturns

open Checked

/-! ## The lead among successors -/

namespace Lead

variable {past rest counted : List (BlockId × Nat)} {lead : Lead} {s : BlockId} {calls : Nat}

/-- **What a lead says about some successors**: it is one of them, none has more calls, and it is
tied exactly if another one has as many. -/
structure Of (counted : List (BlockId × Nat)) (lead : Lead) : Prop where
  listed : (lead.block, lead.calls) ∈ counted
  most : ∀ e ∈ counted, e.2 ≤ lead.calls
  tied : lead.tied = true ↔ ∃ e ∈ counted, e.1 ≠ lead.block ∧ e.2 = lead.calls

theorem of_first (s : BlockId) (calls : Nat) : Of [(s, calls)] (after none (s, calls)) where
  listed := List.mem_singleton_self _
  most := List.forall_mem_singleton.mpr (Nat.le_refl calls)
  tied := iff_of_false Bool.false_ne_true fun ⟨_, he, hne, _⟩ =>
    hne (congrArg Prod.fst (List.mem_singleton.mp he))

/-- A lead that is overtaken was not tied with the one who overtakes it, and neither is anyone
else. -/
theorem of_overtaken (h : lead.Of past) (hlt : lead.calls < calls) :
    Of (past ++ [(s, calls)]) { block := s, calls } where
  listed := List.mem_append_right _ (List.mem_singleton_self _)
  most := List.forall_mem_append.mpr ⟨fun e he => Nat.le_trans (h.most e he) (Nat.le_of_lt hlt),
    List.forall_mem_singleton.mpr (Nat.le_refl calls)⟩
  tied := by
    refine iff_of_false Bool.false_ne_true ?_
    rintro ⟨e, he, hne, heq⟩
    rcases List.mem_append.mp he with he | he
    · have hle := h.most e he
      dsimp only at heq
      omega
    · exact hne (congrArg Prod.fst (List.mem_singleton.mp he))

/-- **One more successor.** -/
theorem Of.after (h : lead.Of past) (hnew : ∀ e ∈ past, e.1 ≠ s) :
    (Lead.after (some lead) (s, calls)).Of (past ++ [(s, calls)]) := by
  have hother : lead.block ≠ s := hnew _ h.listed
  rw [Lead.after]
  split
  case isTrue hlt =>
    refine ⟨List.mem_append_left _ h.listed, ?_, ?_⟩
    · exact List.forall_mem_append.mpr ⟨h.most, List.forall_mem_singleton.mpr (Nat.le_of_lt hlt)⟩
    · simp [h.tied, or_and_right, exists_or, Nat.ne_of_lt hlt]
  case isFalse hge =>
    split
    case isTrue heq =>
      refine ⟨List.mem_append_left _ h.listed, ?_, ?_⟩
      · exact List.forall_mem_append.mpr ⟨h.most,
          List.forall_mem_singleton.mpr (Nat.le_of_eq heq)⟩
      · exact iff_of_true rfl ⟨(s, calls), by simp, Ne.symm hother, heq⟩
    case isFalse hne => exact of_overtaken h (by omega)

/-- **All successors**, one after the other. -/
theorem Of.foldl (h : lead.Of past) (hkeys : ((past ++ rest).map (·.1)).Nodup) :
    ∃ lead', rest.foldl (fun lead? e => some (Lead.after lead? e)) (some lead) = some lead' ∧
      lead'.Of (past ++ rest) := by
  induction rest generalizing past lead with
  | nil => exact ⟨lead, rfl, by rwa [List.append_nil]⟩
  | cons e rest ih =>
    obtain ⟨s, calls⟩ := e
    have hnew : ∀ e ∈ past, e.1 ≠ s := by
      rw [List.map_append, List.nodup_append] at hkeys
      exact fun e he => hkeys.2.2 e.1 (List.mem_map_of_mem he) s (by simp)
    rw [List.append_cons] at hkeys ⊢
    exact ih (h.after hnew) hkeys

theorem exists_among? (hkeys : (counted.map (·.1)).Nodup) (hne : counted ≠ []) :
    ∃ lead, among? counted = some lead ∧ lead.Of counted := by
  cases counted with
  | nil => exact absurd rfl hne
  | cons e rest =>
    have hkeys : (([(e.1, e.2)] ++ rest).map (·.1)).Nodup := hkeys
    exact (of_first e.1 e.2).foldl hkeys

/-- **The winner** has calls, and more than all others. -/
theorem Of.winner?_eq_some_iff (h : lead.Of counted) :
    lead.winner? = some s ↔
      ∃ n, (s, n) ∈ counted ∧ 0 < n ∧ ∀ t m, (t, m) ∈ counted → t = s ∨ m < n := by
  have hwins : lead.winner? = some s ↔ (0 < lead.calls ∧ lead.tied = false) ∧ lead.block = s := by
    simp [winner?]
  rw [hwins]
  constructor
  · rintro ⟨⟨hpos, halone⟩, rfl⟩
    refine ⟨lead.calls, h.listed, hpos, fun t m htm => or_iff_not_imp_left.mpr fun hne => ?_⟩
    refine Nat.lt_of_le_of_ne (h.most _ htm) fun heq => ?_
    rw [h.tied.mpr ⟨(t, m), htm, hne, heq⟩] at halone
    cases halone
  · rintro ⟨n, hs, hpos, hmost⟩
    have hle : n ≤ lead.calls := h.most _ hs
    have hblock : lead.block = s := (hmost _ _ h.listed).resolve_right (Nat.not_lt.mpr hle)
    refine ⟨⟨Nat.lt_of_lt_of_le hpos hle, Bool.eq_false_iff.mpr fun htied => ?_⟩, hblock⟩
    -- whoever ties the lead would have fewer calls than it
    obtain ⟨e, he, hne, heq⟩ := h.tied.mp htied
    have hlt := (hmost e.1 e.2 he).resolve_left (hblock ▸ hne)
    omega

/-- **One pass finds the only one with the most calls**, if there is one. -/
theorem winner?_among?_eq_some_iff (hkeys : (counted.map (·.1)).Nodup) :
    (among? counted).bind winner? = some s ↔
      ∃ n, (s, n) ∈ counted ∧ 0 < n ∧ ∀ t m, (t, m) ∈ counted → t = s ∨ m < n := by
  by_cases hne : counted = []
  · subst hne
    exact iff_of_false (Option.some_ne_none s ·.symm) fun ⟨_, hs, _⟩ => List.not_mem_nil hs
  · obtain ⟨lead, hlead, hof⟩ := exists_among? hkeys hne
    rw [hlead, Option.bind_some]
    exact hof.winner?_eq_some_iff

end Lead

namespace Program

variable {p : Program} {g : CallGraph} {handlers : SortedSet FuncId} {b s t : BlockId}

variable (p g handlers) in
/-- **The side with the most handlers**: a successor from which the chain of blocks calls handlers,
and more of them than from any other successor. -/
def HandlesMost (b s : BlockId) : Prop :=
  s ∈ p.successors b ∧ ∃ n, p.countHandlerCalls g handlers (p.chainForward s) = .ok n ∧ 0 < n ∧
    ∀ t ∈ p.successors b, t ≠ s →
      ∃ m, p.countHandlerCalls g handlers (p.chainForward t) = .ok m ∧ m < n

/-- At most one successor leads to more calls of handlers than all others. -/
theorem HandlesMost.unique (hs : p.HandlesMost g handlers b s)
    (ht : p.HandlesMost g handlers b t) : s = t := by
  obtain ⟨hs, n, hn, -, hmost⟩ := hs
  obtain ⟨ht, m, hm, -, hmost'⟩ := ht
  by_contra hne
  obtain ⟨m', hm', hlt⟩ := hmost t ht (Ne.symm hne)
  obtain ⟨n', hn', hlt'⟩ := hmost' s hs hne
  obtain rfl := Except.ok.inj (hm.symm.trans hm')
  obtain rfl := Except.ok.inj (hn.symm.trans hn')
  omega

/-- Every successor is counted once. -/
theorem nodup_keys_of_counted {successors : List BlockId} {counted : List (BlockId × Nat)}
    (h : ((SortedSet.ofList successors).toList.mapM fun s =>
      return (s, ← p.countHandlerCalls g handlers (p.chainForward s))) = .ok counted) :
    (counted.map (·.1)).Nodup := by
  have hkeys : counted.map (·.1) = (SortedSet.ofList successors).toList := by
    refine map_eq_of_mapM h fun s e he => ?_
    obtain ⟨n, -, he⟩ := bind_eq_ok_iff.mp he
    exact congrArg Prod.fst (Except.ok.inj he).symm
  rw [hkeys]
  exact (SortedSet.ofList successors).nodup_toList

/-- **The successor that is found** is the side with the most handlers. -/
theorem errorSuccessor?_eq_some_iff {s? : Option BlockId}
    (h : p.errorSuccessor? g handlers b = .ok s?) :
    s? = some s ↔ p.HandlesMost g handlers b s := by
  simp only [errorSuccessor?, bind_eq_ok_iff, pure_eq_ok, Except.ok.injEq] at h
  obtain ⟨counted, hcounted, rfl⟩ := h
  have hkeys := nodup_keys_of_counted hcounted
  have hlisted : ∀ t ∈ p.successors b, ∃ m, (t, m) ∈ counted ∧
      p.countHandlerCalls g handlers (p.chainForward t) = .ok m := by
    intro t ht
    obtain ⟨e, he, heq⟩ := exists_mem_of_mapM hcounted (SortedSet.mem_ofList.mpr ht)
    obtain ⟨m, hm, heq⟩ := bind_eq_ok_iff.mp heq
    exact ⟨m, Except.ok.inj heq ▸ he, hm⟩
  have hcount : ∀ t m, (t, m) ∈ counted → t ∈ p.successors b ∧
      p.countHandlerCalls g handlers (p.chainForward t) = .ok m := by
    intro t m htm
    obtain ⟨t', ht', heq⟩ := exists_of_mem_mapM hcounted htm
    obtain ⟨m', hm', heq⟩ := bind_eq_ok_iff.mp heq
    obtain ⟨rfl, rfl⟩ := Prod.mk.inj (Except.ok.inj heq)
    exact ⟨SortedSet.mem_ofList.mp ht', hm'⟩
  refine (Lead.winner?_among?_eq_some_iff hkeys).trans ⟨?_, ?_⟩
  · rintro ⟨n, hs, hpos, hmost⟩
    obtain ⟨hs, hn⟩ := hcount s n hs
    refine ⟨hs, n, hn, hpos, fun t ht hne => ?_⟩
    obtain ⟨m, hmem, hm⟩ := hlisted t ht
    exact ⟨m, hm, (hmost t m hmem).resolve_left hne⟩
  · rintro ⟨hs, n, hn, hpos, hmost⟩
    obtain ⟨n', hmem, hn'⟩ := hlisted s hs
    obtain rfl := Except.ok.inj (hn.symm.trans hn')
    refine ⟨n, hmem, hpos, fun t m htm => or_iff_not_imp_left.mpr fun hne => ?_⟩
    obtain ⟨ht, hm⟩ := hcount t m htm
    obtain ⟨m', hm', hlt⟩ := hmost t ht hne
    obtain rfl := Except.ok.inj (hm.symm.trans hm')
    exact hlt

/-- The values that are taken for those of a case of a switch: the constant of the case alone,
whatever side is named. -/
theorem mem_errorValues?_of_case {origin : InstId} {v : Value} {default : BlockId}
    {cases : List (Constant × BlockId)} (hb : p.blockOf origin = .ok b)
    (hlast : p.terminator? b = .ok (some origin))
    (hop : p.op origin = .ok (.switch v default cases)) {lhs : CheckedValue} {k : Constant}
    {m : Match} {call : CheckedCall} {values : RangeSet}
    (h : p.errorValues? (.comparison lhs .eq (.const k) origin true) m =
      .ok (some (call, values))) {w : Int} : w ∈ values ↔ w = k.toWord32 := by
  obtain ⟨call?, -, h⟩ := bind_eq_ok_iff.mp h
  cases call? with
  | none => cases h
  | some i =>
    obtain ⟨b', hb', h⟩ := bind_eq_ok_iff.mp h
    obtain rfl := Except.ok.inj (hb.symm.trans hb')
    rw [terminatorOp?_of_terminator? hlast hop, ok_bind] at h
    obtain ⟨-, rfl⟩ := Prod.mk.inj (Option.some.inj (Except.ok.inj h))
    rw [RangeSet.mem_narrow_full, Predicate.onInts, beq_iff_eq]
    exact and_iff_right_of_imp fun hw => hw ▸ Word.fits_wrapSigned _

end Program

namespace Context

variable {c : Context} {f : FuncId} {handlers : SortedSet FuncId}

/-- A condition is decided by the side of its block that handlers mark. -/
theorem handlesMost_of_matchByHandlers? {cond : Condition} {m : Match}
    (h : c.matchByHandlers? handlers cond = .ok (some m)) : ∃ b s,
      cond.block c.program = .ok b ∧ m.errorBlock = some s ∧
        c.program.HandlesMost c.graph handlers b s := by
  simp only [matchByHandlers?, bind_eq_ok_iff] at h
  obtain ⟨b, hb, s?, hs, h⟩ := h
  obtain ⟨s, rfl, rfl⟩ := Option.map_eq_some_iff.mp (Except.ok.inj h)
  exact ⟨b, s, hb, rfl, (Program.errorSuccessor?_eq_some_iff hs).mp rfl⟩

/-- What handlers decide about a function: comparisons that were not decided before, each by the
handlers that are called from its sides. -/
theorem exists_matchByHandlers?_of_handlerEvidence {decided : List CheckId} {e : Evidence}
    (h : c.handlerEvidence f handlers decided = .ok e) {id : CheckId} {m : Match}
    (hget : e.matched.get? id = some m) :
    ∃ cond, (id, cond) ∈ c.identifiedConditions f ∧ cond.isComparison = true ∧ id ∉ decided ∧
      c.matchByHandlers? handlers cond = .ok (some m) := by
  unfold handlerEvidence at h
  split at h
  · obtain rfl := Except.ok.inj h
    cases hget
  · simp only [bind_eq_ok_iff, pure_eq_ok, Except.ok.injEq] at h
    obtain ⟨matched, hmatched, observed, -, rfl⟩ := h
    refine Checked.foldlM_induction
      (P := fun t : Table CheckId Match => ∀ id m, t.get? id = some m →
        ∃ cond, (id, cond) ∈ c.identifiedConditions f ∧ cond.isComparison = true ∧ id ∉ decided ∧
          c.matchByHandlers? handlers cond = .ok (some m))
      (fun t ht check hcheck t' h => ?_) (fun _ _ hget => by cases hget) hmatched id m hget
    obtain ⟨hmem, hopen⟩ := List.mem_filter.mp hcheck
    obtain ⟨hcmp, hnew⟩ := Bool.and_eq_true_iff.mp hopen
    obtain ⟨found, hfound, h⟩ := bind_eq_ok_iff.mp h
    cases found with
    | none => exact Except.ok.inj h ▸ ht
    | some m =>
      obtain rfl := Except.ok.inj h
      intro id' m' hget
      rcases Table.of_get?_insert hget with ⟨rfl, rfl⟩ | hget
      · exact ⟨check.2, hmem, hcmp, of_decide_eq_true hnew, hfound⟩
      · exact ht id' m' hget

/-! ## Switches -/

/-- **The evidence of a switch.** What handlers decide about a condition that comes from a switch is
about one of its cases. They name the side that they mark, which is the same for all cases, and the
values are those of the case alone. The switch goes to the named side with these values exactly if
the side that it takes with the constant of the case is the one with the most handlers. -/
theorem switch_evidence_on_error_side_iff {a : Analysis} {ds : List Directive}
    (hbuild : Program.build ds = .ok a.program) {rejected : List (FuncId × Defect)}
    (hc : a.prepare = .ok (c, rejected)) {decided : List CheckId} {e : Evidence}
    (h : c.handlerEvidence f handlers decided = .ok e) {id : CheckId} {m : Match}
    (hm : (id, m) ∈ e.matched.entries) {cond : Condition} (hcond : c.condition? id = some cond)
    {v : Value} {default : BlockId} {cases : List (Constant × BlockId)}
    (hop : c.program.op cond.origin = .ok (.switch v default cases)) {call : CheckedCall}
    {values : RangeSet} (hvalues : c.program.errorValues? cond m = .ok (some (call, values))) :
    ∃ b side checked k target, cond.block c.program = .ok b ∧ m.errorBlock = some side ∧
      c.program.HandlesMost c.graph handlers b side ∧
      cond = .comparison checked .eq (.const k) cond.origin true ∧ (k, target) ∈ cases ∧
      (∀ w, w ∈ values ↔ w = k.toWord32) ∧
      ((∀ w ∈ values, switchTarget default cases w = side) ↔
        c.program.HandlesMost c.graph handlers b (switchTarget default cases k.toWord32)) := by
  obtain ⟨conditions, hprogram⟩ := Analysis.exists_conditions_of_prepare hc
  have howned : c.program.toArena.Owned := by
    rw [hprogram]
    exact Arena.owned_of_edits (Program.edits_of_build hbuild).1
  -- the comparison that was decided, and the side that decided it
  have hget := Table.get?_eq_some_iff.mpr hm
  obtain ⟨cond', hmem, hcmp, -, hmatch⟩ := exists_matchByHandlers?_of_handlerEvidence h hget
  obtain rfl := Option.some.inj (hcond.symm.trans (condition?_of_mem_identifiedConditions hmem))
  obtain ⟨b, side, hb, hside, hmost⟩ := handlesMost_of_matchByHandlers? hmatch
  -- its source is a case of the switch, which ends the block of the comparison
  have hmem : cond ∈ c.conditionsOf f := mem_conditionsOf_of_mem_identifiedConditions hmem
  obtain ⟨b', hsource⟩ := Analysis.exists_source_of_mem_conditionsOf hc hmem
  obtain ⟨hlast, checked, k, target, heq, hk⟩ := hsource.exists_case hcmp hop
  obtain ⟨block, hblock, -⟩ := bind_eq_ok_iff.mp hlast
  have hb' := (Program.mem_insts_iff howned hblock).mp
    (Program.mem_insts_of_terminator? hblock hlast)
  obtain rfl := Except.ok.inj (hb'.symm.trans hb)
  rw [heq] at hvalues
  have hword : ∀ w, w ∈ values ↔ w = k.toWord32 := fun w =>
    Program.mem_errorValues?_of_case hb' hlast hop hvalues
  refine ⟨b', side, checked, k, target, hb, hside, hmost, heq, hk, hword, ?_⟩
  constructor
  · intro hgoes
    exact (hgoes _ ((hword _).mpr rfl)).symm ▸ hmost
  · intro htarget w hw
    obtain rfl := (hword w).mp hw
    exact htarget.unique hmost

/-- `user` tells two results of `source` apart, and logs one of them. -/
def loggedCase : List Directive :=
  [.module "m", .declare ⟨0⟩ "source" [] (.int 32), .declare ⟨0⟩ "log" [] .void,
    .declare ⟨0⟩ "user" [] (.int 32),
    .define ⟨2⟩ [.block, .block, .block, .block,
      .moveTo ⟨0⟩, .call ⟨0⟩ [], .switch (.inst ⟨0⟩) ⟨3⟩ [(0, ⟨1⟩), (1, ⟨2⟩)],
      .moveTo ⟨1⟩, .ret (some (.int 0 32)),
      .moveTo ⟨2⟩, .call ⟨1⟩ [], .ret (some (.int (-2) 32)),
      .moveTo ⟨3⟩, .ret (some (.int 1 32))]]

/-- The cases of the switch. -/
def loggedCaseTargets : List (Constant × BlockId) := [(.ofInt 0 32, ⟨1⟩), (.ofInt 1 32, ⟨2⟩)]

/-- The condition for a case of the switch. -/
def loggedCaseCondition (k : Int) : Condition :=
  .comparison ⟨.inst ⟨0⟩, 0⟩ .eq (.int k 32) ⟨1⟩ true

/-- The handler `log` decides both cases, by the block that logs. -/
theorem loggedCase_decided : ∃ c e, ofDirectives loggedCase = .ok c ∧
    c.handlerEvidence ⟨2⟩ (.ofList [⟨1⟩]) [] = .ok e ∧
    e.matched.entries = [(⟨⟨2⟩, 0⟩, .ofErrorBlock ⟨2⟩), (⟨⟨2⟩, 1⟩, .ofErrorBlock ⟨2⟩)] ∧
    c.conditionsOf ⟨2⟩ =
      [loggedCaseCondition 0, loggedCaseCondition 1, .fallback ⟨.inst ⟨0⟩, 0⟩ ⟨1⟩] ∧
    c.program.op ⟨1⟩ = .ok (.switch (.inst ⟨0⟩) ⟨3⟩ loggedCaseTargets) ∧
    c.program.errorValues? (loggedCaseCondition 0) (.ofErrorBlock ⟨2⟩) =
      .ok (some (⟨⟨0⟩, 0⟩, .singleton 0)) ∧
    c.program.errorValues? (loggedCaseCondition 1) (.ofErrorBlock ⟨2⟩) =
      .ok (some (⟨⟨0⟩, 0⟩, .singleton 1)) := by
  obtain ⟨c, hcontext, e, he, hfacts⟩ : ∃ c, ofDirectives loggedCase = .ok c ∧
      ∃ e, c.handlerEvidence ⟨2⟩ (.ofList [⟨1⟩]) [] = .ok e ∧
      e.matched.entries = [(⟨⟨2⟩, 0⟩, .ofErrorBlock ⟨2⟩), (⟨⟨2⟩, 1⟩, .ofErrorBlock ⟨2⟩)] ∧
      c.conditionsOf ⟨2⟩ =
        [loggedCaseCondition 0, loggedCaseCondition 1, .fallback ⟨.inst ⟨0⟩, 0⟩ ⟨1⟩] ∧
      c.program.op ⟨1⟩ = .ok (.switch (.inst ⟨0⟩) ⟨3⟩ loggedCaseTargets) ∧
      c.program.errorValues? (loggedCaseCondition 0) (.ofErrorBlock ⟨2⟩) =
        .ok (some (⟨⟨0⟩, 0⟩, .singleton 0)) ∧
      c.program.errorValues? (loggedCaseCondition 1) (.ofErrorBlock ⟨2⟩) =
        .ok (some (⟨⟨0⟩, 0⟩, .singleton 1)) := by
    decide +kernel
  exact ⟨c, e, hcontext, he, hfacts⟩

/-- The case that is logged: with its constant the switch goes to the block that logs. -/
theorem loggedCase_evidence_on_side : ∃ c e b, ofDirectives loggedCase = .ok c ∧
    c.handlerEvidence ⟨2⟩ (.ofList [⟨1⟩]) [] = .ok e ∧
    (⟨⟨2⟩, 1⟩, .ofErrorBlock ⟨2⟩) ∈ e.matched.entries ∧
    c.condition? ⟨⟨2⟩, 1⟩ = some (loggedCaseCondition 1) ∧
    c.program.op ⟨1⟩ = .ok (.switch (.inst ⟨0⟩) ⟨3⟩ loggedCaseTargets) ∧
    c.program.errorValues? (loggedCaseCondition 1) (.ofErrorBlock ⟨2⟩) =
      .ok (some (⟨⟨0⟩, 0⟩, .singleton 1)) ∧
    c.program.blockOf ⟨1⟩ = .ok b ∧ c.program.HandlesMost c.graph (.ofList [⟨1⟩]) b ⟨2⟩ ∧
    ∀ w ∈ RangeSet.singleton 1, switchTarget ⟨3⟩ loggedCaseTargets w = ⟨2⟩ := by
  obtain ⟨c, e, hcontext, he, hmatched, hconditions, hop, -, hone⟩ := loggedCase_decided
  obtain ⟨p, g, rejected, hp, -, hprepare⟩ := exists_prepare_of_ofDirectives hcontext
  have hmem : (⟨⟨2⟩, 1⟩, .ofErrorBlock ⟨2⟩) ∈ e.matched.entries := by simp [hmatched]
  have hcond : c.condition? ⟨⟨2⟩, 1⟩ = some (loggedCaseCondition 1) := by
    simp [condition?, hconditions]
  obtain ⟨b, side, checked, k, target, hb, hside, hmost, heq, -, -, hiff⟩ :=
    switch_evidence_on_error_side_iff (a := ⟨p, g, .basic, {}⟩) hp hprepare he hmem hcond hop hone
  obtain rfl := Option.some.inj hside
  obtain ⟨-, -, hk, -⟩ := Condition.comparison.inj heq
  obtain rfl := Value.const.inj hk
  exact ⟨c, e, b, hcontext, he, hmem, hcond, hop, hone, hb, hmost, hiff.mpr hmost⟩

/-- **The other case**, which is not logged, is decided by the block that logs all the same. Its
value is taken for one on the error side, but with it the switch goes elsewhere. -/
theorem loggedCase_evidence_elsewhere : ∃ c e, ofDirectives loggedCase = .ok c ∧
    c.handlerEvidence ⟨2⟩ (.ofList [⟨1⟩]) [] = .ok e ∧
    (⟨⟨2⟩, 0⟩, .ofErrorBlock ⟨2⟩) ∈ e.matched.entries ∧
    c.condition? ⟨⟨2⟩, 0⟩ = some (loggedCaseCondition 0) ∧
    c.program.op ⟨1⟩ = .ok (.switch (.inst ⟨0⟩) ⟨3⟩ loggedCaseTargets) ∧
    c.program.errorValues? (loggedCaseCondition 0) (.ofErrorBlock ⟨2⟩) =
      .ok (some (⟨⟨0⟩, 0⟩, .singleton 0)) ∧
    ¬ ∀ w ∈ RangeSet.singleton 0, switchTarget ⟨3⟩ loggedCaseTargets w = ⟨2⟩ := by
  obtain ⟨c, e, hcontext, he, hmatched, hconditions, hop, hzero, -⟩ := loggedCase_decided
  refine ⟨c, e, hcontext, he, by simp [hmatched], by simp [condition?, hconditions], hop, hzero, ?_⟩
  intro hgoes
  have helse : switchTarget ⟨3⟩ loggedCaseTargets 0 = ⟨1⟩ := by decide
  exact absurd (helse.symm.trans (hgoes 0 (RangeSet.mem_singleton.mpr rfl))) (by decide)

end Context

end ErrorReturns
