import ErrorReturns.Proofs.CallGraph
import Mathlib.Logic.Relation

/-!
# Thin wrappers

A thin wrapper is a function of one block that returns what a call of another function by name gives
(`Program.Wraps`). If the error values of the other function are not known, those of the wrapper are
not known either. The last step of storing observations is therefore a round that gives the empty
set to the wrappers of all functions that have it.

The round makes a list of these functions before it writes anything, so that the wrappers it
empties are not on the list (`Context.exists_marked_of_emptyWrappers`). It reaches the wrappers of a
function, but not the wrappers of those: afterwards the table is closed under thin wrappers only if
whatever wraps an emptied wrapper is empty for another reason
(`Context.wrappersClosed_emptyWrappers_iff`). A chain of two wrappers is the least program for which
it is not.
-/

namespace ErrorReturns

open Checked (bind_eq_ok_iff pure_eq_ok exists_of_mem_filterMapM exists_mem_of_filterMapM
  anyM_eq_true_iff
  exists_of_mem_mapM exists_mem_of_mapM)

/-! ## What a wrapper is -/

namespace Program

variable (p : Program)

/-- **A function returns a call** of another by name: the call stands in its only block, and one of
its returns yields what the call gives. -/
structure Returns (w : FuncId) (call : InstId) (f : FuncId) : Prop where
  callee : p.directCallee? call = .ok (some f)
  caller : p.functionOf call = .ok w
  single : ∃ x, p.function w = .ok x ∧ x.blocks.length = 1
  returned : ∃ rets, p.returnsIn w = .ok rets ∧
    ∃ i ∈ rets, p.op i = .ok (.ret (some (.inst call)))

/-- **A thin wrapper** of a function. -/
def Wraps (w f : FuncId) : Prop := ∃ call, p.Returns w call f

/-- The function that wraps another by a given call, if there is one. -/
def wrapperBy? (f : FuncId) (call : InstId) : Checked (Option FuncId) := do
  if (← p.directCallee? call) ≠ some f then return none
  let caller ← p.functionOf call
  if (← p.function caller).blocks.length ≠ 1 then return none
  let returned ← (← p.returnsIn caller).anyM fun i =>
    return (← p.op i) == .ret (some (.inst call))
  return if returned then some caller else none

theorem wrappersOf_eq (g : CallGraph) (f : FuncId) :
    p.wrappersOf g f = (g.callers f).filterMapM (p.wrapperBy? f) := rfl

variable {p}

/-- The search for a return that yields a call finds one if there is one. -/
theorem anyM_yields_iff {rets : List InstId} {call : InstId} {returned : Bool}
    (h : (rets.anyM fun i => return (← p.op i) == Operation.ret (some (.inst call))) =
      .ok returned) :
    returned = true ↔ ∃ i ∈ rets, p.op i = .ok (.ret (some (.inst call))) := by
  rw [anyM_eq_true_iff h]
  refine exists_congr fun i => and_congr_right fun _ => ?_
  rw [bind_eq_ok_iff]
  constructor
  · rintro ⟨op, hop, heq⟩
    rw [hop, beq_iff_eq.mp (Except.ok.inj heq)]
  · exact fun hop => ⟨_, hop, congrArg Except.ok (beq_self_eq_true _)⟩

/-- A call gives a wrapper exactly if a function returns it. -/
theorem mem_wrapperBy?_iff {w f : FuncId} {call : InstId} {w? : Option FuncId}
    (h : p.wrapperBy? f call = .ok w?) : w ∈ w? ↔ p.Returns w call f := by
  obtain ⟨callee?, hcallee, h⟩ := bind_eq_ok_iff.mp h
  split at h
  case isTrue hne =>
    obtain rfl := Except.ok.inj h
    exact iff_of_false (Option.not_mem_none w) fun hw =>
      hne (Except.ok.inj (hcallee.symm.trans hw.callee))
  case isFalse heq =>
  obtain rfl := not_not.mp heq
  simp only [bind_eq_ok_iff] at h
  obtain ⟨caller, hcaller, x, hx, h⟩ := h
  split at h
  case isTrue hmany =>
    obtain rfl := Except.ok.inj h
    refine iff_of_false (Option.not_mem_none w) fun hw => ?_
    obtain ⟨x', hx', hsingle⟩ := hw.single
    obtain rfl := Except.ok.inj (hcaller.symm.trans hw.caller)
    obtain rfl := Except.ok.inj (hx.symm.trans hx')
    exact hmany hsingle
  case isFalse hsingle =>
  simp only [bind_eq_ok_iff, pure_eq_ok, Except.ok.injEq] at h
  obtain ⟨rets, hrets, returned, hreturned, rfl⟩ := h
  -- the three conditions have been read off one after the other; the last is decided by the search
  -- through the returns
  have hfound := anyM_yields_iff hreturned
  constructor
  · intro hw
    obtain ⟨htrue, heq⟩ := Option.ite_none_right_eq_some.mp hw
    obtain rfl := Option.some.inj heq
    exact ⟨hcallee, hcaller, ⟨x, hx, not_not.mp hsingle⟩, rets, hrets, hfound.mp htrue⟩
  · intro hw
    obtain rfl := Except.ok.inj (hcaller.symm.trans hw.caller)
    obtain ⟨rets', hrets', hmem⟩ := hw.returned
    obtain rfl := Except.ok.inj (hrets.symm.trans hrets')
    rw [if_pos (hfound.mpr hmem)]
    exact Option.mem_some_self _

/-- **The wrappers that are found** are those whose call the call graph knows. -/
theorem mem_wrappersOf_iff {g : CallGraph} {f : FuncId} {ws : List FuncId}
    (h : p.wrappersOf g f = .ok ws) {w : FuncId} :
    w ∈ ws ↔ ∃ call ∈ g.callers f, p.Returns w call f := by
  rw [wrappersOf_eq] at h
  constructor
  · intro hw
    obtain ⟨call, hcall, hby⟩ := exists_of_mem_filterMapM h hw
    exact ⟨call, hcall, (mem_wrapperBy?_iff hby).mp (Option.mem_some_self w)⟩
  · rintro ⟨call, hcall, hw⟩
    obtain ⟨w?, hby, hkept⟩ := exists_mem_of_filterMapM h hcall
    exact hkept w ((mem_wrapperBy?_iff hby).mpr hw)

end Program

/-! ## Tables -/

theorem RangeSet.isEmpty_iff {s : RangeSet} : s.isEmpty = true ↔ s = .empty := by
  cases s
  simp [isEmpty, empty]

namespace ErrorTable

/-- **A function without known error values**: the table has an empty set for one of its slots. -/
def Unknown (t : ErrorTable) (f : FuncId) : Prop := ∃ n, t.get? ⟨f, n⟩ = some .empty

/-- **A table closed under thin wrappers.** -/
def WrappersClosed (t : ErrorTable) (p : Program) : Prop :=
  ∀ w f, t.Unknown f → p.Wraps w f → t.get? ⟨w, 0⟩ = some .empty

/-- In a closed table whole chains of wrappers are empty. -/
theorem WrappersClosed.chain {t : ErrorTable} {p : Program} (ht : t.WrappersClosed p)
    {w f : FuncId} (hf : t.Unknown f) (h : Relation.TransGen p.Wraps w f) :
    t.get? ⟨w, 0⟩ = some .empty := by
  induction h using Relation.TransGen.head_induction_on with
  | single hw => exact ht _ _ hf hw
  | head hw _ ih => exact ht _ _ ⟨0, ih⟩ hw

/-- The functions without known error values are those of the entries with an empty set. -/
theorem mem_unknown_iff {t : ErrorTable} {f : FuncId} :
    f ∈ (t.entries.filter (·.2.isEmpty)).map (·.1.function) ↔ t.Unknown f := by
  constructor
  · intro hf
    obtain ⟨⟨slot, s⟩, he, rfl⟩ := List.mem_map.mp hf
    obtain ⟨hmem, hempty⟩ := List.mem_filter.mp he
    obtain rfl := RangeSet.isEmpty_iff.mp hempty
    exact ⟨slot.slot, Table.get?_eq_some_iff.mpr hmem⟩
  · rintro ⟨n, hn⟩
    exact List.mem_map.mpr ⟨(⟨f, n⟩, .empty),
      List.mem_filter.mpr ⟨Table.get?_eq_some_iff.mp hn, rfl⟩, rfl⟩

end ErrorTable

/-! ## One round of emptying wrappers -/

/-- Emptying the first slots of functions changes nothing else. -/
theorem Knowledge.get?_foldl_insert_empty (fs : List FuncId) (k : Knowledge) (slot : ReturnSlot) :
    (fs.foldl (fun k f => { k with errors := k.errors.insert ⟨f, 0⟩ .empty }) k).errors.get? slot =
      if slot.slot = 0 ∧ slot.function ∈ fs then some .empty else k.errors.get? slot := by
  induction fs generalizing k with
  | nil => simp
  | cons f rest ih =>
    rw [List.foldl_cons, ih]
    by_cases hrest : slot.slot = 0 ∧ slot.function ∈ rest
    · rw [if_pos hrest, if_pos ⟨hrest.1, List.mem_cons_of_mem f hrest.2⟩]
    rw [if_neg hrest]
    by_cases hslot : slot = ⟨f, 0⟩
    · subst hslot
      rw [if_pos ⟨rfl, List.mem_cons_self⟩]
      exact Table.get?_insert_self _ _ _
    · rw [if_neg]
      · exact Table.get?_insert_of_ne _ hslot _
      · rintro ⟨hzero, hmem⟩
        rcases List.mem_cons.mp hmem with heq | hmem
        · exact hslot (by rw [← heq, ← hzero])
        · exact hrest ⟨hzero, hmem⟩

namespace Context

variable {c : Context}

variable (c) in
/-- **A wrapper that is emptied**: it returns a call, known to the call graph, of a function without
known error values. -/
def Marks (t : ErrorTable) (w : FuncId) : Prop :=
  ∃ f, t.Unknown f ∧ ∃ call ∈ c.graph.callers f, c.program.Returns w call f

/-- **One round** empties the wrappers of the functions without known error values at its start. -/
theorem exists_marked_of_emptyWrappers {k k' : Knowledge} (h : c.emptyWrappers k = .ok k') :
    ∃ marked : List FuncId, (∀ w, w ∈ marked ↔ c.Marks k.errors w) ∧ ∀ slot,
      k'.errors.get? slot =
        if slot.slot = 0 ∧ slot.function ∈ marked then some .empty else k.errors.get? slot := by
  simp only [emptyWrappers, bind_eq_ok_iff, pure_eq_ok, Except.ok.injEq] at h
  obtain ⟨lists, hlists, rfl⟩ := h
  refine ⟨lists.flatten, fun w => ?_, Knowledge.get?_foldl_insert_empty lists.flatten k⟩
  rw [List.mem_flatten]
  constructor
  · rintro ⟨ws, hws, hw⟩
    obtain ⟨f, hf, hws⟩ := exists_of_mem_mapM hlists hws
    exact ⟨f, ErrorTable.mem_unknown_iff.mp hf, (Program.mem_wrappersOf_iff hws).mp hw⟩
  · rintro ⟨f, hf, hw⟩
    obtain ⟨ws, hws, heq⟩ := exists_mem_of_mapM hlists (ErrorTable.mem_unknown_iff.mpr hf)
    exact ⟨ws, hws, (Program.mem_wrappersOf_iff heq).mpr hw⟩

section Round

variable {k k' : Knowledge} (h : c.emptyWrappers k = .ok k')
include h

/-- After a round a wrapper is empty if it was so before, or wraps a function that was. -/
theorem get?_emptyWrappers_eq_empty_iff {w : FuncId} : k'.errors.get? ⟨w, 0⟩ = some .empty ↔
    k.errors.get? ⟨w, 0⟩ = some .empty ∨ c.Marks k.errors w := by
  obtain ⟨marked, hmarked, hget⟩ := exists_marked_of_emptyWrappers h
  rw [hget, ← hmarked w]
  by_cases hw : w ∈ marked <;> simp [hw]

theorem get?_emptyWrappers_of_not_marks {slot : ReturnSlot}
    (hslot : slot.slot ≠ 0 ∨ ¬ c.Marks k.errors slot.function) :
    k'.errors.get? slot = k.errors.get? slot := by
  obtain ⟨marked, hmarked, hget⟩ := exists_marked_of_emptyWrappers h
  rw [hget, if_neg]
  rintro ⟨hzero, hmem⟩
  exact hslot.elim (fun hne => hne hzero) fun hnot => hnot ((hmarked _).mp hmem)

/-- The wrappers that a round empties are what it adds to the functions without known values. -/
theorem unknown_emptyWrappers_iff {f : FuncId} :
    k'.errors.Unknown f ↔ k.errors.Unknown f ∨ c.Marks k.errors f := by
  by_cases hf : c.Marks k.errors f
  · exact iff_of_true ⟨0, (get?_emptyWrappers_eq_empty_iff h).mpr (.inr hf)⟩ (.inr hf)
  · rw [or_iff_left hf]
    refine exists_congr fun n => ?_
    have hkept : k'.errors.get? ⟨f, n⟩ = k.errors.get? ⟨f, n⟩ :=
      get?_emptyWrappers_of_not_marks h (.inr hf)
    rw [hkept]

/-- **A round leaves a closed table** if it reaches, beside the wrappers of the functions that were
empty before, the wrappers of those that it empties. -/
theorem wrappersClosed_emptyWrappers_iff : k'.errors.WrappersClosed c.program ↔
    (∀ w f, k.errors.Unknown f → c.program.Wraps w f →
      k.errors.get? ⟨w, 0⟩ = some .empty ∨ c.Marks k.errors w) ∧
    ∀ v w, c.Marks k.errors w → c.program.Wraps v w →
      k.errors.get? ⟨v, 0⟩ = some .empty ∨ c.Marks k.errors v := by
  unfold ErrorTable.WrappersClosed
  simp only [get?_emptyWrappers_eq_empty_iff h, unknown_emptyWrappers_iff h, or_imp, forall_and]

end Round

end Context

/-! ## Storing -/

namespace Context

variable {c : Context}

/-- Storing without the round at its end: the observations of one slot after another. -/
def storeSlots (c : Context) (k : Knowledge) (observed : Histograms) : Checked Knowledge := do
  (← c.refined observed).entries.foldlM (fun k e => c.storeSlot k e.1 e.2) k

theorem store_eq (k : Knowledge) (observed : Histograms) :
    c.store k observed = c.storeSlots k observed >>= c.emptyWrappers := by
  unfold store storeSlots
  cases c.refined observed <;> rfl

/-- By the graph of the calls by name every wrapper is found, unless what it wraps is an annotation
of the compiler. -/
theorem exists_mem_callers_of_wraps {directives : List Directive}
    (hc : ofDirectives directives = .ok c) {w f : FuncId} (hw : c.program.Wraps w f)
    (hplain : ∀ x, c.program.function f = .ok x → x.attrs.intrinsic = false) :
    ∃ call ∈ c.graph.callers f, c.program.Returns w call f := by
  obtain ⟨p, g, rejected, hp, hg, hprepare⟩ := exists_prepare_of_ofDirectives hc
  obtain ⟨conditions, rfl⟩ := Analysis.exists_conditions_of_prepare hprepare
  obtain ⟨call, hcall⟩ := hw
  obtain ⟨y, hy, -⟩ := hcall.single
  have howned : p.toArena.Owned := Arena.owned_of_edits (Program.edits_of_build hp).1
  obtain ⟨x, hx, hlisted⟩ := CallGraph.lists_ofDirectCalls howned hg hcall.caller hy f hcall.callee
  exact ⟨call, hlisted (hplain x hx), hcall⟩

/-- **When the stored knowledge is closed under thin wrappers.** Storing empties the wrappers, as
far as the call graph knows their calls, of the functions that are empty when the observations have
been stored, and changes nothing else after that. The table that results is closed exactly if the
wrappers of which the call graph does not know and the wrappers of emptied wrappers are empty
without another round. If it is closed, chains of wrappers of any length are empty throughout. -/
theorem store_wrappers_closed_iff {k k' : Knowledge} {observed : Histograms}
    (h : c.store k observed = .ok k') :
    ∃ before, c.storeSlots k observed = .ok before ∧
      (∀ w, c.Marks before.errors w → k'.errors.get? ⟨w, 0⟩ = some .empty) ∧
      (∀ slot : ReturnSlot, slot.slot ≠ 0 ∨ ¬ c.Marks before.errors slot.function →
        k'.errors.get? slot = before.errors.get? slot) ∧
      (k'.errors.WrappersClosed c.program ↔
        (∀ w f, before.errors.Unknown f → c.program.Wraps w f →
          before.errors.get? ⟨w, 0⟩ = some .empty ∨ c.Marks before.errors w) ∧
        ∀ v w, c.Marks before.errors w → c.program.Wraps v w →
          before.errors.get? ⟨v, 0⟩ = some .empty ∨ c.Marks before.errors v) ∧
      (k'.errors.WrappersClosed c.program → ∀ w f, k'.errors.Unknown f →
        Relation.TransGen c.program.Wraps w f → k'.errors.get? ⟨w, 0⟩ = some .empty) := by
  rw [store_eq] at h
  obtain ⟨before, hbefore, h⟩ := bind_eq_ok_iff.mp h
  exact ⟨before, hbefore, fun w hw => (get?_emptyWrappers_eq_empty_iff h).mpr (.inr hw),
    fun slot hslot => get?_emptyWrappers_of_not_marks h hslot,
    wrappersClosed_emptyWrappers_iff h,
    fun hclosed w f hf hchain => hclosed.chain hf hchain⟩

/-- Two thin wrappers, one around the other. -/
def wrapperChain : List Directive :=
  [.module "m", .declare ⟨0⟩ "source" [] (.int 32), .declare ⟨0⟩ "inner" [] (.int 32),
    .declare ⟨0⟩ "outer" [] (.int 32),
    .define ⟨1⟩ [.block, .moveTo ⟨0⟩, .call ⟨0⟩ [], .ret (some (.inst ⟨0⟩))],
    .define ⟨2⟩ [.block, .moveTo ⟨1⟩, .call ⟨1⟩ [], .ret (some (.inst ⟨2⟩))]]

/-- Knowledge that these functions have no known error values. -/
def unknownOf (fs : List FuncId) : Knowledge := ⟨.ofList (fs.map fun f => (⟨f, 0⟩, .empty)), {}⟩

/-- With both functions that are wrapped known to be empty, one round reaches every wrapper. -/
theorem wrapperChain_closed : ∃ c k', ofDirectives wrapperChain = .ok c ∧
    c.store (unknownOf [⟨0⟩, ⟨1⟩]) {} = .ok k' ∧ k'.errors.WrappersClosed c.program ∧
    k'.errors.get? ⟨⟨2⟩, 0⟩ = some .empty := by
  obtain ⟨c, hc, before, hbefore, k', hk', hentries, houter, hkeys, hplain⟩ :
      ∃ c, ofDirectives wrapperChain = .ok c ∧
      ∃ before, c.storeSlots (unknownOf [⟨0⟩, ⟨1⟩]) {} = .ok before ∧
      ∃ k', c.store (unknownOf [⟨0⟩, ⟨1⟩]) {} = .ok k' ∧
      before.errors.entries = [(⟨⟨0⟩, 0⟩, .empty), (⟨⟨1⟩, 0⟩, .empty)] ∧
      k'.errors.get? ⟨⟨2⟩, 0⟩ = some .empty ∧ c.graph.sources.keys = [⟨0⟩, ⟨1⟩] ∧
      c.program.functions.toList.map (·.attrs.intrinsic) = [false, false, false] := by
    decide +kernel
  -- no function is an intrinsic and only the first two are called, both of them unknown before, so
  -- that every wrapper is marked
  have hmarks : ∀ v w, c.program.Wraps v w → c.Marks before.errors v := by
    intro v w hv
    obtain ⟨call, hcall, hreturns⟩ := exists_mem_callers_of_wraps hc hv fun x hx => by
      have hmem := List.mem_map_of_mem (f := (·.attrs.intrinsic))
        (Array.mem_toList_iff.mpr (Array.mem_of_getElem? (Arena.function_eq_ok_iff.mp hx)))
      rw [hplain] at hmem
      simpa using hmem
    have hunknown : before.errors.Unknown w := by
      have hw := CallGraph.mem_keys_of_mem_callers hcall
      rw [hkeys] at hw
      refine ⟨0, (congrArg (Table.find _) hentries).trans ?_⟩
      rcases List.mem_pair.mp hw with rfl | rfl <;> decide
    exact ⟨w, hunknown, call, hcall, hreturns⟩
  obtain ⟨before', hbefore', -, -, hiff, -⟩ := store_wrappers_closed_iff hk'
  obtain rfl := Except.ok.inj (hbefore.symm.trans hbefore')
  exact ⟨c, k', hc, hk',
    hiff.mpr ⟨fun w f _ hw => .inr (hmarks w f hw), fun v w _ hv => .inr (hmarks v w hv)⟩, houter⟩

/-- **A wrapper of a wrapper is left out**: one round empties the inner one only. -/
theorem wrapperChain_not_closed : ∃ c k', ofDirectives wrapperChain = .ok c ∧
    c.store (unknownOf [⟨0⟩]) {} = .ok k' ∧ k'.errors.Unknown ⟨0⟩ ∧ c.program.Wraps ⟨1⟩ ⟨0⟩ ∧
    c.program.Wraps ⟨2⟩ ⟨1⟩ ∧ k'.errors.get? ⟨⟨1⟩, 0⟩ = some .empty ∧
    k'.errors.get? ⟨⟨2⟩, 0⟩ = none ∧ ¬ k'.errors.WrappersClosed c.program := by
  obtain ⟨c, hc, k', hk', hinner, houter, hentries⟩ : ∃ c, ofDirectives wrapperChain = .ok c ∧
      ∃ k', c.store (unknownOf [⟨0⟩]) {} = .ok k' ∧ c.program.wrapperBy? ⟨0⟩ ⟨0⟩ = .ok (some ⟨1⟩) ∧
      c.program.wrapperBy? ⟨1⟩ ⟨2⟩ = .ok (some ⟨2⟩) ∧
      k'.errors.entries = [(⟨⟨0⟩, 0⟩, .empty), (⟨⟨1⟩, 0⟩, .empty)] := by decide +kernel
  have hget : ∀ slot, k'.errors.get? slot =
      Table.find slot [(⟨⟨0⟩, 0⟩, RangeSet.empty), (⟨⟨1⟩, 0⟩, .empty)] :=
    fun slot => congrArg (Table.find slot) hentries
  have hwraps : c.program.Wraps ⟨2⟩ ⟨1⟩ :=
    ⟨⟨2⟩, (Program.mem_wrapperBy?_iff houter).mp (Option.mem_some_self _)⟩
  have hopen : k'.errors.get? ⟨⟨2⟩, 0⟩ = none := (hget _).trans (by decide)
  have hinnerEmpty : k'.errors.get? ⟨⟨1⟩, 0⟩ = some .empty := (hget _).trans (by decide)
  refine ⟨c, k', hc, hk', ⟨0, (hget _).trans (by decide)⟩,
    ⟨⟨0⟩, (Program.mem_wrapperBy?_iff hinner).mp (Option.mem_some_self _)⟩, hwraps, hinnerEmpty,
    hopen, fun hclosed => ?_⟩
  exact Option.some_ne_none _ ((hclosed _ _ ⟨0, hinnerEmpty⟩ hwraps).symm.trans hopen)

end Context

end ErrorReturns
