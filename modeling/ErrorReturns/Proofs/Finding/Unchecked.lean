import ErrorReturns.Proofs.CallGraph
import ErrorReturns.Proofs.Finding.Turns
import ErrorReturns.Proofs.RangeSet.Canonical
import ErrorReturns.Proofs.Trace.Origin

/-!
# Calls without a check

A call is reported as unchecked when nothing looks at its result: no condition of its function is
about it, and it does not reach a comparison, a conditional branch or a return
(`Context.Unchecked`). The functions of a program are looked at in rounds, each time with other
error values, and a report stays when the values change. It stays right: being unchecked does not
depend on the values at all, and a call that may fail still may fail when values are added or
replaced, since only values that say something are learned (`Context.Fails.apply`).
-/

namespace ErrorReturns

open Checked (bind_eq_ok_iff)

/-! ## Consumed calls -/

/-- The value that an operation looks at: it compares it, branches on it or returns it. -/
inductive Operation.LooksAt : Operation → Value → Prop
  | cmp (pred : Predicate) (lhs rhs : Value) : LooksAt (.cmp pred lhs rhs) lhs
  | branch (cond : Value) (ifTrue ifFalse : BlockId) : LooksAt (.branch cond ifTrue ifFalse) cond
  | ret (v : Value) : LooksAt (.ret (some v)) v

namespace Program

variable {p : Program} {f : FuncId}

variable (p) in
/-- **The values that a function looks at**, in some instruction of it. -/
def LooksAt (f : FuncId) (v : Value) : Prop :=
  ∃ i op, p.functionOf i = .ok f ∧ p.op i = .ok op ∧ op.LooksAt v

/-- **A call is consumed** if a value that its function looks at comes from it. -/
theorem mem_consumedCalls (hp : p.toArena.Owned) {consumed : SortedSet InstId}
    (h : p.consumedCalls f = .ok consumed) {v : Value} (hv : p.LooksAt f v) {call : InstId}
    {op : Operation} (hfrom : p.ComesFrom v (.inst call)) (hop : p.op call = .ok op)
    (hcall : op.isCall = true) : call ∈ consumed := by
  obtain ⟨insts, hinsts, h⟩ := bind_eq_ok_iff.mp h
  obtain ⟨i, opAt, hi, hopAt, hlooks⟩ := hv
  -- the instruction that looks at the value adds the call, and what has been added stays
  obtain ⟨-, hall⟩ := Checked.foldlM_forall_mem (P := fun _ => True)
    (Q := fun i calls => ∀ op, p.op i = .ok op → op.LooksAt v → call ∈ calls)
    (fun calls _ i _ calls' h => by
      obtain ⟨op', hop', h⟩ := bind_eq_ok_iff.mp h
      have hkeep : ∀ w, p.collectCalls w calls = .ok calls' → call ∈ calls → call ∈ calls' :=
        fun w h => (mem_of_collectCalls h).1 call
      have hadd : p.collectCalls v calls = .ok calls' → call ∈ calls' :=
        fun h => (mem_of_collectCalls h).2 call op hfrom hop hcall
      refine ⟨trivial, fun op'' hop'' hlooks => ?_, fun j hj op'' hop'' hlooks => ?_⟩
      · obtain rfl := Except.ok.inj (hop'.symm.trans hop'')
        cases hlooks with
        | cmp | branch | ret => exact hadd h
      · have hmem := hj op'' hop'' hlooks
        split at h
        · exact hkeep _ h hmem
        · exact hkeep _ h hmem
        · exact hkeep _ h hmem
        · exact Except.ok.inj h ▸ hmem) trivial h
  exact hall i ((mem_instsIn_iff hp hinsts).mpr hi) opAt hopAt hlooks

end Program

namespace Context

variable {c : Context} {errors : ErrorTable} {call : InstId}

/-! ## Unchecked calls -/

variable (c) in
/-- **An unchecked call**: it is a call in a function under analysis, it does not yield an address,
no condition of its function is about its result, and nothing that its function looks at comes from
it. -/
structure Unchecked (call : InstId) (f : FuncId) (inst : Inst) : Prop where
  found : c.program.inst call = .ok inst
  isCall : inst.op.isCall = true
  function : c.program.functionOf call = .ok f
  analysed : c.isAnalysed f = true
  notPtr : inst.ty.isPtr = false
  conditions : ∀ cond ∈ c.conditionsOf f, cond.lhs.value ≠ .inst call
  looks : ∀ v, c.program.LooksAt f v → ¬ c.program.ComesFrom v (.inst call)

/-! ## What a round brings -/

/-- A table in which every entry says something. -/
def SaysSomething (t : ErrorTable) : Prop := Table.All (fun _ => True) (·.isEmpty = false) t

theorem SaysSomething.insertIfNew {t : ErrorTable} (ht : SaysSomething t) (slot : ReturnSlot)
    {s : RangeSet} (hs : s.isEmpty = false) : SaysSomething (t.insertIfNew slot s) := by
  refine Table.All.update ht trivial fun old hold => ?_
  cases old with
  | none => exact hs
  | some s' => exact hold s' rfl

/-- **A call that may fail still may** after a round that learned and replaced values which say
something. -/
theorem Fails.apply {r : Round} (hlearned : SaysSomething r.learned)
    (hreplaced : SaysSomething r.replaced) (h : c.Fails errors call) :
    c.Fails (Round.apply r errors) call := by
  obtain ⟨g, hg, hknown⟩ := h
  refine ⟨g, hg, ?_⟩
  refine Table.exists_get?_foldl_update (g := fun s old => (old.map (· ∪ s)).getD s)
    (Q := (·.isEmpty = false)) (fun e he old => ?_)
    (Table.exists_get?_foldl_update (g := fun s _ => s) (fun e he _ => (hreplaced e he).2) hknown)
  cases old with
  | none => exact (hlearned e he).2
  | some s => exact (RangeSet.isEmpty_union s e.2).trans (by rw [(hlearned e he).2, Bool.and_false])

/-! ## Every turn -/

variable (c) in
/-- **What holds throughout a search**: the values of the present round say something, and every
candidate is an unchecked call that may fail. -/
structure Genuine (errors : ErrorTable) (s : MissingSearch) : Prop where
  learned : SaysSomething s.round.learned
  replaced : SaysSomething s.round.replaced
  sites : s.state.sites.Each fun x =>
    (∃ f inst, c.Unchecked x.call f inst) ∧ c.Fails errors x.call

/-- What is taken up is a proposal with values. -/
theorem Genuine.takeUp {s : MissingSearch} (h : c.Genuine errors s) (f : FuncId) {prop : Proposal}
    (hvalues : prop.values.isEmpty = false) :
    c.Genuine errors (Context.takeUp errors f prop s) := by
  unfold Context.takeUp
  dsimp only
  split
  · split
    · exact { h with replaced := h.replaced.insertIfNew _ hvalues }
    · exact h
  · exact { h with learned := h.learned.insertIfNew _ hvalues }

/-- Counting adds a candidate only if nothing looks at the call. -/
theorem Genuine.count (hp : c.program.toArena.Owned) {s : MissingSearch} (h : c.Genuine errors s)
    {f : FuncId} {candidates consumed : SortedSet InstId} {state : MissingState}
    (hf : c.isAnalysed f = true) (hcandidates : c.failingCalls errors f = .ok candidates)
    (hcall : call ∈ candidates)
    (hunchecked : ∀ cond ∈ c.conditionsOf f, cond.lhs.value ≠ .inst call)
    (hconsumed : c.program.consumedCalls f = .ok consumed)
    (hcount : c.countCall consumed s.state call = .ok state) :
    c.Genuine errors { s with state := state } := by
  obtain ⟨⟨insts, hinsts, hmem⟩, ⟨op, hop, hisCall⟩, hfails⟩ :=
    of_mem_failingCalls hcandidates hcall
  refine { h with sites := ?_ }
  cases counting_of_countCall hfails.calleeList_ne_nil hcount with
  | skip | inlined | handled => exact h.sites
  | @missing inst site hinst hptr _ _ hnot =>
    have hop' : c.program.op call = .ok inst.op := by
      rw [Arena.op, hinst]
      rfl
    obtain rfl := Except.ok.inj (hop.symm.trans hop')
    refine h.sites.add site ⟨⟨f, inst, hinst, hisCall, ?_, hf, hptr, hunchecked, ?_⟩, hfails⟩
    · exact (Program.mem_instsIn_iff hp hinsts).mp hmem
    · exact fun v hv hfrom => hnot (Program.mem_consumedCalls hp hconsumed hv hfrom hop hisCall)

/-- Every turn of the search keeps the reports genuine. -/
theorem Genuine.turn (hp : c.program.toArena.Owned) {a b : ErrorTable × MissingSearch}
    (h : c.Genuine a.1 a.2) (hturn : c.Turn a b) : c.Genuine b.1 b.2 := by
  cases hturn with
  | begin => exact { h with learned := Table.all_empty, replaced := Table.all_empty }
  | takeUp _ hvalues => exact h.takeUp _ hvalues
  | passOn errors s f caller =>
    exact ⟨learned_passOn s caller ▸ h.learned, replaced_passOn s caller ▸ h.replaced,
      state_passOn s caller ▸ h.sites⟩
  | count hf hcandidates hcall hunchecked hconsumed hcount =>
    exact h.count hp hf hcandidates hcall hunchecked hconsumed hcount
  | learn errors s =>
    refine { h with sites := fun e he => ⟨trivial, fun x hx => ?_⟩ }
    exact ((h.sites e he).2 x hx).imp_right (.apply h.learned h.replaced)

/-- **Every report of a missing check is genuine.** Whatever is known at first, and however many
rounds a search takes, each candidate at each place is an unchecked call, and it may reach a
function that has error values in the end. -/
theorem missing_sites_genuine {ds : List Directive} (hbuild : Program.build ds = .ok c.program)
    {k k' : Knowledge} {state : MissingState} (h : c.findMissing k = .ok (k', state)) {site : Site}
    {xs : List Candidate} (hsite : (site, xs) ∈ state.sites.entries) {x : Candidate}
    (hx : x ∈ xs) :
    (∃ f inst, c.Unchecked x.call f inst) ∧ c.Fails k'.errors x.call := by
  have hp := Arena.owned_of_edits (Program.edits_of_build hbuild).1
  obtain ⟨s, hgenuine, -, rfl⟩ := findMissing_induction (P := fun a => c.Genuine a.1 a.2)
    (fun a b ha hturn => ha.turn hp hturn)
    ⟨Table.all_empty, Table.all_empty, Sites.each_empty⟩ h
  exact (hgenuine.sites _ hsite).2 x hx

/-- `pass` returns what `source` returns. `careless` ignores the result of `pass`, and compares what
`source` returns, after a freeze. -/
def carelessUser : List Directive :=
  [.module "m", .declare ⟨0⟩ "source" [] (.int 32), .declare ⟨0⟩ "pass" [] (.int 32),
    .declare ⟨0⟩ "careless" [] .void,
    .define ⟨1⟩ [.call ⟨0⟩ [], .ret (some (.inst ⟨0⟩))],
    .define ⟨2⟩ [.call ⟨1⟩ [], .call ⟨0⟩ [], .freeze (.inst ⟨3⟩),
      .cmp .slt (.inst ⟨4⟩) (.int 0 32), .ret none]]

/-- `source` returns `-1` on errors. -/
def sourceFails : Knowledge where
  errors := .ofList [(⟨⟨0⟩, 0⟩, .singleton (-1))]

/-- Only in the second round it is known that `pass` fails; then the call of it is reported, and
that of `source`, which is compared, is not. -/
theorem carelessUser_missing_sites_genuine : ∃ c k state,
    ofDirectives carelessUser = .ok c ∧ c.findMissing sourceFails = .ok (k, state) ∧
      state.sites.entries = [(.inst ⟨2⟩, [⟨⟨2⟩, none⟩])] ∧
      (∃ f inst, c.Unchecked ⟨2⟩ f inst) ∧ c.Fails k.errors ⟨2⟩ := by
  obtain ⟨c, hc, k, state, hk, hsites⟩ : ∃ c, ofDirectives carelessUser = .ok c ∧
      ∃ k state, c.findMissing sourceFails = .ok (k, state) ∧
      state.sites.entries = [(.inst ⟨2⟩, [⟨⟨2⟩, none⟩])] := by decide +kernel
  refine ⟨c, k, state, hc, hk, hsites, ?_⟩
  exact missing_sites_genuine (build_of_ofDirectives hc) hk (hsites ▸ List.mem_singleton_self _)
    (List.mem_singleton_self ⟨⟨2⟩, none⟩)

end Context

end ErrorReturns
