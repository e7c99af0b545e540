import ErrorReturns.Proofs.CallGraph
import ErrorReturns.Proofs.Context.Order
import ErrorReturns.Proofs.Flow.Enumeration
import ErrorReturns.Proofs.Table.Keys
import ErrorReturns.Proofs.Table.Lookup

/-!
# Evidence may be merged in any order

Learning adds the evidence of one function after the other. Counts are added up, which can be
done in any order. The decided conditions of a function are its own (`Context.DecidesIn`), so
that the evidence of two functions never speaks about the same condition, and what a function
finds with the help of handlers depends only on which of its own conditions are decided. Two
merges can therefore be exchanged, first for similar paths and then for handlers, and by
`Checked.toOption_foldlM_eq_of_perm` the functions may come in any order.
-/

namespace ErrorReturns

open Checked (bind_eq_ok_iff)

/-! ## Histograms -/

namespace Histogram

/-- **Counts add up** in either order. -/
theorem merge_right_comm (h a b : Histogram) : (h.merge a).merge b = (h.merge b).merge a :=
  Table.foldl_update_right_comm h (fun n m => m.getD 0 + n)
    fun _ _ _ _ _ => Nat.add_right_comm _ _ _

end Histogram

/-- **Observations add up** in either order. -/
theorem Histograms.merge_right_comm (hs a b : Histograms) :
    (hs.merge a).merge b = (hs.merge b).merge a :=
  Table.foldl_update_right_comm hs (fun n m => Histogram.merge (m.getD {}) n)
    fun _ _ _ _ _ => Histogram.merge_right_comm _ _ _

/-! ## Evidence -/

namespace Evidence

/-- The record of a condition after a merge: that of the added evidence, if it has one. -/
@[simp] theorem get?_matched_merge (e other : Evidence) (id : CheckId) :
    (e.merge other).matched.get? id =
      (other.matched.get? id).elim (e.matched.get? id) some :=
  Table.get?_foldl_update e.matched (fun m _ => m) other.matched id

/-- **Two merges can be exchanged** if the added evidence decides different conditions. -/
theorem merge_right_comm (e : Evidence) {a b : Evidence}
    (hdisjoint : ∀ id, ¬ (a.matched.contains id = true ∧ b.matched.contains id = true)) :
    (e.merge a).merge b = (e.merge b).merge a := by
  have hmatched : ((e.merge a).merge b).matched = ((e.merge b).merge a).matched := by
    refine Table.foldl_update_right_comm e.matched (fun m _ => m) ?_
    intro id x y hx hy
    refine absurd ⟨?_, ?_⟩ (hdisjoint id)
    · exact Option.isSome_of_mem hx
    · exact Option.isSome_of_mem hy
  have hhandlers : ((e.merge a).merge b).handlers = ((e.merge b).merge a).handlers := by
    refine Table.foldl_update_right_comm e.handlers (fun n old => (old.getD {}).add n) ?_
    intro f x y _ _
    simp only [HandlerTally.add, Option.getD_some, HandlerTally.mk.injEq]
    omega
  have hobserved : ((e.merge a).merge b).observed = ((e.merge b).merge a).observed :=
    e.observed.merge_right_comm a.observed b.observed
  rw [Evidence.mk.injEq]
  exact ⟨hmatched, hhandlers, hobserved⟩

end Evidence

namespace Context

variable {c : Context} {f : FuncId}

/-! ## The conditions that a function decides -/

/-- **Decided conditions of one function.** -/
def DecidesIn (f : FuncId) (t : Table CheckId Match) : Prop :=
  ∀ id, t.contains id = true → id.function = f

theorem decidesIn_empty : DecidesIn f {} := nofun

theorem DecidesIn.insert {t : Table CheckId Match} (h : DecidesIn f t) {id : CheckId}
    (hid : id.function = f) (m : Match) : DecidesIn f (t.insert id m) := by
  intro id' hid'
  rcases Table.contains_update_iff.mp hid' with rfl | hid'
  · exact hid
  · exact h id' hid'

theorem function_of_mem_identifiedConditions {check : CheckId × Condition}
    (h : check ∈ c.identifiedConditions f) : check.1.function = f := by
  obtain ⟨x, -, rfl⟩ := List.mem_map.mp h
  rfl

theorem condition?_of_mem_identifiedConditions {check : CheckId × Condition}
    (h : check ∈ c.identifiedConditions f) : c.condition? check.1 = some check.2 := by
  obtain ⟨⟨cond, n⟩, hcond, rfl⟩ := List.mem_map.mp h
  exact List.mem_zipIdx_iff_getElem?.mp hcond

theorem mem_conditionsOf_of_mem_identifiedConditions {check : CheckId × Condition}
    (h : check ∈ c.identifiedConditions f) : check.2 ∈ c.conditionsOf f := by
  have hcond := condition?_of_mem_identifiedConditions h
  rw [condition?, function_of_mem_identifiedConditions h] at hcond
  exact List.mem_of_getElem? hcond

/-- The paths that leave a condition carry its place. -/
theorem reason_of_mem_pathsOfCondition {boundary : List BlockId} {id : CheckId} {cond : Condition}
    {paths : List Path} (h : c.pathsOfCondition boundary id cond = .ok paths) {q : Path}
    (hq : q ∈ paths) : q.reason = some id := by
  simp only [pathsOfCondition, bind_eq_ok_iff] at h
  obtain ⟨block, -, op, -, h⟩ := h
  split at h
  · split at h
    · split at h
      · exact Program.reason_of_mem_pathsFrom h hq
      · obtain rfl := Except.ok.inj h
        cases hq
    · obtain rfl := Except.ok.inj h
      cases hq
  · exact Program.reason_of_mem_pathsFrom h hq
  · exact Program.reason_of_mem_pathsFrom h hq
  · obtain rfl := Except.ok.inj h
    cases hq

/-- A summary is that of its path, and names the block by which the path leaves. -/
theorem of_summarizePath? {path : Path} {s : SummarizedPath}
    (h : c.summarizePath? path = .ok (some s)) :
    s.path = path ∧ s.summary.entry = path.blocks[1]? := by
  obtain ⟨summary, hsummary, h⟩ := bind_eq_ok_iff.mp h
  split at h
  · cases h
  · obtain ⟨resolved, hresolved, h⟩ := bind_eq_ok_iff.mp h
    obtain ⟨effects, -, hsummary⟩ := bind_eq_ok_iff.mp hsummary
    obtain ⟨effects', -, hresolved⟩ := bind_eq_ok_iff.mp hresolved
    obtain rfl := Except.ok.inj hsummary
    obtain rfl := Except.ok.inj hresolved
    rw [← Option.some.inj (Except.ok.inj h)]
    exact ⟨rfl, rfl⟩

/-- **A summarised path** goes beyond the block of one of the conditions, which it leaves. -/
theorem exists_of_mem_summarizedPaths {checks : List (CheckId × Condition)}
    {paths : List SummarizedPath} (h : c.summarizedPaths checks = .ok paths) {s : SummarizedPath}
    (hs : s ∈ paths) : ∃ check ∈ checks, ∃ boundary found,
      c.pathsOfCondition boundary check.1 check.2 = .ok found ∧ s.path ∈ found ∧
      1 < s.path.blocks.length ∧ s.summary.entry = s.path.blocks[1]? := by
  simp only [summarizedPaths, bind_eq_ok_iff] at h
  obtain ⟨boundary, -, found, hfound, h⟩ := h
  obtain ⟨path, hpath, hsummary⟩ := Checked.exists_of_mem_filterMapM h hs
  obtain ⟨hpath, hlong⟩ := List.mem_filter.mp hpath
  obtain ⟨ps, hps, hpath⟩ := List.mem_flatten.mp hpath
  obtain ⟨check, hcheck, hps'⟩ := Checked.exists_of_mem_mapM hfound hps
  obtain ⟨rfl, hentry⟩ := of_summarizePath? hsummary
  exact ⟨check, hcheck, boundary, ps, hps', hpath, of_decide_eq_true hlong, hentry⟩

/-- **What an offer does**: nothing, or it decides the comparison that the path leaves, and the
error side is where the path goes. -/
theorem offer_cases (common sum : Nat) (d : Decisions) (s : SummarizedPath) :
    c.offer common sum d s = d ∨ ∃ id cond m, s.path.reason = some id ∧
      c.condition? id = some cond ∧ cond.isComparison = true ∧ m.errorBlock = s.summary.entry ∧
      c.offer common sum d s = ⟨d.matched.insert id m, d.errorPaths.insert id s.path⟩ := by
  unfold Context.offer
  split
  · exact Or.inl rfl
  · rename_i id hid
    split
    case isTrue hcomparison =>
      dsimp only
      split
      · obtain ⟨cond, hcond, hcomparison⟩ := (Option.any_eq_true _ _).mp hcomparison
        exact Or.inr ⟨id, cond, _, hid, hcond, hcomparison, rfl, rfl⟩
      · exact Or.inl rfl
    case isFalse => exact Or.inl rfl

/-- Comparing two paths keeps what every offer of them keeps. -/
theorem comparePaths_induction {P : Decisions → Prop} {a b : SummarizedPath}
    (ha : ∀ common sum d, P d → P (c.offer common sum d a))
    (hb : ∀ common sum d, P d → P (c.offer common sum d b)) {d d' : Decisions} (hd : P d)
    (h : c.comparePaths d a b = .ok d') : P d' := by
  unfold Context.comparePaths at h
  split at h
  · obtain rfl := Except.ok.inj h
    exact hd
  · obtain ⟨⟨common, ratio⟩, -, h⟩ := bind_eq_ok_iff.mp h
    dsimp only at h
    split at h
    · obtain rfl := Except.ok.inj h
      exact hd
    · obtain rfl := Except.ok.inj h
      exact hb _ _ _ (ha _ _ _ hd)

/-- **Comparing all paths keeps what every offer keeps.** -/
theorem compareAll_induction {P : Decisions → Prop} {paths : List SummarizedPath}
    (hoffer : ∀ s ∈ paths, ∀ common sum d, P d → P (c.offer common sum d s)) {d d' : Decisions}
    (hd : P d) (h : c.compareAll d paths = .ok d') : P d' := by
  induction paths generalizing d with
  | nil =>
    obtain rfl := Except.ok.inj h
    exact hd
  | cons s rest ih =>
    rw [List.forall_mem_cons] at hoffer
    obtain ⟨d₁, hd₁, h⟩ := bind_eq_ok_iff.mp h
    have h₁ : P d₁ := Checked.foldlM_induction
      (fun _ hd t ht _ => comparePaths_induction hoffer.1 (hoffer.2 t ht) hd) hd hd₁
    exact ih hoffer.2 h₁ h

theorem DecidesIn.offer {common sum : Nat} {d : Decisions} (h : DecidesIn f d.matched)
    {s : SummarizedPath} (hs : ∀ id, s.path.reason = some id → id.function = f) :
    DecidesIn f (c.offer common sum d s).matched := by
  rcases offer_cases (c := c) common sum d s with heq | ⟨id, -, m, hid, -, -, -, heq⟩
  · rw [heq]
    exact h
  · rw [heq]
    exact h.insert (hs id hid) m

/-! ## What a function contributes -/

/-- **What a function contributes by similar paths** decides its own conditions. -/
theorem decidesIn_of_similarityEvidence {e : Evidence} (h : c.similarityEvidence f = .ok e) :
    DecidesIn f e.matched := by
  unfold similarityEvidence at h
  dsimp only at h
  split at h
  · obtain rfl := Except.ok.inj h
    exact decidesIn_empty
  · simp only [bind_eq_ok_iff, Checked.pure_eq_ok, Except.ok.injEq] at h
    obtain ⟨paths, hpaths, d, hd, tallies, -, observed, -, rfl⟩ := h
    have hreason : ∀ s ∈ paths, ∀ id, s.path.reason = some id → id.function = f := by
      intro s hs id hid
      obtain ⟨check, hcheck, boundary, found, hfound, hpath, -⟩ :=
        exists_of_mem_summarizedPaths hpaths hs
      rw [reason_of_mem_pathsOfCondition hfound hpath] at hid
      obtain rfl := Option.some.inj hid
      exact function_of_mem_identifiedConditions (List.mem_of_mem_filter hcheck)
    exact compareAll_induction (P := fun d => DecidesIn f d.matched)
      (fun s hs _ _ _ hd => hd.offer (hreason s hs)) decidesIn_empty hd

/-- **What a function contributes by handlers** decides conditions of its own that were not
decided. -/
theorem decidesIn_of_handlerEvidence {handlers : SortedSet FuncId} {decided : List CheckId}
    {e : Evidence} (h : c.handlerEvidence f handlers decided = .ok e) :
    DecidesIn f e.matched ∧ ∀ id, e.matched.contains id = true → id ∉ decided := by
  unfold handlerEvidence at h
  split at h
  · obtain rfl := Except.ok.inj h
    exact ⟨decidesIn_empty, fun _ hid => absurd hid Bool.false_ne_true⟩
  · simp only [bind_eq_ok_iff, Checked.pure_eq_ok, Except.ok.injEq] at h
    obtain ⟨matched, hmatched, observed, -, rfl⟩ := h
    refine Checked.foldlM_induction (P := fun t => DecidesIn f t ∧
      ∀ id, t.contains id = true → id ∉ decided) (fun t ht check hcheck t' h => ?_)
      ⟨decidesIn_empty, fun _ hid => absurd hid Bool.false_ne_true⟩ hmatched
    obtain ⟨hmem, hnew⟩ := List.mem_filter.mp hcheck
    simp only [Bool.and_eq_true, decide_eq_true_eq] at hnew
    obtain ⟨found, -, h⟩ := bind_eq_ok_iff.mp h
    cases found with
    | none =>
      obtain rfl := Except.ok.inj h
      exact ht
    | some m =>
      obtain rfl := Except.ok.inj h
      refine ⟨ht.1.insert (function_of_mem_identifiedConditions hmem) m, fun id hid => ?_⟩
      rcases Table.contains_update_iff.mp hid with rfl | hid
      · exact hnew.2
      · exact ht.2 id hid

/-- What a function contributes by handlers depends on its own decided conditions only. -/
theorem handlerEvidence_congr {handlers : SortedSet FuncId} {decided decided' : List CheckId}
    (h : ∀ id, id.function = f → (id ∈ decided ↔ id ∈ decided')) :
    c.handlerEvidence f handlers decided = c.handlerEvidence f handlers decided' := by
  unfold handlerEvidence
  have hfilter : ((c.identifiedConditions f).filter fun check =>
        check.2.isComparison && decide (check.1 ∉ decided)) =
      (c.identifiedConditions f).filter fun check =>
        check.2.isComparison && decide (check.1 ∉ decided') := by
    refine List.filter_congr fun check hcheck => ?_
    rw [decide_eq_decide.mpr (not_congr (h check.1 (function_of_mem_identifiedConditions hcheck)))]
  dsimp only
  rw [hfilter]

/-! ## Merging in any order -/

/-- Add what a function contributes, which may depend on the evidence so far. -/
def addEvidence (contribution : Evidence → FuncId → Checked Evidence) (e : Evidence) (f : FuncId) :
    Checked Evidence :=
  return e.merge (← contribution e f)

/-- **Contributions of separate functions**: each decides conditions of its own function, and does
not depend on what other functions have decided. -/
structure Separate (contribution : Evidence → FuncId → Checked Evidence) : Prop where
  decides : ∀ {e f a}, contribution e f = .ok a → DecidesIn f a.matched
  unaffected : ∀ {e f g a}, DecidesIn g a.matched → f ≠ g →
    contribution (e.merge a) f = contribution e f

namespace Separate

variable {contribution : Evidence → FuncId → Checked Evidence} (hsep : Separate contribution)
  {e : Evidence} {f g : FuncId}
include hsep

/-- Two functions one after the other, if both have something to contribute. -/
theorem addEvidence_addEvidence (hne : f ≠ g) {a b : Evidence} (ha : contribution e f = .ok a)
    (hb : contribution e g = .ok b) :
    (addEvidence contribution e f >>= fun e' => addEvidence contribution e' g) =
      .ok ((e.merge a).merge b) := by
  have hb' : contribution (e.merge a) g = .ok b := by
    rw [hsep.unaffected (hsep.decides ha) hne.symm, hb]
  unfold addEvidence
  rw [ha, Checked.ok_bind, Checked.pure_eq_ok, Checked.ok_bind, hb']
  rfl

/-- If the second function has nothing to contribute, the two together do not have a result. -/
theorem toOption_addEvidence_of_error (hne : f ≠ g) {fault : Fault}
    (hg : contribution e g = .error fault) :
    (addEvidence contribution e f >>= fun e' => addEvidence contribution e' g).toOption = none := by
  unfold addEvidence
  cases ha : contribution e f with
  | error fault' => rfl
  | ok a =>
    rw [Checked.ok_bind, Checked.pure_eq_ok, Checked.ok_bind,
      hsep.unaffected (hsep.decides ha) hne.symm, hg]
    rfl

/-- **Two functions can be exchanged**, as what each contributes depends on its own decisions only.
-/
theorem swap (hne : f ≠ g) :
    (addEvidence contribution e f >>= fun e' => addEvidence contribution e' g).toOption =
      (addEvidence contribution e g >>= fun e' => addEvidence contribution e' f).toOption := by
  cases ha : contribution e f with
  | error fault =>
    rw [hsep.toOption_addEvidence_of_error hne.symm ha]
    unfold addEvidence
    rw [ha]
    rfl
  | ok a =>
    cases hb : contribution e g with
    | error fault =>
      rw [hsep.toOption_addEvidence_of_error hne hb]
      unfold addEvidence
      rw [hb]
      rfl
    | ok b =>
      rw [hsep.addEvidence_addEvidence hne ha hb, hsep.addEvidence_addEvidence hne.symm hb ha]
      -- a condition decided by both would belong to both functions
      have hdisjoint : ∀ id, ¬ (a.matched.contains id = true ∧ b.matched.contains id = true) :=
        fun id ⟨hida, hidb⟩ => hne ((hsep.decides ha id hida).symm.trans (hsep.decides hb id hidb))
      rw [e.merge_right_comm hdisjoint]

/-- **Separate contributions may be added in any order.** -/
theorem toOption_foldlM_eq_of_perm {fs gs : List FuncId} (hperm : fs.Perm gs) (e : Evidence) :
    (fs.foldlM (addEvidence contribution) e).toOption =
      (gs.foldlM (addEvidence contribution) e).toOption :=
  Checked.toOption_foldlM_eq_of_perm hperm (fun _ f _ g _ hne => hsep.swap (f := f) (g := g) hne) e

end Separate

variable (c) in
/-- Add what a function contributes by similar paths. -/
def addSimilar : Evidence → FuncId → Checked Evidence :=
  addEvidence fun _ f => c.similarityEvidence f

variable (c) in
/-- Add what a function contributes by handlers, given which of its conditions are decided. -/
def addByHandlers (handlers : SortedSet FuncId) : Evidence → FuncId → Checked Evidence :=
  addEvidence fun e f => c.handlerEvidence f handlers (e.matchedIn f)

theorem separate_similar : Separate fun _ f => c.similarityEvidence f where
  decides := decidesIn_of_similarityEvidence
  unaffected _ _ := rfl

theorem mem_matchedIn_iff {e : Evidence} {id : CheckId} :
    id ∈ e.matchedIn f ↔ e.matched.contains id = true ∧ id.function = f := by
  rw [Evidence.matchedIn, List.mem_filter, Table.mem_keys_iff, beq_iff_eq]

/-- What handlers contribute to a function depends on its own decisions only. -/
theorem separate_byHandlers (handlers : SortedSet FuncId) :
    Separate fun e f => c.handlerEvidence f handlers (e.matchedIn f) where
  decides h := (decidesIn_of_handlerEvidence h).1
  unaffected {e f g a} hdecides hne := by
    refine handlerEvidence_congr fun id hid => ?_
    rw [mem_matchedIn_iff, mem_matchedIn_iff]
    have hnone : a.matched.get? id = none := by
      by_contra hsome
      exact hne (hid.symm.trans (hdecides id (Option.isSome_iff_ne_none.mpr hsome)))
    rw [Table.contains, e.get?_matched_merge a, hnone]
    rfl

/-- A record that is in force stays when handlers decide further conditions of a function. -/
theorem get?_matched_addByHandlers {handlers : SortedSet FuncId} {e e' : Evidence}
    (h : c.addByHandlers handlers e f = .ok e') {id : CheckId} {m : Match}
    (hid : e.matched.get? id = some m) : e'.matched.get? id = some m := by
  obtain ⟨a, ha, h⟩ := bind_eq_ok_iff.mp h
  obtain rfl := Except.ok.inj h
  obtain ⟨hdecides, hnew⟩ := decidesIn_of_handlerEvidence ha
  have hnone : a.matched.get? id = none := by
    by_contra hsome
    have hcontains : a.matched.contains id = true := Option.isSome_iff_ne_none.mpr hsome
    refine hnew id hcontains (mem_matchedIn_iff.mpr ⟨?_, hdecides id hcontains⟩)
    exact Option.isSome_of_mem hid
  rw [e.get?_matched_merge a, hnone]
  exact hid

/-- **Learning does not depend on the order of the functions.** The evidence of similar paths of
different functions can be gathered in any order, and so can what handlers add to it. Gathering
has a result in one order if it has one in the other, and the decided conditions, the calls on
error paths and the observations are the same. What similar paths have decided stays as it
is. -/
theorem gathered_in_any_order {fs gs : List FuncId} (hperm : fs.Perm gs) :
    (fs.foldlM c.addSimilar {}).toOption = (gs.foldlM c.addSimilar {}).toOption ∧
    ∀ e, fs.foldlM c.addSimilar {} = .ok e → ∀ handlers,
      (fs.foldlM (c.addByHandlers handlers) e).toOption =
        (gs.foldlM (c.addByHandlers handlers) e).toOption ∧
      ∀ e', fs.foldlM (c.addByHandlers handlers) e = .ok e' →
        ∀ id m, e.matched.get? id = some m → e'.matched.get? id = some m := by
  refine ⟨separate_similar.toOption_foldlM_eq_of_perm hperm {}, fun e _ handlers =>
    ⟨(separate_byHandlers handlers).toOption_foldlM_eq_of_perm hperm e, fun e' h' id m hid => ?_⟩⟩
  exact Checked.foldlM_induction (P := fun e => e.matched.get? id = some m)
    (fun _ he _ _ _ h => get?_matched_addByHandlers h he) hid h'

/-- A function with two checks whose error sides are alike, and, in another module, a function with
one check. All error sides call `log`. -/
def checksApart : List Directive :=
  [.module "a", .module "b",
    .declare ⟨0⟩ "source" [] (.int 32), .declare ⟨0⟩ "log" [] .void,
    .declare ⟨0⟩ "twice" [] (.int 32), .declare ⟨1⟩ "once" [] (.int 32),
    .define ⟨2⟩ [.block, .block, .block, .block, .block,
      .moveTo ⟨0⟩, .call ⟨0⟩ [], .cmp .slt (.inst ⟨0⟩) .null, .branch (.inst ⟨1⟩) ⟨1⟩ ⟨2⟩,
      .moveTo ⟨1⟩, .call ⟨1⟩ [], .ret (some (.int (-1) 32)),
      .moveTo ⟨2⟩, .call ⟨0⟩ [], .cmp .slt (.inst ⟨5⟩) .null, .branch (.inst ⟨6⟩) ⟨3⟩ ⟨4⟩,
      .moveTo ⟨3⟩, .call ⟨1⟩ [], .ret (some (.int (-1) 32)),
      .moveTo ⟨4⟩, .ret (some (.int 0 32))],
    .define ⟨3⟩ [.block, .block, .block,
      .moveTo ⟨5⟩, .call ⟨0⟩ [], .cmp .eq (.inst ⟨11⟩) .null, .branch (.inst ⟨12⟩) ⟨7⟩ ⟨6⟩,
      .moveTo ⟨6⟩, .call ⟨1⟩ [], .ret (some (.int (-2) 32)),
      .moveTo ⟨7⟩, .ret (some (.int 0 32))]]

/-- Whichever of the two functions comes first, similar paths decide the two checks of the one, and
with `log` as a handler the check of the other is decided as well. -/
theorem checksApart_gathered_in_any_order :
    ∃ c, ofDirectives checksApart = .ok c ∧ ([⟨2⟩, ⟨3⟩] : List FuncId).Perm [⟨3⟩, ⟨2⟩] ∧
      ∃ e e', c.gatherSimilar = .ok e ∧ [⟨3⟩, ⟨2⟩].foldlM c.addSimilar {} = .ok e ∧
        e.matched.keys = [⟨⟨2⟩, 0⟩, ⟨⟨2⟩, 1⟩] ∧
        c.gatherHandlers (.ofList [⟨1⟩]) e = .ok e' ∧
        [⟨3⟩, ⟨2⟩].foldlM (c.addByHandlers (.ofList [⟨1⟩])) e = .ok e' ∧
        e'.matched.keys = [⟨⟨2⟩, 0⟩, ⟨⟨2⟩, 1⟩, ⟨⟨3⟩, 0⟩] ∧
        ∀ id m, e.matched.get? id = some m → e'.matched.get? id = some m := by
  obtain ⟨c, hc, e, he, e', he', horder, hkeys, hkeys'⟩ : ∃ c, ofDirectives checksApart = .ok c ∧
      ∃ e, c.inModuleOrder.foldlM c.addSimilar {} = .ok e ∧
      ∃ e', c.inModuleOrder.foldlM (c.addByHandlers (.ofList [⟨1⟩])) e = .ok e' ∧
      c.inModuleOrder = [⟨2⟩, ⟨3⟩] ∧ e.matched.keys = [⟨⟨2⟩, 0⟩, ⟨⟨2⟩, 1⟩] ∧
      e'.matched.keys = [⟨⟨2⟩, 0⟩, ⟨⟨2⟩, 1⟩, ⟨⟨3⟩, 0⟩] := by decide +kernel
  have hsimilar : c.gatherSimilar = .ok e := (c.foldAnalysed_eq_foldlM c.addSimilar {}).trans he
  have hhandlers : c.gatherHandlers (.ofList [⟨1⟩]) e = .ok e' :=
    (c.foldAnalysed_eq_foldlM (c.addByHandlers (.ofList [⟨1⟩])) e).trans he'
  rw [horder] at he he'
  have hperm : ([⟨2⟩, ⟨3⟩] : List FuncId).Perm [⟨3⟩, ⟨2⟩] := by decide
  obtain ⟨hsame, hlater⟩ := gathered_in_any_order (c := c) hperm
  obtain ⟨hsame', hkept⟩ := hlater e he (.ofList [⟨1⟩])
  exact ⟨c, hc, hperm, e, e', hsimilar, Checked.eq_ok_of_toOption_eq hsame he, hkeys,
    hhandlers, Checked.eq_ok_of_toOption_eq hsame' he', hkeys', hkept e' he'⟩

end Context

end ErrorReturns
