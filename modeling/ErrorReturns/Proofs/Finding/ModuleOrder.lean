import ErrorReturns.Proofs.CallGraph
import ErrorReturns.Proofs.Context.Order
import ErrorReturns.Proofs.Table.Keys
import ErrorReturns.Proofs.Table.Lookup
import Mathlib.Control.Monad.Basic

/-!
# Incorrect checks and the order of the modules

Incorrect checks are gathered module by module, and the candidates at one place in the source
are reported together. Here the modules come in any order (`Context.findIncorrectIn`). The
tallies do not depend on it, and neither do the places nor which candidates are found at each.
What does depend on it is the sequence of the candidates at a place to which several modules
contribute, as the code of a shared header does: its first candidate decides which functions
the report names, and the sequence becomes the evidence.

Of a candidate a report shows only the functions that it may call and the sides of its check
(`Context.shown`). The modules are `Context.Exchangeable` if at every place any two of them
contribute the same sequence of these whichever comes first. That is exactly when the sequences
do not depend on the order, and then the reports do not depend on it either.
-/

namespace ErrorReturns

open Checked (bind_eq_ok_iff)

/-! ## Candidates at a place -/

/-- The candidates of a list that are at one place. -/
def candidatesAt (site : Site) (xs : List (Site × Candidate)) : List Candidate :=
  (xs.filter fun x => x.1 = site).map (·.2)

@[simp] theorem candidatesAt_cons_self (x : Site × Candidate) (xs : List (Site × Candidate)) :
    candidatesAt x.1 (x :: xs) = x.2 :: candidatesAt x.1 xs := by
  simp [candidatesAt]

theorem candidatesAt_cons_of_ne {site : Site} {x : Site × Candidate} (h : x.1 ≠ site)
    (xs : List (Site × Candidate)) : candidatesAt site (x :: xs) = candidatesAt site xs := by
  simp [candidatesAt, h]

theorem candidatesAt_perm (site : Site) {xs ys : List (Site × Candidate)} (h : xs.Perm ys) :
    (candidatesAt site xs).Perm (candidatesAt site ys) :=
  (h.filter _).map _

namespace Sites

/-- The places of some candidates, each with those that are there. -/
def ofCandidates (xs : List (Site × Candidate)) : Sites :=
  xs.foldl (fun sites x => sites.add x.1 x.2) {}

/-- A place gets the candidates that were added there, in the order in which they were added. -/
theorem get?_foldl_add (sites : Sites) (xs : List (Site × Candidate)) (site : Site) :
    (xs.foldl (fun sites x => sites.add x.1 x.2) sites).get? site =
      if candidatesAt site xs = [] then sites.get? site
      else some ((sites.get? site).getD [] ++ candidatesAt site xs) := by
  induction xs generalizing sites with
  | nil => rfl
  | cons x rest ih =>
    have hx : (sites.add x.1 x.2).get? site =
        if site = x.1 then some ((sites.get? x.1).getD [] ++ [x.2]) else sites.get? site :=
      Table.get?_update sites x.1 site _
    rw [List.foldl_cons, ih, hx]
    by_cases hsite : x.1 = site
    · subst hsite
      rw [candidatesAt_cons_self, if_pos rfl, if_neg (List.cons_ne_nil _ _)]
      split
      · rename_i hrest
        rw [hrest]
      · rw [Option.getD_some, List.append_assoc, List.singleton_append]
    · rw [candidatesAt_cons_of_ne hsite, if_neg (Ne.symm hsite)]

/-- **The candidates at each place**: a place without candidates has no entry. -/
theorem get?_ofCandidates (xs : List (Site × Candidate)) (site : Site) :
    (ofCandidates xs).get? site =
      if candidatesAt site xs = [] then none else some (candidatesAt site xs) :=
  get?_foldl_add {} xs site

@[simp] theorem getD_get?_ofCandidates (xs : List (Site × Candidate)) (site : Site) :
    ((ofCandidates xs).get? site).getD [] = candidatesAt site xs := by
  rw [get?_ofCandidates]
  split
  · rename_i h
    rw [h, Option.getD_none]
  · rw [Option.getD_some]

/-- Which places there are does not depend on the order of candidates. -/
theorem keys_ofCandidates_of_perm {xs ys : List (Site × Candidate)} (h : xs.Perm ys) :
    (ofCandidates xs).keys = (ofCandidates ys).keys := by
  refine Table.keys_eq fun site => ?_
  have hlength := (candidatesAt_perm site h).length_eq
  have hnil : candidatesAt site xs = [] ↔ candidatesAt site ys = [] := by
    rw [← List.length_eq_zero_iff, ← List.length_eq_zero_iff, hlength]
  rw [Table.contains, Table.contains, get?_ofCandidates, get?_ofCandidates]
  by_cases hys : candidatesAt site ys = []
  · rw [if_pos hys, if_pos (hnil.mpr hys)]
  · rw [if_neg hys, if_neg (hys ∘ hnil.mp)]
    rfl

end Sites

/-! ## Merging -/

namespace IncorrectState

/-- What some functions contribute together. -/
def mergeAll (es : List IncorrectEvidence) : IncorrectState := es.foldl merge {}

/-- The places of all functions are those of all their candidates, one function after another. -/
@[simp] theorem sites_mergeAll (es : List IncorrectEvidence) :
    (mergeAll es).sites = Sites.ofCandidates (es.flatMap (·.candidates)) := by
  have hrun : ∀ s : IncorrectState, (es.foldl merge s).sites =
      (es.flatMap (·.candidates)).foldl (fun sites x => sites.add x.1 x.2) s.sites := by
    induction es with
    | nil => exact fun _ => rfl
    | cons e rest ih =>
      intro s
      rw [List.foldl_cons, ih, List.flatMap_cons, List.foldl_append]
      rfl
  exact hrun {}

theorem tallies_mergeAll (es : List IncorrectEvidence) :
    (mergeAll es).tallies = es.foldl (fun t e => e.tallies.entries.foldl
      (fun t x => t.update x.1 fun old => (old.getD {}).add x.2) t) {} :=
  (List.foldl_hom tallies fun _ _ => rfl).symm

/-- **Tallies add up** in any order. -/
theorem tallies_mergeAll_of_perm {es es' : List IncorrectEvidence} (hperm : es.Perm es') :
    (mergeAll es).tallies = (mergeAll es').tallies := by
  rw [tallies_mergeAll, tallies_mergeAll]
  refine hperm.foldl_eq' (fun e _ e' _ t => ?_) _
  refine Table.foldl_update_right_comm t (fun n (old : Option Tally) => (old.getD {}).add n)
    fun f x y _ _ => ?_
  simp only [Tally.add, Option.getD_some, Tally.mk.injEq]
  omega

end IncorrectState

namespace Context

variable {c : Context} {errors : ErrorTable}

/-! ## Modules in any order -/

variable (c errors) in
/-- **The incorrect checks of some modules**, one module after the other. -/
def findIncorrectIn (ms : List ModuleId) : Checked IncorrectState :=
  c.foldModules (fun s f => return s.merge (← c.incorrectChecks errors f)) {} ms

theorem findIncorrect_eq_findIncorrectIn :
    c.findIncorrect errors = c.findIncorrectIn errors c.program.moduleIds := rfl

variable (c errors) in
/-- What the functions of a module contribute. -/
def incorrectIn (m : ModuleId) : Checked (List IncorrectEvidence) := do
  (← c.analysedIn m).mapM (c.incorrectChecks errors)

/-- The search goes through the modules, and merges at the end what it may as well merge on the way.
-/
theorem findIncorrectIn_eq (ms : List ModuleId) : c.findIncorrectIn errors ms =
    ms.mapM (c.incorrectIn errors) >>= fun ess => .ok (.mergeAll ess.flatten) := by
  have hmodule : ∀ (s : IncorrectState) (m : ModuleId),
      (do (← c.analysedIn m).foldlM (fun s f => return s.merge (← c.incorrectChecks errors f)) s) =
        (return (← c.incorrectIn errors m).foldl IncorrectState.merge s : Checked _) := by
    intro s m
    unfold incorrectIn
    cases c.analysedIn m with
    | error e => rfl
    | ok fs => exact Checked.foldlM_eq_mapM (c.incorrectChecks errors) IncorrectState.merge fs s
  unfold findIncorrectIn foldModules
  simp only [hmodule]
  rw [Checked.foldlM_eq_mapM (c.incorrectIn errors) fun s es => es.foldl IncorrectState.merge s]
  refine congrArg (_ >>= ·) (funext fun ess => ?_)
  rw [IncorrectState.mergeAll, List.foldl_flatten]

/-- What a run finds is merged from what each module contributes. -/
theorem findIncorrectIn_eq_ok_iff {ms : List ModuleId} {s : IncorrectState} :
    c.findIncorrectIn errors ms = .ok s ↔
      ∃ ess, ms.mapM (c.incorrectIn errors) = .ok ess ∧ s = .mergeAll ess.flatten := by
  rw [findIncorrectIn_eq, bind_eq_ok_iff]
  simp only [Except.ok.injEq, eq_comm]

/-! ## What reports show -/

variable (c) in
/-- What a report shows of a candidate: the functions that it may call, and the sides of its
check. -/
def shown (x : Candidate) : Option (SortedSet FuncId) × Option (RangeSet × RangeSet) :=
  (c.graph.callees? x.call, x.checked)

variable (c) in
/-- What a report shows of the candidates at each place. -/
def shownSites (sites : Sites) :
    Table Site (List (Option (SortedSet FuncId) × Option (RangeSet × RangeSet))) :=
  sites.mapValues (·.map c.shown)

theorem getD_get?_shownSites (xs : List (Site × Candidate)) (site : Site) :
    ((c.shownSites (.ofCandidates xs)).get? site).getD [] = (candidatesAt site xs).map c.shown := by
  rw [shownSites, Table.get?_mapValues, ← Sites.getD_get?_ofCandidates]
  cases (Sites.ofCandidates xs).get? site <;> rfl

/-- The same is shown of two lists of candidates if the same is shown at every place. -/
theorem shownSites_ofCandidates_eq_iff {xs ys : List (Site × Candidate)} :
    c.shownSites (.ofCandidates xs) = c.shownSites (.ofCandidates ys) ↔
      ∀ site, (candidatesAt site xs).map c.shown = (candidatesAt site ys).map c.shown := by
  constructor
  · intro h site
    rw [← getD_get?_shownSites xs, h, getD_get?_shownSites ys]
  · intro h
    refine Table.ext fun site => ?_
    have hnil : candidatesAt site xs = [] ↔ candidatesAt site ys = [] := by
      rw [← List.map_eq_nil_iff (f := c.shown), h site, List.map_eq_nil_iff]
    rw [shownSites, shownSites, Table.get?_mapValues, Table.get?_mapValues,
      Sites.get?_ofCandidates, Sites.get?_ofCandidates]
    by_cases hys : candidatesAt site ys = []
    · rw [if_pos hys, if_pos (hnil.mpr hys)]
    · rw [if_neg hys, if_neg (hys ∘ hnil.mp)]
      exact congrArg some (h site)

/-- The report of a place depends on what is shown of its candidates only. -/
theorem report?_eq_of_shown {kind : ViolationKind} {tallies : Table FuncId Tally}
    {threshold : Float} {site : Site} {xs ys : List Candidate}
    (h : xs.map c.shown = ys.map c.shown) :
    Scorer.report? ⟨c.program, c.graph, errors⟩ kind tallies threshold site xs =
      Scorer.report? ⟨c.program, c.graph, errors⟩ kind tallies threshold site ys := by
  -- a report reads of its candidates only which values were checked and the callees of the first
  -- call
  have hchecked : xs.filterMap (·.checked) = ys.filterMap (·.checked) := by
    have hmap := congrArg (List.filterMap Prod.snd) h
    rw [List.filterMap_map, List.filterMap_map] at hmap
    exact hmap
  have hevidence : ∀ callees, Scorer.evidence ⟨c.program, c.graph, errors⟩ callees xs =
      Scorer.evidence ⟨c.program, c.graph, errors⟩ callees ys := by
    intro callees
    rw [Scorer.evidence, Scorer.evidence, hchecked]
  have hfirst : xs.head?.map (fun x => c.graph.callees? x.call) =
      ys.head?.map fun x => c.graph.callees? x.call := by
    have hhead := congrArg (fun l => l.head?.map Prod.fst) h
    simp only [List.head?_map, Option.map_map] at hhead
    exact hhead
  unfold Scorer.report?
  cases hx : xs.head? with
  | none =>
    rw [hx, Option.map_none, eq_comm, Option.map_eq_none_iff] at hfirst
    rw [hfirst]
  | some x =>
    cases hy : ys.head? with
    | none =>
      rw [hx, hy] at hfirst
      cases hfirst
    | some y =>
      rw [hx, hy, Option.map_some, Option.map_some, Option.some.injEq] at hfirst
      simp only [hfirst, hevidence]

/-- **Reports depend on what is shown** of the candidates at each place only. -/
theorem score_eq_of_shownSites {kind : ViolationKind} {tallies : Table FuncId Tally}
    {threshold : Float} {sites sites' : Sites} (h : c.shownSites sites = c.shownSites sites') :
    Scorer.score ⟨c.program, c.graph, errors⟩ kind sites tallies threshold =
      Scorer.score ⟨c.program, c.graph, errors⟩ kind sites' tallies threshold := by
  have hentries : (sites.entries.map fun e => (e.1, e.2.map c.shown)) =
      sites'.entries.map fun e => (e.1, e.2.map c.shown) := congrArg Table.entries h
  unfold Scorer.score
  generalize sites.entries = es at hentries
  generalize sites'.entries = es' at hentries
  induction es generalizing es' with
  | nil =>
    obtain rfl := List.map_eq_nil_iff.mp hentries.symm
    rfl
  | cons e rest ih =>
    cases es' with
    | nil => cases hentries
    | cons e' rest' =>
      obtain ⟨hhead, hrest⟩ := List.cons.inj hentries
      obtain ⟨hsite, hshown⟩ := Prod.mk.inj hhead
      rw [List.filterMapM_cons, List.filterMapM_cons, ih rest' hrest, hsite,
        report?_eq_of_shown hshown]

/-! ## The same reports in any order -/

variable (c errors) in
/-- The reports of incorrect checks of some modules, one module after the other. -/
def incorrectReports (threshold : Float) (ms : List ModuleId) : Checked (List Violation) := do
  let s ← c.findIncorrectIn errors ms
  Scorer.score ⟨c.program, c.graph, errors⟩ .incorrect s.sites s.tallies threshold

variable (c) in
/-- What is shown of what some functions contribute, with the places. -/
def shownCandidates (es : List IncorrectEvidence) :
    List (Site × Option (SortedSet FuncId) × Option (RangeSet × RangeSet)) :=
  (es.flatMap (·.candidates)).map fun x => (x.1, c.shown x.2)

/-- Given by name, as it takes long to find. -/
instance decidableEqShown :
    DecidableEq (List (Site × Option (SortedSet FuncId) × Option (RangeSet × RangeSet))) :=
  instDecidableEqList

variable (c) in
/-- What is shown at a place of what some functions contribute. -/
def shownAt (site : Site) (es : List IncorrectEvidence) :
    List (Option (SortedSet FuncId) × Option (RangeSet × RangeSet)) :=
  ((c.shownCandidates es).filter fun x => x.1 = site).map (·.2)

theorem shownAt_eq_candidatesAt (site : Site) (es : List IncorrectEvidence) :
    c.shownAt site es = (candidatesAt site (es.flatMap (·.candidates))).map c.shown := by
  simp [shownAt, shownCandidates, candidatesAt, List.filter_map, Function.comp_def]

@[simp] theorem shownAt_append (site : Site) (es es' : List IncorrectEvidence) :
    c.shownAt site (es ++ es') = c.shownAt site es ++ c.shownAt site es' := by
  simp [shownAt, shownCandidates]

/-- What is shown at a place is put together from what each function shows there. -/
theorem shownAt_flatten (site : Site) (ess : List (List IncorrectEvidence)) :
    c.shownAt site ess.flatten = ess.foldl (fun shown es => shown ++ c.shownAt site es) [] := by
  have hrun : ∀ shown, ess.foldl (fun shown es => shown ++ c.shownAt site es) shown =
      shown ++ c.shownAt site ess.flatten := by
    induction ess with
    | nil => exact fun shown => (List.append_nil shown).symm
    | cons es rest ih =>
      intro shown
      rw [List.foldl_cons, ih, List.flatten_cons, shownAt_append, List.append_assoc]
  exact (hrun []).symm

variable (c errors) in
/-- **Modules that can be exchanged**: at every place, what is shown of the candidates of any two
of them is the same sequence whichever comes first. -/
def Exchangeable (ms : List ModuleId) : Prop :=
  ∀ m ∈ ms, ∀ m' ∈ ms, ∀ es es', c.incorrectIn errors m = .ok es →
    c.incorrectIn errors m' = .ok es' →
      ∀ site, c.shownAt site (es ++ es') = c.shownAt site (es' ++ es)

/-- Modules that contribute the same can be exchanged. -/
theorem exchangeable_of_shownCandidates {ms : List ModuleId}
    (xs : List (Site × Option (SortedSet FuncId) × Option (RangeSet × RangeSet)))
    (h : ∀ m ∈ ms, ∀ es, c.incorrectIn errors m = .ok es → c.shownCandidates es = xs) :
    c.Exchangeable errors ms := by
  intro m hm m' hm' es es' hes hes' site
  rw [shownAt_append, shownAt_append, shownAt, shownAt, h m hm es hes, h m' hm' es' hes']

/-- **Modules that can be exchanged may come in any order**: the same is shown at every place. -/
theorem Exchangeable.shownAt_of_perm {ms : List ModuleId} (h : c.Exchangeable errors ms)
    {ess ess' : List (List IncorrectEvidence)} (hess : ms.mapM (c.incorrectIn errors) = .ok ess)
    (hperm : ess.Perm ess') (site : Site) :
    c.shownAt site ess.flatten = c.shownAt site ess'.flatten := by
  rw [shownAt_flatten, shownAt_flatten]
  refine hperm.foldl_eq' (fun es hes es' hes' shown => ?_) []
  obtain ⟨m, hm, hes⟩ := Checked.exists_of_mem_mapM hess hes
  obtain ⟨m', hm', hes'⟩ := Checked.exists_of_mem_mapM hess hes'
  have hcomm := h m hm m' hm' es es' hes hes' site
  rw [c.shownAt_append, c.shownAt_append] at hcomm
  rw [List.append_assoc, hcomm, List.append_assoc]

theorem shownSites_mergeAll_eq_iff {es es' : List IncorrectEvidence} :
    c.shownSites (IncorrectState.mergeAll es).sites =
        c.shownSites (IncorrectState.mergeAll es').sites ↔
      ∀ site, c.shownAt site es = c.shownAt site es' := by
  rw [IncorrectState.sites_mergeAll, IncorrectState.sites_mergeAll, shownSites_ofCandidates_eq_iff]
  simp only [shownAt_eq_candidatesAt]

/-- If the same is shown whichever of two modules comes first, they can be exchanged. -/
theorem exchangeable_of_shownSites {ms : List ModuleId} {s : IncorrectState}
    (hs : c.findIncorrectIn errors ms = .ok s)
    (h : ∀ ms' s', ms.Perm ms' → c.findIncorrectIn errors ms' = .ok s' →
      c.shownSites s'.sites = c.shownSites s.sites) : c.Exchangeable errors ms := by
  intro m hm m' hm' es es' hes hes' site
  by_cases heq : m = m'
  · subst heq
    rw [Except.ok.inj (hes.symm.trans hes')]
  -- the two modules first, in both orders, and the others after them
  · have hm'' : m' ∈ ms.erase m := (List.mem_erase_of_ne (Ne.symm heq)).mpr hm'
    have hperm : ms.Perm (m :: m' :: (ms.erase m).erase m') :=
      (List.perm_cons_erase hm).trans ((List.perm_cons_erase hm'').cons m)
    obtain ⟨ess, hess, rfl⟩ := findIncorrectIn_eq_ok_iff.mp hs
    obtain ⟨ess', hess', -⟩ := Checked.exists_mapM_of_perm hperm hess
    rw [List.mapM_cons, hes, Checked.ok_bind, List.mapM_cons, hes', Checked.ok_bind] at hess'
    obtain ⟨_, hrest, -⟩ := bind_eq_ok_iff.mp hess'
    obtain ⟨rest, hrest, -⟩ := bind_eq_ok_iff.mp hrest
    have hfirst := h (m :: m' :: (ms.erase m).erase m') (.mergeAll (es :: es' :: rest).flatten)
      hperm (findIncorrectIn_eq_ok_iff.mpr ⟨es :: es' :: rest, by simp [hes, hes', hrest], rfl⟩)
    have hsecond := h (m' :: m :: (ms.erase m).erase m') (.mergeAll (es' :: es :: rest).flatten)
      (hperm.trans (.swap m' m _))
      (findIncorrectIn_eq_ok_iff.mpr ⟨es' :: es :: rest, by simp [hes, hes', hrest], rfl⟩)
    have hsite := shownSites_mergeAll_eq_iff.mp (hfirst.trans hsecond.symm) site
    simp only [List.flatten_cons, ← List.append_assoc] at hsite
    rw [c.shownAt_append, c.shownAt_append site (es' ++ es)] at hsite
    exact List.append_cancel_right hsite

/-- **Incorrect checks in any order of the modules.** Every order has a result if one has, with the
same tallies, the same places and the same candidates at each of them. The candidates at a place
may come in a different sequence: what is shown of it does not depend on the order exactly when
the modules can be exchanged, and then the reports do not depend on the order either. -/
theorem incorrect_in_any_module_order {ms : List ModuleId} {s : IncorrectState}
    (hs : c.findIncorrectIn errors ms = .ok s) :
    (∀ ms', ms.Perm ms' → ∃ s', c.findIncorrectIn errors ms' = .ok s' ∧
      s'.tallies = s.tallies ∧ s'.sites.keys = s.sites.keys ∧
      ∀ site, ((s'.sites.get? site).getD []).Perm ((s.sites.get? site).getD [])) ∧
    ((∀ ms' s', ms.Perm ms' → c.findIncorrectIn errors ms' = .ok s' →
      c.shownSites s'.sites = c.shownSites s.sites) ↔ c.Exchangeable errors ms) ∧
    (c.Exchangeable errors ms → ∀ ms' threshold, ms.Perm ms' →
      c.incorrectReports errors threshold ms' = c.incorrectReports errors threshold ms) := by
  obtain ⟨ess, hess, rfl⟩ := findIncorrectIn_eq_ok_iff.mp hs
  -- another order of the modules merges the same contributions in another order
  have hother : ∀ ms', ms.Perm ms' → ∃ ess', c.findIncorrectIn errors ms' =
      .ok (.mergeAll ess'.flatten) ∧ ess.Perm ess' := by
    intro ms' hperm
    obtain ⟨ess', hess', hperm'⟩ := Checked.exists_mapM_of_perm hperm hess
    exact ⟨ess', findIncorrectIn_eq_ok_iff.mpr ⟨ess', hess', rfl⟩, hperm'⟩
  have hshown : c.Exchangeable errors ms → ∀ ess' : List (List IncorrectEvidence), ess.Perm ess' →
      c.shownSites (IncorrectState.mergeAll ess'.flatten).sites =
        c.shownSites (IncorrectState.mergeAll ess.flatten).sites := fun hex ess' hperm =>
    shownSites_mergeAll_eq_iff.mpr fun site => (hex.shownAt_of_perm hess hperm site).symm
  have htallies : ∀ ess' : List (List IncorrectEvidence), ess.Perm ess' →
      (IncorrectState.mergeAll ess'.flatten).tallies =
        (IncorrectState.mergeAll ess.flatten).tallies := fun ess' hperm =>
    (IncorrectState.tallies_mergeAll_of_perm hperm.flatten).symm
  refine ⟨fun ms' hperm => ?_, ⟨exchangeable_of_shownSites hs, fun hex ms' s' hperm hs' => ?_⟩,
    fun hex ms' threshold hperm => ?_⟩
  · obtain ⟨ess', hs', hperm'⟩ := hother ms' hperm
    have hsites := hperm'.flatten.flatMap_right (·.candidates)
    refine ⟨_, hs', htallies ess' hperm', ?_, fun site => ?_⟩
    · rw [IncorrectState.sites_mergeAll, IncorrectState.sites_mergeAll]
      exact Sites.keys_ofCandidates_of_perm hsites.symm
    · rw [IncorrectState.sites_mergeAll, IncorrectState.sites_mergeAll,
        Sites.getD_get?_ofCandidates, Sites.getD_get?_ofCandidates]
      exact candidatesAt_perm site hsites.symm
  · obtain ⟨ess', hs'', hperm'⟩ := hother ms' hperm
    obtain rfl := Except.ok.inj (hs''.symm.trans hs')
    exact hshown hex ess' hperm'
  · obtain ⟨ess', hs', hperm'⟩ := hother ms' hperm
    unfold incorrectReports
    rw [hs', hs, Checked.ok_bind, Checked.ok_bind, htallies ess' hperm']
    exact score_eq_of_shownSites (hshown hex ess' hperm')

/-- Two modules with a check each of `source`, both at the same place of a header. One compares with
`-1`, the other with `second`. -/
def sharedHeader (second : Int) : List Directive :=
  [.module "a", .module "b",
    .declare ⟨0⟩ "source" [] (.int 32),
    .declare ⟨0⟩ "first" [] (.int 32), .declare ⟨1⟩ "second" [] (.int 32),
    .define ⟨1⟩ [.block, .block, .block,
      .moveTo ⟨0⟩, .setLoc (some ⟨⟨"shared.h", 7, 3⟩, []⟩), .call ⟨0⟩ [],
      .cmp .slt (.inst ⟨0⟩) (.int (-1) 32), .branch (.inst ⟨1⟩) ⟨1⟩ ⟨2⟩,
      .moveTo ⟨1⟩, .ret (some (.int 1 32)), .moveTo ⟨2⟩, .ret (some (.int 0 32))],
    .define ⟨2⟩ [.block, .block, .block,
      .moveTo ⟨3⟩, .setLoc (some ⟨⟨"shared.h", 7, 3⟩, []⟩), .call ⟨0⟩ [],
      .cmp .slt (.inst ⟨5⟩) (.int second 32), .branch (.inst ⟨6⟩) ⟨4⟩ ⟨5⟩,
      .moveTo ⟨4⟩, .ret (some (.int 1 32)), .moveTo ⟨5⟩, .ret (some (.int 0 32))]]

/-- The error values of `source`, of which neither check covers all. -/
def sourceErrors : ErrorTable := .ofList [(⟨⟨0⟩, 0⟩, .ofRange (-5) (-1))]

/-- If the two checks compare with the same value, the two modules can be exchanged, and either
order brings the same reports. -/
theorem sharedHeader_incorrect_in_any_module_order :
    ∃ c s, ofDirectives (sharedHeader (-1)) = .ok c ∧ c.program.moduleIds = [⟨0⟩, ⟨1⟩] ∧
      c.findIncorrect sourceErrors = .ok s ∧
      s.sites.values.map List.length = [2] ∧ c.Exchangeable sourceErrors [⟨0⟩, ⟨1⟩] ∧
      ∀ threshold, c.incorrectReports sourceErrors threshold [⟨1⟩, ⟨0⟩] =
        c.incorrectReports sourceErrors threshold [⟨0⟩, ⟨1⟩] := by
  obtain ⟨c, hc, s, hs, es, hes, es', hes', horder, hlengths, hsame⟩ :
      ∃ c, ofDirectives (sharedHeader (-1)) = .ok c ∧
      ∃ s, c.findIncorrectIn sourceErrors [⟨0⟩, ⟨1⟩] = .ok s ∧
      ∃ es, c.incorrectIn sourceErrors ⟨0⟩ = .ok es ∧
      ∃ es', c.incorrectIn sourceErrors ⟨1⟩ = .ok es' ∧ c.program.moduleIds = [⟨0⟩, ⟨1⟩] ∧
      s.sites.values.map List.length = [2] ∧ c.shownCandidates es = c.shownCandidates es' := by
    decide +kernel
  have hex : c.Exchangeable sourceErrors [⟨0⟩, ⟨1⟩] := by
    refine exchangeable_of_shownCandidates (c.shownCandidates es) ?_
    simp only [List.forall_mem_cons, List.not_mem_nil, false_imp_iff, implies_true, and_true]
    exact ⟨fun _ h => by rw [Except.ok.inj (hes.symm.trans h)],
      fun _ h => by rw [hsame, Except.ok.inj (hes'.symm.trans h)]⟩
  obtain ⟨-, -, hreports⟩ := incorrect_in_any_module_order hs
  refine ⟨c, s, hc, horder, ?_, hlengths, hex, fun threshold =>
    hreports hex [⟨1⟩, ⟨0⟩] threshold (by decide)⟩
  rw [findIncorrect_eq_findIncorrectIn, horder, hs]

/-- If they compare with different values, the evidence of the one report comes in the order of the
modules. -/
theorem sharedHeader_evidence_in_module_order :
    ∃ c reports reports', ofDirectives (sharedHeader (-2)) = .ok c ∧
      c.program.moduleIds = [⟨0⟩, ⟨1⟩] ∧
      c.incorrectReports sourceErrors 0 [⟨0⟩, ⟨1⟩] = .ok reports ∧
      c.incorrectReports sourceErrors 0 [⟨1⟩, ⟨0⟩] = .ok reports' ∧
      reports.map (·.evidence) = [[.ofRange (-5) (-1), .ofRange (Word.lowest 32) (-2),
        .ofRange (-1) (Word.highest 32), .ofRange (Word.lowest 32) (-3),
        .ofRange (-2) (Word.highest 32)]] ∧
      reports'.map (·.evidence) = [[.ofRange (-5) (-1), .ofRange (Word.lowest 32) (-3),
        .ofRange (-2) (Word.highest 32), .ofRange (Word.lowest 32) (-2),
        .ofRange (-1) (Word.highest 32)]] := by
  obtain ⟨c, hc, horder, reports, hreports, reports', hreports', hevidence⟩ :
      ∃ c, ofDirectives (sharedHeader (-2)) = .ok c ∧ c.program.moduleIds = [⟨0⟩, ⟨1⟩] ∧
      ∃ reports, c.incorrectReports sourceErrors 0 [⟨0⟩, ⟨1⟩] = .ok reports ∧
      ∃ reports', c.incorrectReports sourceErrors 0 [⟨1⟩, ⟨0⟩] = .ok reports' ∧
      reports.map (·.evidence) = [[.ofRange (-5) (-1), .ofRange (Word.lowest 32) (-2),
        .ofRange (-1) (Word.highest 32), .ofRange (Word.lowest 32) (-3),
        .ofRange (-2) (Word.highest 32)]] ∧
      reports'.map (·.evidence) = [[.ofRange (-5) (-1), .ofRange (Word.lowest 32) (-3),
        .ofRange (-2) (Word.highest 32), .ofRange (Word.lowest 32) (-2),
        .ofRange (-1) (Word.highest 32)]] := by
    decide +kernel
  exact ⟨c, reports, reports', hc, horder, hreports, hreports', hevidence⟩

end Context

end ErrorReturns
