import ErrorReturns.Proofs.Comparison
import ErrorReturns.Proofs.Finding.Inside
import ErrorReturns.Proofs.Finding.Tallies
import ErrorReturns.Proofs.RangeSet.Membership
import Mathlib.Data.List.Forall2

/-!
# When a check is incorrect

A checked call is judged by two sets: the values that satisfy some condition on it, and those that
fail some. Neither is what one would like to know. The error values lie on one side of the check if
they are all within one of the sets, so the check is incorrect if one of them is outside the first
and one outside the second: **an error value that satisfies no condition, and one that satisfies
them all** (`Context.Misses`). The two may come from different functions that the call may reach.

The sets are read through their members (`Sides.Tells`). The pass over the conditions of a function
keeps which of them have gone into the sets of which call (`Sides.Gathered`), and the pass over the
checked calls keeps which of them have been judged, and how (`Context.Judged`).
-/

namespace ErrorReturns

open Checked

/-! ## The sides of a check -/

/-- **A condition on a checked call**: it compares the result with a constant. -/
def Condition.Compares (p : Program) (cond : Condition) (x : CheckedCall) (pred : Predicate)
    (rhs : Int) : Prop :=
  ∃ lhs v origin fromBranch, cond = .comparison lhs pred v origin fromBranch ∧
    p.callOf? lhs.value = .ok (some x.call) ∧ lhs.slot = x.slot ∧ v.word32? = some rhs

/-- A comparison compares the call it looks at with the constant on its other side. -/
theorem Condition.compares_comparison_iff {p : Program} {lhs : CheckedValue} {pred : Predicate}
    {v : Value} {origin : InstId} {fromBranch : Bool} {x : CheckedCall} {pred' : Predicate}
    {rhs : Int} : (comparison lhs pred v origin fromBranch).Compares p x pred' rhs ↔
      (p.callOf? lhs.value = .ok (some x.call) ∧ lhs.slot = x.slot) ∧ pred' = pred ∧
        v.word32? = some rhs := by
  constructor
  · rintro ⟨lhs', v', origin', fromBranch', heq, hcall, hslot, hv⟩
    cases heq
    exact ⟨⟨hcall, hslot⟩, rfl, hv⟩
  · rintro ⟨⟨hcall, hslot⟩, rfl, hv⟩
    exact ⟨lhs, v, origin, fromBranch, rfl, hcall, hslot, hv⟩

namespace Sides

/-- **What the sides of a check mean**: the words that satisfy some condition, and those that fail
some. -/
structure Tells (conds : Predicate → Int → Prop) (s : Sides) : Prop where
  canonical_satisfying : s.satisfying.Canonical
  canonical_failing : s.failing.Canonical
  mem_satisfying : ∀ v, v ∈ s.satisfying ↔
    Word.Fits 32 v ∧ ∃ pred rhs, conds pred rhs ∧ pred.onInts v rhs = true
  mem_failing : ∀ v, v ∈ s.failing ↔
    Word.Fits 32 v ∧ ∃ pred rhs, conds pred rhs ∧ pred.onInts v rhs = false

variable {conds : Predicate → Int → Prop} {s : Sides}

theorem tells_empty (h : ∀ pred rhs, ¬ conds pred rhs) : Tells conds {} where
  canonical_satisfying := RangeSet.canonical_empty
  canonical_failing := RangeSet.canonical_empty
  mem_satisfying _ := iff_of_false RangeSet.not_mem_nil fun ⟨_, pred, rhs, hcond, _⟩ =>
    h pred rhs hcond
  mem_failing _ := iff_of_false RangeSet.not_mem_nil fun ⟨_, pred, rhs, hcond, _⟩ =>
    h pred rhs hcond

theorem Tells.congr {conds' : Predicate → Int → Prop} (h : s.Tells conds)
    (hconds : ∀ pred rhs, conds pred rhs ↔ conds' pred rhs) : s.Tells conds' := by
  have heq : conds = conds' := funext₂ fun pred rhs => propext (hconds pred rhs)
  rwa [← heq]

/-- One more comparison adds its values to both sides. -/
theorem Tells.add (h : s.Tells conds) (pred : Predicate) {rhs : Int} (hrhs : Word.Fits 32 rhs) :
    (s.add pred rhs).Tells fun pred' rhs' => conds pred' rhs' ∨ pred' = pred ∧ rhs' = rhs where
  canonical_satisfying :=
    h.canonical_satisfying.union (RangeSet.canonical_full.narrow pred hrhs)
  canonical_failing :=
    h.canonical_failing.union (RangeSet.canonical_full.narrow pred.inverse hrhs)
  mem_satisfying v := by
    rw [Sides.add, RangeSet.mem_union, h.mem_satisfying, RangeSet.mem_narrow_full]
    simp only [or_and_right, exists_or, and_assoc, exists_and_left, exists_eq_left, ← and_or_left]
  mem_failing v := by
    rw [Sides.add, RangeSet.mem_union, h.mem_failing, RangeSet.mem_narrow_full,
      Predicate.onInts_inverse, Bool.not_eq_true']
    simp only [or_and_right, exists_or, and_assoc, exists_and_left, exists_eq_left, ← and_or_left]

/-- **The sides of all checked calls**, as far as some conditions tell them. -/
structure Gathered (p : Program) (conds : List Condition) (t : Table CheckedCall Sides) :
    Prop where
  contains_iff : ∀ x, t.contains x = true ↔
    ∃ pred rhs, ∃ cond ∈ conds, cond.Compares p x pred rhs
  tells : ∀ x, ((t.get? x).getD {}).Tells fun pred rhs => ∃ cond ∈ conds, cond.Compares p x pred rhs

variable {p : Program}

theorem gathered_nil : Gathered p [] {} where
  contains_iff _ := iff_of_false Bool.false_ne_true fun ⟨_, _, _, hcond, _⟩ =>
    absurd hcond List.not_mem_nil
  tells _ := tells_empty fun _ _ ⟨_, hcond, _⟩ => absurd hcond List.not_mem_nil

variable {conds : List Condition} {t : Table CheckedCall Sides} {cond : Condition}

/-- A condition that compares no call with a constant does not count. -/
theorem Gathered.skip (h : Gathered p conds t)
    (hcond : ∀ x pred rhs, ¬ cond.Compares p x pred rhs) : Gathered p (conds ++ [cond]) t := by
  have hmem : ∀ x pred rhs, (∃ cond' ∈ conds, cond'.Compares p x pred rhs) ↔
      ∃ cond' ∈ conds ++ [cond], cond'.Compares p x pred rhs := fun x pred rhs => by
    simp only [List.mem_append, List.mem_singleton, or_and_right, exists_or, exists_eq_left,
      hcond, or_false]
  exact ⟨fun x => (h.contains_iff x).trans (by simp only [hmem]),
    fun x => (h.tells x).congr (hmem x)⟩

/-- A condition that does is added to the sides of its call. -/
theorem Gathered.add (h : Gathered p conds t) {x : CheckedCall} {pred : Predicate} {rhs : Int}
    (hrhs : Word.Fits 32 rhs)
    (hcond : ∀ x' pred' rhs', cond.Compares p x' pred' rhs' ↔ x' = x ∧ pred' = pred ∧ rhs' = rhs) :
    Gathered p (conds ++ [cond]) (t.update x fun old => (old.getD {}).add pred rhs) := by
  have hmem : ∀ x' pred' rhs', (∃ cond' ∈ conds ++ [cond], cond'.Compares p x' pred' rhs') ↔
      (∃ cond' ∈ conds, cond'.Compares p x' pred' rhs') ∨ x' = x ∧ pred' = pred ∧ rhs' = rhs :=
    fun x' pred' rhs' => by
      simp only [List.mem_append, List.mem_singleton, or_and_right, exists_or, exists_eq_left,
        hcond]
  refine ⟨fun x' => ?_, fun x' => ?_⟩
  · rw [Table.contains_update_iff, h.contains_iff]
    simp only [hmem, exists_or, exists_and_left, exists_eq, and_true]
    exact or_comm
  · rw [Table.get?_update]
    split
    case isTrue heq =>
      subst heq
      exact ((h.tells x').add pred hrhs).congr fun pred' rhs' => by simp only [hmem, true_and]
    case isFalse hne =>
      exact (h.tells x').congr fun pred' rhs' => by simp only [hmem, hne, false_and, or_false]

theorem Gathered.tells_of_mem (h : Gathered p conds t) {y : CheckedCall × Sides}
    (hy : y ∈ t.entries) :
    y.2.Tells fun pred rhs => ∃ cond ∈ conds, cond.Compares p y.1 pred rhs := by
  have hget : t.get? y.1 = some y.2 := Table.get?_eq_some_iff.mpr hy
  have hsides := h.tells y.1
  rw [hget] at hsides
  exact hsides

end Sides

namespace Context

variable {c : Context} {errors : ErrorTable} {f : FuncId}

variable (c f) in
/-- Whether one of the conditions of a function compares a checked call with a constant. -/
def Compares (x : CheckedCall) (pred : Predicate) (rhs : Int) : Prop :=
  ∃ cond ∈ c.conditionsOf f, cond.Compares c.program x pred rhs

/-- **The sides of the checked calls of a function** tell all its conditions. -/
theorem meets_sidesOf_gathered {F : Fault → Prop}
    (hconditions : ∀ cond ∈ c.conditionsOf f, c.program.Has cond.lhs.value) :
    Meets F (Sides.Gathered c.program (c.conditionsOf f)) (c.sidesOf f) := by
  -- the invariant speaks of the conditions read so far; a condition either compares a call, and is
  -- added, or compares none, and leaves the sides as they are
  refine meets_foldlM_append (I := Sides.Gathered c.program) (fun past t ht cond hcond => ?_)
    Sides.gathered_nil
  cases cond with
  | fallback lhs origin =>
    exact meets_pure (ht.skip fun _ _ _ ⟨_, _, _, _, heq, _⟩ => nomatch heq)
  | comparison lhs pred v origin fromBranch =>
    have hvalue : c.program.Has lhs.value := hconditions _ hcond
    have hcompares := @Condition.compares_comparison_iff c.program lhs pred v origin fromBranch
    dsimp only
    cases hv : v.word32? with
    | none =>
      refine meets_pure (ht.skip fun x pred' rhs' h => ?_)
      cases hv.symm.trans (hcompares.mp h).2.2
    | some rhs =>
      refine (Program.meets_callOf? hvalue).and_eq.bind fun call? ⟨_, hcall⟩ => ?_
      cases call? with
      | none =>
        refine meets_pure (ht.skip fun x pred' rhs' h => ?_)
        cases hcall.symm.trans (hcompares.mp h).1.1
      | some call =>
        refine meets_pure (ht.add (Value.fits_word32? hv) fun x pred' rhs' => ?_)
        rw [hcompares, hcall, hv]
        refine and_congr ⟨fun ⟨hcall, hslot⟩ => ?_, fun hx => ?_⟩ (and_congr_right fun _ => ?_)
        · obtain ⟨call', slot⟩ := x
          cases hcall
          cases hslot
          rfl
        · rw [hx]
          exact ⟨rfl, rfl⟩
        · rw [Option.some.injEq, eq_comm]

/-! ## Judging a check -/

variable (c errors) in
/-- An error value of one of the functions that a checked call may reach. Functions without known
error values, or for which every value is one, do not count. -/
def ErrorValue (x : CheckedCall) (v : Int) : Prop :=
  ∃ g ∈ c.graph.calleeList x.call, ∃ s, errors.get? ⟨g, x.slot⟩ = some s ∧ s.isEmpty = false ∧
    s.isFull = false ∧ v ∈ s

variable (c errors f) in
/-- **An incorrect check**: some error value satisfies none of its conditions, and some error value
satisfies all of them. -/
def Misses (x : CheckedCall) : Prop :=
  (∃ v, c.ErrorValue errors x v ∧ ∀ pred rhs, c.Compares f x pred rhs → pred.onInts v rhs = false) ∧
    ∃ v, c.ErrorValue errors x v ∧ ∀ pred rhs, c.Compares f x pred rhs → pred.onInts v rhs = true

/-- A side covers the error values if it has all of them. -/
theorem coveredBy_iff (herrors : ∀ k s, errors.get? k = some s → s.Canonical) {x : CheckedCall}
    {side : RangeSet} (hside : side.Canonical) :
    coveredBy errors (c.graph.calleeList x.call) x.slot side = true ↔
      ∀ v, c.ErrorValue errors x v → v ∈ side := by
  rw [coveredBy, List.all_eq_true]
  constructor
  · rintro h v ⟨g, hg, s, hs, hempty, hfull, hv⟩
    have hsub := h g hg
    simp only [hs, hempty, hfull, Bool.false_or] at hsub
    exact ((herrors _ s hs).isSubset_iff hside).mp hsub v hv
  · intro h g hg
    cases hs : errors.get? ⟨g, x.slot⟩ with
    | none => rfl
    | some s =>
      dsimp only
      rw [Bool.or_eq_true, or_iff_not_imp_left, Bool.not_eq_true, Bool.or_eq_false_iff]
      rintro ⟨hempty, hfull⟩
      exact ((herrors _ s hs).isSubset_iff hside).mpr fun v hv =>
        h v ⟨g, hg, s, hs, hempty, hfull, hv⟩

theorem ErrorValue.fits (herrors : ∀ k s, errors.get? k = some s → s.Canonical) {x : CheckedCall}
    {v : Int} (h : c.ErrorValue errors x v) : Word.Fits 32 v := by
  obtain ⟨g, -, s, hs, -, -, hv⟩ := h
  exact (herrors _ s hs).fits_of_mem hv

/-- An error value outside one side of a check is on the other side of every condition. -/
theorem coveredBy_eq_false_iff (herrors : ∀ k s, errors.get? k = some s → s.Canonical)
    {x : CheckedCall} {side : RangeSet} (hside : side.Canonical) {b : Bool}
    (hmem : ∀ v, v ∈ side ↔
      Word.Fits 32 v ∧ ∃ pred rhs, c.Compares f x pred rhs ∧ pred.onInts v rhs = b) :
    coveredBy errors (c.graph.calleeList x.call) x.slot side = false ↔
      ∃ v, c.ErrorValue errors x v ∧
        ∀ pred rhs, c.Compares f x pred rhs → pred.onInts v rhs = !b := by
  rw [← Bool.not_eq_true, coveredBy_iff herrors hside, not_forall]
  refine exists_congr fun v => ?_
  rw [Classical.not_imp]
  refine and_congr_right fun hv => ?_
  simp only [hmem, hv.fits herrors, true_and, not_exists, not_and, Bool.eq_not]

variable (c errors) in
/-- The verdict on a checked call. -/
def isIncorrect (x : CheckedCall) (sides : Sides) : Bool :=
  !(coveredBy errors (c.graph.calleeList x.call) x.slot sides.satisfying ||
    coveredBy errors (c.graph.calleeList x.call) x.slot sides.failing)

/-- **The verdict means what it says.** -/
theorem isIncorrect_iff (herrors : ∀ k s, errors.get? k = some s → s.Canonical) {x : CheckedCall}
    {sides : Sides} (hsides : sides.Tells (c.Compares f x)) :
    c.isIncorrect errors x sides = true ↔ c.Misses errors f x := by
  rw [isIncorrect, Bool.not_eq_true', Bool.or_eq_false_iff,
    coveredBy_eq_false_iff herrors hsides.canonical_satisfying hsides.mem_satisfying,
    coveredBy_eq_false_iff herrors hsides.canonical_failing hsides.mem_failing]
  exact Iff.rfl

variable (c errors) in
/-- How a check is judged: the verdict is recorded for every function that the call may reach, and
an incorrect check is reported. A call that may reach no function is not recorded. -/
theorem judge_eq (e : IncorrectEvidence) (x : CheckedCall) (sides : Sides) :
    c.judge errors e x sides = do
      let tallies := Tally.recordAll e.tallies (c.graph.calleeList x.call)
        (c.isIncorrect errors x sides)
      if c.isIncorrect errors x sides then
        let site ← Site.ofInst c.program x.call
        return ⟨tallies, e.candidates ++ [(site, ⟨x.call, some (sides.satisfying, sides.failing)⟩)]⟩
      else return { e with tallies } := by
  unfold judge isIncorrect CallGraph.calleeList
  cases c.graph.callees? x.call with
  | none => rfl
  | some callees =>
    dsimp only [Option.getD_some]
    by_cases hcorrect : (coveredBy errors callees.toList x.slot sides.satisfying ||
      coveredBy errors callees.toList x.slot sides.failing) = true
    · rw [if_pos hcorrect, if_neg (by rw [hcorrect]; decide)]
      rfl
    · rw [if_neg hcorrect, if_pos (by rw [Bool.eq_false_iff.mpr hcorrect]; rfl)]
      rfl

variable (c errors) in
/-- Those of some checks that are incorrect. -/
def incorrectOnes (l : List (CheckedCall × Sides)) : List (CheckedCall × Sides) :=
  l.filter fun y => c.isIncorrect errors y.1 y.2

variable (c errors) in
theorem incorrectOnes_append_singleton (l : List (CheckedCall × Sides)) (y : CheckedCall × Sides) :
    c.incorrectOnes errors (l ++ [y]) =
      c.incorrectOnes errors l ++ if c.isIncorrect errors y.1 y.2 then [y] else [] := by
  rw [incorrectOnes, List.filter_append, List.filter_singleton]
  cases c.isIncorrect errors y.1 y.2 <;> rfl

variable (c errors) in
/-- **The checks that have been judged so far**: those that are incorrect are reported in turn, and
for each function it is counted how many of them may reach it. -/
structure Judged (past : List (CheckedCall × Sides)) (e : IncorrectEvidence) : Prop where
  reported : List.Forall₂ (fun y r => Site.ofInst c.program y.1.call = .ok r.1 ∧
    r.2 = ⟨y.1.call, some (y.2.satisfying, y.2.failing)⟩) (c.incorrectOnes errors past) e.candidates
  counted : ∀ g, (e.tallies.get? g).getD {} =
    ⟨c.reaching g ((c.incorrectOnes errors past).map (·.1.call)),
      c.reaching g (past.map (·.1.call))⟩

theorem judged_nil : c.Judged errors [] {} where
  reported := .nil
  counted _ := rfl

theorem reaching_append_singleton (g : FuncId) (calls : List InstId) (call : InstId) :
    c.reaching g (calls ++ [call]) =
      c.reaching g calls + if g ∈ c.graph.calleeList call then 1 else 0 := by
  simp [reaching, List.countP_append, List.countP_singleton]

/-- After one more verdict the tallies are those of all verdicts. -/
theorem Judged.counted_recordAll {past : List (CheckedCall × Sides)}
    {e : IncorrectEvidence} (he : c.Judged errors past e) (y : CheckedCall × Sides) (g : FuncId) :
    ((Tally.recordAll e.tallies (c.graph.calleeList y.1.call)
      (c.isIncorrect errors y.1 y.2)).get? g).getD {} =
        ⟨c.reaching g ((c.incorrectOnes errors (past ++ [y])).map (·.1.call)),
          c.reaching g ((past ++ [y]).map (·.1.call))⟩ := by
  have hbefore := he.counted g
  rw [Tally.get?_recordAll (c.graph.nodup_calleeList y.1.call), List.map_append,
    List.map_singleton, reaching_append_singleton, incorrectOnes_append_singleton, List.map_append]
  cases c.isIncorrect errors y.1 y.2 <;> by_cases hg : g ∈ c.graph.calleeList y.1.call <;>
    simp [hg, hbefore, Tally.record, reaching_append_singleton]

/-- Judging one check adds it to the account. -/
theorem meets_judge_judged {F : Fault → Prop} {past : List (CheckedCall × Sides)}
    {e : IncorrectEvidence} (he : c.Judged errors past e)
    {y : CheckedCall × Sides} (hy : c.program.HasInst y.1.call) :
    Meets F (c.Judged errors (past ++ [y])) (c.judge errors e y.1 y.2) := by
  have hcounted := he.counted_recordAll y
  have hones := incorrectOnes_append_singleton c errors past y
  rw [judge_eq]
  cases hverdict : c.isIncorrect errors y.1 y.2 with
  | true =>
    rw [hverdict] at hcounted hones
    refine (Site.meets_ofInst hy).and_eq.bind fun site hsite => ?_
    refine meets_pure ⟨?_, hcounted⟩
    rw [hones]
    exact List.rel_append he.reported (.cons ⟨hsite.2, rfl⟩ .nil)
  | false =>
    rw [hverdict] at hcounted hones
    refine meets_pure ⟨?_, hcounted⟩
    rw [hones, if_neg Bool.false_ne_true, List.append_nil]
    exact he.reported

variable (errors) in
/-- **Judging checks one after the other.** -/
theorem meets_foldlM_judge {F : Fault → Prop} {entries : List (CheckedCall × Sides)}
    (hentries : ∀ y ∈ entries, c.program.HasInst y.1.call) :
    Meets F (c.Judged errors entries)
      (entries.foldlM (fun e y => c.judge errors e y.1 y.2) {}) :=
  meets_foldlM_append (I := c.Judged errors)
    (fun _ _ he y hy => meets_judge_judged he (hentries y hy)) judged_nil

/-! ## The checks of a function -/

variable (c f) in
/-- **What is reported of a check**: where the call is, and the two sides of the check. -/
structure Reports (x : CheckedCall) (r : Site × Candidate) : Prop where
  site : Site.ofInst c.program x.call = .ok r.1
  call : r.2.call = x.call
  sides : ∃ sides : Sides, r.2.checked = some (sides.satisfying, sides.failing) ∧
    sides.Tells (c.Compares f x)

/-- The checks found incorrect are those that miss an error value on both sides. -/
theorem mem_incorrectOnes_iff (herrors : ∀ k s, errors.get? k = some s → s.Canonical)
    {entries : List (CheckedCall × Sides)}
    (htells : ∀ y ∈ entries, y.2.Tells (c.Compares f y.1)) {x : CheckedCall}
    (hx : x ∈ entries.map (·.1)) :
    x ∈ (c.incorrectOnes errors entries).map (·.1) ↔ c.Misses errors f x := by
  constructor
  · intro hincorrect
    obtain ⟨y, hy, rfl⟩ := List.mem_map.mp hincorrect
    obtain ⟨hy, hverdict⟩ := List.mem_filter.mp hy
    exact (isIncorrect_iff herrors (htells y hy)).mp hverdict
  · intro hmisses
    obtain ⟨y, hy, rfl⟩ := List.mem_map.mp hx
    have hverdict := (isIncorrect_iff herrors (htells y hy)).mpr hmisses
    exact List.mem_map_of_mem (List.mem_filter.mpr ⟨hy, hverdict⟩)

/-- What is reported are the checks found incorrect, in order. -/
theorem Judged.reports {entries : List (CheckedCall × Sides)} {e : IncorrectEvidence}
    (h : c.Judged errors entries e) (htells : ∀ y ∈ entries, y.2.Tells (c.Compares f y.1)) :
    List.Forall₂ (c.Reports f) ((c.incorrectOnes errors entries).map (·.1)) e.candidates := by
  rw [List.forall₂_map_left_iff]
  have hones : ∀ y ∈ c.incorrectOnes errors entries, y.2.Tells (c.Compares f y.1) :=
    fun y hy => htells y (List.mem_of_mem_filter hy)
  refine ((List.forall₂_and_left _ _).mpr ⟨hones, h.reported⟩).imp ?_
  rintro y ⟨site, cand⟩ ⟨hsides, hsite, rfl⟩
  exact ⟨hsite, rfl, y.2, rfl, hsides⟩

/-- **The incorrect checks of a function.** Each call that is compared with a constant is judged
once. It is reported if and only if it is incorrect, and counts once for every function that it may
reach. -/
theorem incorrectChecks_exact
    (herrors : ∀ k s, errors.get? k = some s → s.Canonical)
    (hconditions : ∀ cond ∈ c.conditionsOf f, c.program.Has cond.lhs.value) :
    ∃ e checks incorrect, c.incorrectChecks errors f = .ok e ∧ checks.Nodup ∧
      (∀ x, x ∈ checks ↔ ∃ pred rhs, c.Compares f x pred rhs) ∧ incorrect.Sublist checks ∧
      (∀ x ∈ checks, x ∈ incorrect ↔ c.Misses errors f x) ∧
      List.Forall₂ (c.Reports f) incorrect e.candidates ∧
      ∀ g, (e.tallies.get? g).getD {} =
        ⟨c.reaching g (incorrect.map (·.call)), c.reaching g (checks.map (·.call))⟩ := by
  obtain ⟨t, ht, hgathered⟩ := (meets_sidesOf_gathered hconditions).exists_eq_ok
  have htells : ∀ y ∈ t.entries, y.2.Tells (c.Compares f y.1) := fun y hy =>
    hgathered.tells_of_mem hy
  have hchecks : ∀ x, x ∈ t.keys ↔ ∃ pred rhs, c.Compares f x pred rhs := fun x =>
    Table.mem_keys_iff.trans (hgathered.contains_iff x)
  have hinst : ∀ y ∈ t.entries, c.program.HasInst y.1.call := by
    intro y hy
    obtain ⟨pred, rhs, cond, hcond, lhs, v, origin, fromBranch, rfl, hcall, -⟩ :=
      (hchecks y.1).mp (List.mem_map_of_mem hy)
    exact (Program.meets_callOf? (F := fun _ => False) (hconditions _ hcond)).of_eq_ok hcall _ rfl
  obtain ⟨e, he, hjudged⟩ := (meets_foldlM_judge errors hinst).exists_eq_ok
  refine ⟨e, t.keys, (c.incorrectOnes errors t.entries).map (·.1), ?_,
    t.nodup_keys, hchecks, List.filter_sublist.map _,
    fun x hx => mem_incorrectOnes_iff herrors htells hx, hjudged.reports htells, fun g => ?_⟩
  · rw [incorrectChecks, ht, ok_bind]
    exact he
  · rw [hjudged.counted g, List.map_map, Table.keys, List.map_map]
    rfl

theorem map_call_of_reports {checks : List CheckedCall} {rs : List (Site × Candidate)}
    (h : List.Forall₂ (c.Reports f) checks rs) : checks.map (·.call) = rs.map (·.2.call) := by
  induction h with
  | nil => rfl
  | cons hr _ ih => rw [List.map_cons, List.map_cons, hr.call, ih]

/-- `caller` calls `source` twice. It compares the first result with `-3` and the second one with
`0`. -/
def wrongBound : List Directive :=
  [.module "m", .declare ⟨0⟩ "source" [] (.int 32), .declare ⟨0⟩ "caller" [] (.int 32),
    .define ⟨1⟩ [.block, .block, .block, .block, .block,
      .moveTo ⟨0⟩, .call ⟨0⟩ [], .cmp .slt (.inst ⟨0⟩) (.int (-3) 32), .branch (.inst ⟨1⟩) ⟨1⟩ ⟨2⟩,
      .moveTo ⟨1⟩, .ret (some (.int (-1) 32)),
      .moveTo ⟨2⟩, .call ⟨0⟩ [], .cmp .slt (.inst ⟨4⟩) (.int 0 32), .branch (.inst ⟨5⟩) ⟨3⟩ ⟨4⟩,
      .moveTo ⟨3⟩, .ret (some (.int (-1) 32)),
      .moveTo ⟨4⟩, .ret (some (.int 0 32))]]

/-- The error values of `source` in `wrongBound`. -/
def wrongBoundErrors : ErrorTable := .ofList [(⟨⟨0⟩, 0⟩, .ofRange (-5) (-1))]

/-- Some error values of `source` are below `-3` and some are not, so the first check is incorrect;
all of them are below `0`. -/
theorem wrongBound_incorrectChecks : ∃ c e, ofDirectives wrongBound = .ok c ∧
    c.incorrectChecks wrongBoundErrors ⟨1⟩ = .ok e ∧ e.candidates.map (·.2.call) = [⟨0⟩] ∧
    e.tallies.get? ⟨0⟩ = some ⟨1, 2⟩ ∧ c.Misses wrongBoundErrors ⟨1⟩ ⟨⟨0⟩, 0⟩ ∧
    ¬ c.Misses wrongBoundErrors ⟨1⟩ ⟨⟨4⟩, 0⟩ := by
  obtain ⟨c, hc, e, he, hconds, hsize, hcall, hcalls, htally⟩ :
      ∃ c, ofDirectives wrongBound = .ok c ∧
      ∃ e, c.incorrectChecks wrongBoundErrors ⟨1⟩ = .ok e ∧
      c.conditionsOf ⟨1⟩ = [.comparison ⟨.inst ⟨0⟩, 0⟩ .slt (.int (-3) 32) ⟨1⟩ true,
        .comparison ⟨.inst ⟨4⟩, 0⟩ .slt (.int 0 32) ⟨5⟩ true] ∧
      c.program.insts.size = 9 ∧ c.program.callOf? (.inst ⟨4⟩) = .ok (some ⟨4⟩) ∧
      e.candidates.map (·.2.call) = [⟨0⟩] ∧ e.tallies.get? ⟨0⟩ = some ⟨1, 2⟩ := by
    decide +kernel
  have hvalues : ∀ cond ∈ c.conditionsOf ⟨1⟩, c.program.Has cond.lhs.value ∧ cond.lhs.slot = 0 := by
    rw [hconds, List.forall_mem_cons, List.forall_mem_singleton]
    exact ⟨⟨show 0 < c.program.insts.size by omega, rfl⟩,
      show 4 < c.program.insts.size by omega, rfl⟩
  have herrors : Table.All (fun _ => True) RangeSet.Canonical wrongBoundErrors :=
    List.forall_mem_singleton.mpr ⟨trivial, by decide⟩
  obtain ⟨e', checks, incorrect, he', -, hchecks, hsub, hmisses, hreports, -⟩ :=
    incorrectChecks_exact (fun _ _ hs => herrors.get? hs)
      fun cond hcond => (hvalues cond hcond).1
  obtain rfl := Except.ok.inj (he.symm.trans he')
  rw [← map_call_of_reports hreports] at hcalls
  refine ⟨c, e, hc, he, (map_call_of_reports hreports).symm.trans hcalls, htally, ?_, ?_⟩
  · have hmem : (⟨0⟩ : InstId) ∈ incorrect.map (·.call) := hcalls ▸ List.mem_cons_self
    obtain ⟨⟨call, slot⟩, hx, rfl⟩ := List.mem_map.mp hmem
    obtain ⟨pred, rhs, cond, hcond, lhs, v, origin, fromBranch, rfl, -, hslot, -⟩ :=
      (hchecks _).mp (hsub.subset hx)
    obtain rfl : slot = 0 := hslot.symm.trans (hvalues _ hcond).2
    exact (hmisses _ (hsub.subset hx)).mp hx
  · have hcheck : ⟨⟨4⟩, 0⟩ ∈ checks := by
      refine (hchecks _).mpr ⟨.slt, 0, _, ?_, ⟨.inst ⟨4⟩, 0⟩, .int 0 32, ⟨5⟩, true, rfl, hcall,
        rfl, by decide⟩
      rw [hconds]
      exact List.mem_cons_of_mem _ List.mem_cons_self
    intro hmiss
    have hmem := List.mem_map_of_mem (f := (·.call)) ((hmisses _ hcheck).mpr hmiss)
    rw [hcalls] at hmem
    cases List.mem_singleton.mp hmem

end Context

end ErrorReturns
