import ErrorReturns.ErrorTable
import ErrorReturns.Proofs.Comparison
import ErrorReturns.Proofs.RangeSet.Membership
import ErrorReturns.Proofs.Table.Keys
import ErrorReturns.Proofs.Table.Lookup
import Mathlib.Data.List.Basic

/-!
# Tables of error values

Adding the values of one table to another changes the slots of the added entries and nothing
else. What a check of a call says about errors depends on the entries of the functions that the
call may reach, at the slot that is checked: it says something if these entries have a common value,
and the side that it names is an error side exactly if a common value is on it
(`errorBranch?_exact`).
-/

namespace ErrorReturns.ErrorTable

theorem get?_mergeUnion_of_not_contains {t other : ErrorTable} {k : ReturnSlot}
    (h : other.contains k = false) : (t.mergeUnion other).get? k = t.get? k := by
  refine Table.get?_foldl_update_of_ne (fun e he heq => ?_) t
    fun s old => (old.map (· ∪ s)).getD s
  rw [Table.contains_iff.mpr ⟨e, he, heq⟩] at h
  cases h

@[simp] theorem contains_mergeUnion_iff {t other : ErrorTable} {k : ReturnSlot} :
    (t.mergeUnion other).contains k = true ↔ t.contains k = true ∨ other.contains k = true :=
  (Table.contains_foldl_update_iff t other.entries fun s old => (old.map (· ∪ s)).getD s).trans
    (or_congr_right Table.contains_iff.symm)

/-- **What a check says about errors** depends on the entries of the functions that the call may
reach. -/
theorem errorBranch?_congr {t t' : ErrorTable} {g : CallGraph} {call : InstId} {slot : Nat}
    (h : ∀ f ∈ g.calleeList call, t.get? ⟨f, slot⟩ = t'.get? ⟨f, slot⟩) (pred : Predicate)
    (rhs : Int) : t.errorBranch? g pred slot rhs call = t'.errorBranch? g pred slot rhs call := by
  have hsets : t.calleeSets g call slot = t'.calleeSets g call slot := List.filterMap_congr h
  rw [errorBranch?, errorBranch?, calleeIntersection?, calleeIntersection?, hsets]

theorem foldl_inter_of_isEmpty {s : RangeSet} (h : s.isEmpty = true) (sets : List RangeSet) :
    (sets.foldl (· ∩ ·) s).isEmpty = true := by
  refine List.foldlRecOn (motive := fun s => RangeSet.isEmpty s = true) sets _ h fun s hs s' _ => ?_
  have hnil : s.ranges = [] := List.isEmpty_iff.mp hs
  change (s.ranges.flatMap fun r => s'.ranges.filterMap r.overlap?).isEmpty = true
  rw [hnil]
  rfl

/-- A check says something only if some function that the call may reach has error values. -/
theorem exists_of_errorBranch?_eq_some {t : ErrorTable} {g : CallGraph} {pred : Predicate}
    {slot : Nat} {rhs : Int} {call : InstId} {b : Bool}
    (h : t.errorBranch? g pred slot rhs call = some b) :
    ∃ f ∈ g.calleeList call, ∃ s, t.get? ⟨f, slot⟩ = some s ∧ s.isEmpty = false := by
  unfold errorBranch? calleeIntersection? at h
  cases hsets : t.calleeSets g call slot with
  | nil =>
    rw [hsets] at h
    cases h
  | cons s rest =>
    obtain ⟨f, hf, hs⟩ := List.mem_filterMap.mp (hsets ▸ List.mem_cons_self)
    refine ⟨f, hf, s, hs, Bool.eq_false_iff.mpr fun hempty => ?_⟩
    rw [hsets] at h
    simp [foldl_inter_of_isEmpty hempty rest] at h

/-! ## The error side of a comparison -/

section ErrorSide

variable {t : ErrorTable} {g : CallGraph} {call : InstId} {slot : Nat}

variable (t g call slot) in
/-- Whether some function that a call may reach has an entry for a slot. -/
def Informs : Prop := ∃ f ∈ g.calleeList call, t.contains ⟨f, slot⟩ = true

variable (t g call slot) in
/-- **A common error value** of the functions that a call may reach: it is in every entry that they
have for a slot. -/
def Common (v : Int) : Prop := ∀ f ∈ g.calleeList call, ∀ s, t.get? ⟨f, slot⟩ = some s → v ∈ s

theorem mem_calleeSets_iff {s : RangeSet} :
    s ∈ t.calleeSets g call slot ↔ ∃ f ∈ g.calleeList call, t.get? ⟨f, slot⟩ = some s :=
  List.mem_filterMap

theorem calleeIntersection?_eq_none_iff :
    t.calleeIntersection? g call slot = none ↔ ¬ t.Informs g call slot := by
  have hnil : t.calleeIntersection? g call slot = none ↔ t.calleeSets g call slot = [] := by
    unfold calleeIntersection?
    split <;> simp [*]
  rw [hnil, List.eq_nil_iff_forall_not_mem, Informs]
  simp only [mem_calleeSets_iff, not_exists, not_and, Table.contains, Option.isSome_iff_exists]
  exact ⟨fun h f hf s => h s f hf, fun h s f hf => h f hf s⟩

/-- The intersection of the entries has the common values. -/
theorem mem_calleeIntersection? {known : RangeSet}
    (h : t.calleeIntersection? g call slot = some known) {v : Int} :
    v ∈ known ↔ t.Common g call slot v := by
  have hsets : v ∈ known ↔ ∀ s ∈ t.calleeSets g call slot, v ∈ s := by
    unfold calleeIntersection? at h
    split at h
    · cases h
    case h_2 s rest heq =>
      rw [← Option.some.inj h, heq, RangeSet.mem_foldl_inter, List.forall_mem_cons]
  rw [hsets, Common]
  simp only [mem_calleeSets_iff, forall_exists_index, and_imp]
  exact ⟨fun h f hf s hs => h s f hf hs, fun h s f hf hs => h f hf s hs⟩

variable (ht : ∀ k s, t.get? k = some s → s.Canonical)
include ht

/-- What all callees of a call have in common is a canonical set. -/
theorem canonical_calleeIntersection? {known : RangeSet}
    (h : t.calleeIntersection? g call slot = some known) : known.Canonical := by
  have hsets : ∀ s ∈ t.calleeSets g call slot, s.Canonical := fun s hs =>
    have ⟨_, _, hget⟩ := mem_calleeSets_iff.mp hs
    ht _ s hget
  unfold calleeIntersection? at h
  split at h
  · cases h
  case h_2 s rest heq =>
    rw [heq, List.forall_mem_cons] at hsets
    exact Option.some.inj h ▸ hsets.1.foldl_inter hsets.2

variable {pred : Predicate} {rhs : Int} (hrhs : Word.Fits 32 rhs)
include hrhs

/-- **What a check says**, if it says anything: there are common error values, and the comparison
holds on an error side if one of them satisfies it. -/
theorem errorBranch?_eq_some_iff {b : Bool} :
    t.errorBranch? g pred slot rhs call = some b ↔
      t.Informs g call slot ∧ (∃ v, Word.Fits 32 v ∧ t.Common g call slot v) ∧
        (b = true ↔ ∃ v, Word.Fits 32 v ∧ pred.onInts v rhs = true ∧ t.Common g call slot v) := by
  unfold errorBranch?
  cases hknown : t.calleeIntersection? g call slot with
  | none => simp [calleeIntersection?_eq_none_iff.mp hknown]
  | some known =>
    have hinforms : t.Informs g call slot := by
      by_contra hnot
      cases hknown.symm.trans (calleeIntersection?_eq_none_iff.mpr hnot)
    have hcanonical := canonical_calleeIntersection? ht hknown
    -- emptiness is decided on the list of ranges, and for canonical sets that is having no member
    have hsome : known.isEmpty = false ↔ ∃ v, Word.Fits 32 v ∧ t.Common g call slot v := by
      rw [hcanonical.isEmpty_eq_false_iff]
      refine exists_congr fun v => ?_
      rw [← mem_calleeIntersection? hknown]
      exact (and_iff_right_of_imp hcanonical.fits_of_mem).symm
    have hinter : (RangeSet.full.narrow pred rhs ∩ known).Canonical :=
      (RangeSet.canonical_full.narrow pred hrhs).inter hcanonical
    have hside : (RangeSet.full.narrow pred rhs ∩ known).isEmpty = false ↔
        ∃ v, Word.Fits 32 v ∧ pred.onInts v rhs = true ∧ t.Common g call slot v := by
      rw [hinter.isEmpty_eq_false_iff]
      refine exists_congr fun v => ?_
      rw [RangeSet.mem_inter, RangeSet.mem_narrow_full, mem_calleeIntersection? hknown, and_assoc]
    rw [← hsome, ← hside, and_iff_right hinforms]
    dsimp only
    cases known.isEmpty with
    | true => simp
    | false => cases (RangeSet.full.narrow pred rhs ∩ known).isEmpty <;> cases b <;> simp

variable (g call slot pred) in
/-- **The error side of a comparison is decided exactly.** Nothing is said if and only if no
function that the call may reach has an entry, or no word is in all the entries that they have. What
is said otherwise is whether a word in all of them satisfies the comparison. So of a comparison and
its inverse at least one is said to hold on an error side. -/
theorem errorBranch?_exact :
    (t.errorBranch? g pred slot rhs call = none ↔
      ¬ t.Informs g call slot ∨ ∀ v, Word.Fits 32 v → ¬ t.Common g call slot v) ∧
    (∀ b, t.errorBranch? g pred slot rhs call = some b →
      (b = true ↔ ∃ v, Word.Fits 32 v ∧ pred.onInts v rhs = true ∧ t.Common g call slot v)) ∧
    (t.errorBranch? g pred slot rhs call ≠ none →
      t.errorBranch? g pred slot rhs call = some true ∨
        t.errorBranch? g pred.inverse slot rhs call = some true) := by
  refine ⟨?_, fun b hb => ((errorBranch?_eq_some_iff ht hrhs).mp hb).2.2, fun hsome => ?_⟩
  · rw [← not_iff_not, ← ne_eq, Option.ne_none_iff_exists', not_or, not_not]
    simp only [errorBranch?_eq_some_iff ht hrhs, exists_and_left, not_forall, not_not, exists_prop]
    refine and_congr_right fun _ => and_iff_left ?_
    classical
    exact ⟨decide _, decide_eq_true_iff⟩
  · obtain ⟨b, hb⟩ := Option.ne_none_iff_exists'.mp hsome
    obtain ⟨hinforms, ⟨v, hfits, hv⟩, -⟩ := (errorBranch?_eq_some_iff ht hrhs).mp hb
    simp only [errorBranch?_eq_some_iff ht hrhs, hinforms, true_and, true_iff]
    cases hpred : pred.onInts v rhs with
    | true => exact Or.inl ⟨⟨v, hfits, hv⟩, v, hfits, hpred, hv⟩
    | false =>
      refine Or.inr ⟨⟨v, hfits, hv⟩, v, hfits, ?_, hv⟩
      rw [Predicate.onInts_inverse, hpred]
      rfl

end ErrorSide

/-- A call that may reach three functions. -/
def threeTargets : CallGraph := CallGraph.addIndirect {} ⟨0⟩ [⟨1⟩, ⟨2⟩, ⟨3⟩] false

/-- Two of them have error values, and `-5`, `-4`, `-3` and `-1` are the common ones. -/
def threeTargetsErrors : ErrorTable :=
  .ofList [(⟨⟨1⟩, 0⟩, .ofRange (-5) (-1)), (⟨⟨2⟩, 0⟩, ⟨[⟨-2147483648, -3⟩, ⟨-1, 2147483647⟩]⟩)]

/-- The result is no error if it is `-2`, so it may be one if it is not. Nothing is said about the
next slot. -/
theorem threeTargets_decided : (∀ k s, threeTargetsErrors.get? k = some s → s.Canonical) ∧
    threeTargetsErrors.errorBranch? threeTargets .eq 0 (-2) ⟨0⟩ = some false ∧
    (¬ ∃ v, Word.Fits 32 v ∧ Predicate.onInts .eq v (-2) = true ∧
      threeTargetsErrors.Common threeTargets ⟨0⟩ 0 v) ∧
    threeTargetsErrors.errorBranch? threeTargets .ne 0 (-2) ⟨0⟩ = some true ∧
    threeTargetsErrors.errorBranch? threeTargets .eq 1 (-2) ⟨0⟩ = none ∧
    ¬ threeTargetsErrors.Informs threeTargets ⟨0⟩ 1 := by
  have hall : Table.All (fun _ => True) RangeSet.Canonical threeTargetsErrors :=
    List.forall_mem_cons.mpr ⟨⟨trivial, by decide⟩,
      List.forall_mem_singleton.mpr ⟨trivial, by decide⟩⟩
  have ht : ∀ k s, threeTargetsErrors.get? k = some s → s.Canonical := fun _ _ hs => hall.get? hs
  have hrhs : Word.Fits 32 (-2) := by decide
  have hfalse : threeTargetsErrors.errorBranch? threeTargets .eq 0 (-2) ⟨0⟩ = some false := by
    decide
  have hnone : threeTargetsErrors.errorBranch? threeTargets .eq 1 (-2) ⟨0⟩ = none := by decide
  obtain ⟨-, hside, hinverse⟩ := errorBranch?_exact threeTargets ⟨0⟩ 0 ht .eq hrhs
  obtain ⟨hunknown, -, -⟩ := errorBranch?_exact threeTargets ⟨0⟩ 1 ht .eq hrhs
  refine ⟨ht, hfalse, fun h => absurd ((hside _ hfalse).mpr h) Bool.false_ne_true, ?_, hnone, ?_⟩
  · refine (hinverse (by rw [hfalse]; exact Option.some_ne_none _)).resolve_left ?_
    rw [hfalse]
    decide
  · have hnoEntry : ∀ f ∈ threeTargets.calleeList ⟨0⟩, threeTargetsErrors.get? ⟨f, 1⟩ = none := by
      decide
    refine (hunknown.mp hnone).resolve_right fun hno => hno 0 (by decide) fun f hf s hs => ?_
    cases hs.symm.trans (hnoEntry f hf)

end ErrorReturns.ErrorTable
