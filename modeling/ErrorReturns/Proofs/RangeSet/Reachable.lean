import ErrorReturns.Proofs.RangeSet.Sweep
import ErrorReturns.RangeSet.Written

/-!
# The sets that can come about

`RangeSet.Reachable` holds of every set that can be made: the constants, sets of given bounds or
ranges, sets read from a document, and whatever narrowing, union, intersection and complement
make of such sets, in any order and any number of times. All of them are canonical, and so no
operation on them overflows or makes an inverted range.
-/

namespace ErrorReturns

namespace Range

/-- A range is read only if its bounds are words in order. -/
theorem valid_of_ofDocument? {d : Document} {r : Range} (h : ofDocument? d = some r) :
    r.Valid := by
  have hbetween : ∀ {d : Document} {v : Int},
      d.asIntBetween? (Word.lowest 32) (Word.highest 32) = some v → Word.Fits 32 v := by
    intro d v hv
    unfold Document.asIntBetween? at hv
    split at hv
    · obtain ⟨u, -, hu⟩ := Option.bind_eq_some_iff.mp hv
      rw [Option.ite_none_right_eq_some, Option.some.injEq] at hu
      exact hu.2 ▸ hu.1
    · simp at hv
  unfold ofDocument? at h
  obtain ⟨fields, -, h⟩ := Option.bind_eq_some_iff.mp h
  split at h
  · obtain ⟨low, hlow, h⟩ := Option.bind_eq_some_iff.mp h
    obtain ⟨high, hhigh, h⟩ := Option.bind_eq_some_iff.mp h
    unfold ofBounds at h
    split at h
    case isTrue hle =>
      obtain rfl : (⟨low, high⟩ : Range) = r := Option.some.inj h
      exact ⟨(hbetween hlow).1, hle, (hbetween hhigh).2⟩
    case isFalse => exact absurd h (by simp [Except.toOption])
  · simp at h

end Range

namespace RangeSet

/-- Every result for a list is that of an element. -/
theorem forall_mem_of_mapM_eq_some {α β : Type} {f : α → Option β} {l : List α} {m : List β}
    (h : l.mapM f = some m) : ∀ y ∈ m, ∃ x ∈ l, f x = some y := by
  induction l generalizing m with
  | nil =>
    obtain rfl : [] = m := Option.some.inj h
    simp
  | cons x rest ih =>
    rw [List.mapM_cons] at h
    obtain ⟨y, hy, h⟩ := Option.bind_eq_some_iff.mp h
    obtain ⟨ys, hys, h⟩ := Option.bind_eq_some_iff.mp h
    obtain rfl : y :: ys = m := Option.some.inj h
    rw [List.forall_mem_cons]
    refine ⟨⟨x, List.mem_cons_self, hy⟩, fun z hz => ?_⟩
    obtain ⟨w, hw, hwz⟩ := ih hys z hz
    exact ⟨w, List.mem_cons_of_mem x hw, hwz⟩

/-- **A set is read** by gathering ranges of words. -/
theorem exists_ofRanges_of_ofJson? {text : String} {s : RangeSet} (h : ofJson? text = some s) :
    ∃ l : List Range, (∀ r ∈ l, r.Valid) ∧ s = ofRanges l := by
  obtain ⟨d, -, h⟩ := Option.bind_eq_some_iff.mp h
  unfold ofDocument? at h
  obtain ⟨fields, -, h⟩ := Option.bind_eq_some_iff.mp h
  split at h
  case h_1 ranges =>
    obtain ⟨l, hl, h⟩ := Option.bind_eq_some_iff.mp h
    refine ⟨l, fun r hr => ?_, (Option.some.inj h).symm⟩
    unfold Document.asList? at hl
    split at hl
    · obtain ⟨x, -, hx⟩ := forall_mem_of_mapM_eq_some hl r hr
      exact Range.valid_of_ofDocument? hx
    · simp at hl
  case h_2 => simp at h

/-- The sets that can be made. -/
inductive Reachable : RangeSet → Prop
  | empty : Reachable empty
  | full : Reachable full
  | singleton {v : Int} (hv : Word.Fits 32 v) : Reachable (singleton v)
  | between {low high : Int} {s : RangeSet} (hl : Word.Fits 32 low) (hh : Word.Fits 32 high)
      (h : between low high = .ok s) : Reachable s
  | ofRanges {l : List Range} (hl : ∀ r ∈ l, r.Valid) : Reachable (ofRanges l)
  | read {text : String} {s : RangeSet} (h : ofJson? text = some s) : Reachable s
  | narrow {s : RangeSet} (h : Reachable s) (p : Predicate) {rhs : Int}
      (hrhs : Word.Fits 32 rhs) : Reachable (s.narrow p rhs)
  | union {a b : RangeSet} (ha : Reachable a) (hb : Reachable b) : Reachable (a ∪ b)
  | inter {a b : RangeSet} (ha : Reachable a) (hb : Reachable b) : Reachable (a ∩ b)
  | complement {s t : RangeSet} (h : Reachable s) (ht : s.complement = .ok t) : Reachable t

/-- Every set that can be made is canonical: each constructor makes a canonical set, and each
operation keeps the form. -/
theorem Reachable.canonical {s : RangeSet} (h : Reachable s) : s.Canonical := by
  induction h with
  | empty => exact canonical_empty
  | full => exact canonical_full
  | singleton hv => exact canonical_singleton hv
  | @between low high s hl hh h =>
    unfold RangeSet.between at h
    split at h
    case isTrue hle =>
      obtain rfl : RangeSet.ofRange low high = s := Except.ok.inj h
      exact canonical_ofRange hl hh hle
    case isFalse => simp at h
  | ofRanges hl => exact canonical_ofRanges hl
  | read h =>
    obtain ⟨l, hl, rfl⟩ := exists_ofRanges_of_ofJson? h
    exact canonical_ofRanges hl
  | narrow _ p hrhs ih => exact ih.narrow p hrhs
  | union _ _ iha ihb => exact iha.union ihb
  | inter _ _ iha ihb => exact iha.inter ihb
  | complement _ ht ih =>
    obtain ⟨-, -, rfl⟩ := complement_eq_ok_iff.mp ht
    exact ih.compl

/-- **Canonical form and exactness.** Every set that can be made is canonical. Computed in one
pass with 32-bit words, which has no result if an addition or a subtraction overflows or a
range is made with its bounds inverted, each operation on such sets has a result, and it is the
set that the operation defines; gathering any ranges of words has one as well. -/
theorem reachable_canonical_and_exact :
    (∀ s, Reachable s → s.Canonical) ∧
    (∀ a b, Reachable a → Reachable b →
      Sweep.union a b = some (a ∪ b) ∧ Sweep.inter a b = some (a ∩ b)) ∧
    (∀ a, Reachable a → ∀ (p : Predicate) (rhs : Int), Word.Fits 32 rhs →
      Sweep.narrow a p rhs = some (a.narrow p rhs)) ∧
    (∀ a, Reachable a → a.isEmpty = false → a.isFull = false →
      ∃ c, a.complement = .ok c ∧ Sweep.compl a = some c) ∧
    (∀ l : List Range, (∀ r ∈ l, r.Valid) → Sweep.ofRanges l = some (ofRanges l)) := by
  refine ⟨fun s hs => hs.canonical, fun a b ha hb => ⟨?_, ?_⟩, fun a ha p rhs hrhs => ?_,
    fun a ha he hf => ?_, fun l hl => Sweep.ofRanges_eq hl⟩
  · exact Sweep.union_eq ha.canonical hb.canonical
  · exact Sweep.inter_eq ha.canonical hb.canonical
  · exact Sweep.narrow_eq ha.canonical p hrhs
  · exact ⟨a.compl, complement_eq_ok_iff.mpr ⟨he, hf, rfl⟩, Sweep.compl_eq ha.canonical⟩

/-- The two ends of the word, each made by narrowing the full set: neither their union nor the
complement of the lower one overflows. -/
theorem reachable_ends_exact :
    let low := full.narrow .slt (-2147483647)
    let high := full.narrow .ugt 2147483646
    Reachable low ∧ Reachable high ∧ (low ∪ high).Canonical ∧
      Sweep.union low high = some (low ∪ high) ∧
      ∃ c, low.complement = .ok c ∧ Sweep.compl low = some c := by
  have hlow : Reachable (full.narrow .slt (-2147483647)) := .narrow .full _ (by decide)
  have hhigh : Reachable (full.narrow .ugt 2147483646) := .narrow .full _ (by decide)
  obtain ⟨hcanonical, hbinary, -, hcompl, -⟩ := reachable_canonical_and_exact
  exact ⟨hlow, hhigh, hcanonical _ (.union hlow hhigh), (hbinary _ _ hlow hhigh).1,
    hcompl _ hlow (by decide) (by decide)⟩

end RangeSet

end ErrorReturns
