import ErrorReturns.Proofs.RangeSet.Membership
import ErrorReturns.Proofs.RangeSet.Sweep
import ErrorReturns.Proofs.Word
import Mathlib.Data.Int.Interval
import Mathlib.Data.Set.Card
import Mathlib.Order.Bounds.Basic

/-!
# What is observed of a set

The size, the bounds and the sign of a set are computed from the bounds of its ranges, without a
look at the values between them. They are what they are called all the same: the size is the number
of members (`RangeSet.Canonical.size_eq_ncard`), since canonical ranges are disjoint; the bounds are
the least and the greatest member; and the sign tells on which sides of zero there are members
(`Canonical.sign_cases`).

Sizes obey the law of inclusion and exclusion (`Canonical.size_union_add_size_inter`), as the
numbers of members of any two finite sets do. No size exceeds the number of words, so that adding up
the ranges with 64 bits never overflows (`Sweep.size_eq`).
-/

namespace ErrorReturns

namespace Word

/-- The result of an addition as an unsigned word; nothing if it overflows. -/
def checkedUnsigned? (bits n : Nat) : Option Nat := if n < count bits then some n else none

theorem checkedUnsigned?_of_lt {bits n : Nat} (h : n < count bits) :
    checkedUnsigned? bits n = some n :=
  if_pos h

/-- Differences of 32-bit words, and one more, never overflow 64 bits. -/
theorem fits_64_of_sub {u v w : Int} (hu : Fits 32 u) (hv : Fits 32 v) (hle : v - u ≤ w)
    (hge : w ≤ v - u + 1) : Fits 64 w := by
  have hl : lowest 64 = -9223372036854775808 := by decide
  have hh : highest 64 = 9223372036854775807 := by decide
  rw [fits_32_iff] at hu hv
  rw [Fits, hl, hh]
  omega

end Word

namespace RangeSet

variable {a b s : RangeSet}

/-! ## Sizes -/

theorem setOf_mem_cons (r : Range) (rest : List Range) : {v | v ∈ (⟨r :: rest⟩ : RangeSet)} =
    {v | r.low ≤ v ∧ v ≤ r.high} ∪ {v | v ∈ (⟨rest⟩ : RangeSet)} :=
  Set.ext fun _ => mem_cons

theorem finite_range (r : Range) : {v | r.low ≤ v ∧ v ≤ r.high}.Finite :=
  Set.finite_Icc r.low r.high

theorem finite_setOf_mem (s : RangeSet) : {v | v ∈ s}.Finite := by
  obtain ⟨l⟩ := s
  induction l with
  | nil => exact Set.finite_empty.subset fun v hv => absurd hv not_mem_nil
  | cons r rest ih =>
    rw [setOf_mem_cons]
    exact (finite_range r).union ih

theorem ncard_range (r : Range) : {v | r.low ≤ v ∧ v ≤ r.high}.ncard = r.size := by
  have hIcc : {v | r.low ≤ v ∧ v ≤ r.high} = Finset.Icc r.low r.high :=
    (Finset.coe_Icc r.low r.high).symm
  rw [hIcc, Set.ncard_coe_finset, Int.card_Icc, Range.size]
  congr 1
  omega

/-- **The size of a set is the number of its members.** Ranges of a canonical set are disjoint, so
that no value is counted twice. -/
theorem Canonical.size_eq_ncard (h : s.Canonical) : s.size = {v | v ∈ s}.ncard := by
  obtain ⟨l⟩ := s
  induction l with
  | nil =>
    have hnone : {v | v ∈ (⟨[]⟩ : RangeSet)} = ∅ :=
      Set.eq_empty_of_forall_notMem fun _ => not_mem_nil
    rw [hnone, Set.ncard_empty]
    rfl
  | cons r rest ih =>
    have hdisjoint : Disjoint {v | r.low ≤ v ∧ v ≤ r.high} {v | v ∈ (⟨rest⟩ : RangeSet)} := by
      refine Set.disjoint_left.mpr fun v hv hrest => ?_
      have hgap := h.lt_of_mem_tail hrest
      have hle := hv.2
      omega
    rw [setOf_mem_cons, Set.ncard_union_eq hdisjoint (finite_range r) (finite_setOf_mem _),
      ncard_range, ← ih (Canonical.cons_iff.mp h).2.2]
    rfl

/-- **Inclusion and exclusion**: the values that two sets share are counted in both. -/
theorem Canonical.size_union_add_size_inter (ha : a.Canonical) (hb : b.Canonical) :
    (a ∪ b).size + (a ∩ b).size = a.size + b.size := by
  have hunion : {v | v ∈ a ∪ b} = {v | v ∈ a} ∪ {v | v ∈ b} := Set.ext fun _ => mem_union
  have hinter : {v | v ∈ a ∩ b} = {v | v ∈ a} ∩ {v | v ∈ b} := Set.ext fun _ => mem_inter
  have hunionSize : (a ∪ b).size = {v | v ∈ a ∪ b}.ncard := Canonical.size_eq_ncard (ha.union hb)
  have hinterSize : (a ∩ b).size = {v | v ∈ a ∩ b}.ncard := Canonical.size_eq_ncard (ha.inter hb)
  rw [hunionSize, hinterSize, ha.size_eq_ncard, hb.size_eq_ncard, hunion, hinter]
  exact Set.ncard_union_add_ncard_inter _ _ (finite_setOf_mem a) (finite_setOf_mem b)

/-- No set has more members than there are words. -/
theorem Canonical.size_le (h : s.Canonical) : s.size ≤ Word.count 32 := by
  have hsub : {v | v ∈ s} ⊆ {v | Range.full.low ≤ v ∧ v ≤ Range.full.high} := fun _ hv =>
    h.fits_of_mem hv
  calc s.size = {v | v ∈ s}.ncard := h.size_eq_ncard
    _ ≤ {v | Range.full.low ≤ v ∧ v ≤ Range.full.high}.ncard :=
      Set.ncard_le_ncard hsub (finite_range Range.full)
    _ = Range.full.size := ncard_range Range.full
    _ = Word.count 32 := by decide

namespace Sweep

/-- How many values a range has, computed with signed words of 64 bits and read as an unsigned
one. -/
def rangeSize (r : Range) : Option Nat := do
  let difference ← Word.checked? 64 (r.high - r.low)
  let size ← Word.checked? 64 (difference + 1)
  return (Word.wrapUnsigned 64 size).toNat

/-- How many values a set has, added up range by range with unsigned words of 64 bits. -/
def size (s : RangeSet) : Option Nat :=
  s.ranges.foldlM (fun total r => do Word.checkedUnsigned? 64 (total + (← rangeSize r))) 0

theorem rangeSize_eq {r : Range} (h : r.Valid) : rangeSize r = some r.size := by
  have hordered := h.ordered
  have hdifference := Word.checked?_of_fits (Word.fits_64_of_sub h.fits_low h.fits_high
    (Int.le_refl (r.high - r.low)) (by omega))
  have hfits := Word.fits_64_of_sub h.fits_low h.fits_high
    (w := r.high - r.low + 1) (by omega) (Int.le_refl _)
  have hunsigned := Word.wrapUnsigned_of_nonneg (by decide) hfits (by omega)
  simp [rangeSize, hdifference, Word.checked?_of_fits hfits, hunsigned, Range.size]

/-- Adding on from a total gives the total and the rest, if this is a word. -/
theorem foldlM_size {l : List Range} (hv : ∀ r ∈ l, r.Valid) {total : Nat}
    (h : total + RangeSet.size ⟨l⟩ < Word.count 64) :
    l.foldlM (fun total r => do Word.checkedUnsigned? 64 (total + (← rangeSize r))) total
      = some (total + RangeSet.size ⟨l⟩) := by
  induction l generalizing total with
  | nil => rfl
  | cons r rest ih =>
    rw [List.forall_mem_cons] at hv
    have hsize : RangeSet.size ⟨r :: rest⟩ = r.size + RangeSet.size ⟨rest⟩ := rfl
    rw [hsize, ← Nat.add_assoc] at h ⊢
    have hstep := Word.checkedUnsigned?_of_lt (Nat.lt_of_le_of_lt (Nat.le_add_right _ _) h)
    rw [List.foldlM_cons, rangeSize_eq hv.1]
    simp only [Option.bind_eq_bind, Option.bind_some, hstep]
    exact ih hv.2 h

/-- **Adding up the ranges never overflows.** -/
theorem size_eq (h : s.Canonical) : size s = some s.size := by
  have hle := h.size_le
  have hlt : Word.count 32 < Word.count 64 := by decide
  have hsum := foldlM_size h.valid (show 0 + s.size < Word.count 64 by omega)
  rwa [Nat.zero_add] at hsum

end Sweep

/-! ## Bounds -/

theorem Canonical.lowest?_eq_some_iff (h : s.Canonical) {v : Int} :
    s.lowest? = some v ↔ IsLeast {u | u ∈ s} v := by
  refine ⟨fun hlow => ⟨(h.lowest?_spec hlow).1, (h.lowest?_spec hlow).2⟩, fun hleast => ?_⟩
  obtain ⟨low, -, hlow, -⟩ := exists_bounds hleast.1
  have hleast' : IsLeast {u | u ∈ s} low := ⟨(h.lowest?_spec hlow).1, (h.lowest?_spec hlow).2⟩
  rw [hlow, hleast'.unique hleast]

theorem Canonical.highest?_eq_some_iff (h : s.Canonical) {v : Int} :
    s.highest? = some v ↔ IsGreatest {u | u ∈ s} v := by
  refine ⟨fun hhigh => ⟨(h.highest?_spec hhigh).1, (h.highest?_spec hhigh).2⟩, fun hmost => ?_⟩
  obtain ⟨-, high, -, hhigh⟩ := exists_bounds hmost.1
  have hmost' : IsGreatest {u | u ∈ s} high :=
    ⟨(h.highest?_spec hhigh).1, (h.highest?_spec hhigh).2⟩
  rw [hhigh, hmost'.unique hmost]

/-- Only a set without members has no bounds. -/
theorem Canonical.bounds_eq_none_iff (h : s.Canonical) :
    (s.lowest? = none ↔ ∀ v, v ∉ s) ∧ (s.highest? = none ↔ ∀ v, v ∉ s) := by
  have hempty : s.ranges = [] ↔ ∀ v, v ∉ s := by
    rw [← not_exists, ← h.isEmpty_eq_false_iff, Bool.not_eq_false, isEmpty, List.isEmpty_iff]
  rw [lowest?, highest?, Option.map_eq_none_iff, Option.map_eq_none_iff, List.head?_eq_none_iff,
    List.getLast?_eq_none_iff]
  exact ⟨hempty, hempty⟩

/-! ## Signs -/

theorem Canonical.all_high_le_zero_iff (h : s.Canonical) :
    s.ranges.all (·.high ≤ 0) = true ↔ ¬ ∃ v ∈ s, 0 < v := by
  simp only [List.all_eq_true, decide_eq_true_iff, not_exists, not_and, Int.not_lt]
  constructor
  · intro hall v hv
    obtain ⟨r, hr, -, hle⟩ := mem_iff.mp hv
    exact Int.le_trans hle (hall r hr)
  · exact fun hall r hr => hall r.high (mem_iff.mpr ⟨r, hr, (h.valid r hr).ordered, Int.le_refl _⟩)

theorem Canonical.all_zero_le_low_iff (h : s.Canonical) :
    s.ranges.all (0 ≤ ·.low) = true ↔ ¬ ∃ v ∈ s, v < 0 := by
  simp only [List.all_eq_true, decide_eq_true_iff, not_exists, not_and, Int.not_lt]
  constructor
  · intro hall v hv
    obtain ⟨r, hr, hle, -⟩ := mem_iff.mp hv
    exact Int.le_trans (hall r hr) hle
  · exact fun hall r hr => hall r.low (mem_iff.mpr ⟨r, hr, Int.le_refl _, (h.valid r hr).ordered⟩)

/-- The empty set and the set of zero alone are those without members on either side of zero. -/
theorem Canonical.isEmpty_or_eq_zero_iff (h : s.Canonical) :
    (s.isEmpty || s == singleton 0) = true ↔ ¬ (∃ v ∈ s, v < 0) ∧ ¬ ∃ v ∈ s, 0 < v := by
  rw [Bool.or_eq_true, beq_iff_eq]
  constructor
  · rintro (hempty | rfl)
    · have hnone : ¬ ∃ v, v ∈ s := by
        rw [← h.isEmpty_eq_false_iff, hempty]
        exact Bool.noConfusion
      exact ⟨fun ⟨v, hv, _⟩ => hnone ⟨v, hv⟩, fun ⟨v, hv, _⟩ => hnone ⟨v, hv⟩⟩
    · simp [mem_singleton]
  · rintro ⟨hneg, hpos⟩
    cases hempty : s.isEmpty with
    | true => exact Or.inl rfl
    | false =>
      -- there is a member, and every member is zero
      obtain ⟨v, hv⟩ := h.isEmpty_eq_false_iff.mp hempty
      have hzero : ∀ u ∈ s, u = 0 := fun u hu => by
        have hle : ¬ 0 < u := fun hlt => hpos ⟨u, hu, hlt⟩
        have hge : ¬ u < 0 := fun hlt => hneg ⟨u, hu, hlt⟩
        omega
      refine Or.inr (h.ext (canonical_singleton (by decide)) fun u => ?_)
      rw [mem_singleton]
      exact ⟨hzero u, fun hu => hu ▸ hzero v hv ▸ hv⟩

/-- **The sign of a set** tells on which sides of zero it has members: it is zero if they are on
both sides or on none. -/
theorem Canonical.sign_cases (h : s.Canonical) :
    (s.sign = -1 ↔ (∃ v ∈ s, v < 0) ∧ ¬ ∃ v ∈ s, 0 < v) ∧
    (s.sign = 1 ↔ (∃ v ∈ s, 0 < v) ∧ ¬ ∃ v ∈ s, v < 0) ∧
    (s.sign = 0 ↔ ((∃ v ∈ s, v < 0) ↔ ∃ v ∈ s, 0 < v)) := by
  classical
  unfold sign
  simp only [h.isEmpty_or_eq_zero_iff, h.all_high_le_zero_iff, h.all_zero_le_low_iff]
  by_cases hneg : ∃ v ∈ s, v < 0 <;> by_cases hpos : ∃ v ∈ s, 0 < v <;> simp [hneg, hpos]

/-! ## All observers -/

/-- **What is observed of a set is true of its members.** The size of a canonical set is the number
of words that it has, also when it is added up with 64 bits, which never overflow, and sizes obey
the law of inclusion and exclusion. The bounds are the least and the greatest member, and only a set
without members has none. The sign is negative if there are negative members and no positive ones,
positive in the opposite case, and zero otherwise. -/
theorem observers_exact (ha : a.Canonical) (hb : b.Canonical) :
    (a.size = {v | Word.Fits 32 v ∧ v ∈ a}.ncard ∧ Sweep.size a = some a.size) ∧
    (a ∪ b).size + (a ∩ b).size = a.size + b.size ∧
    (∀ v, a.lowest? = some v ↔ IsLeast {u | u ∈ a} v) ∧ (a.lowest? = none ↔ ∀ v, v ∉ a) ∧
    (∀ v, a.highest? = some v ↔ IsGreatest {u | u ∈ a} v) ∧ (a.highest? = none ↔ ∀ v, v ∉ a) ∧
    (a.sign = -1 ↔ (∃ v ∈ a, v < 0) ∧ ¬ ∃ v ∈ a, 0 < v) ∧
    (a.sign = 1 ↔ (∃ v ∈ a, 0 < v) ∧ ¬ ∃ v ∈ a, v < 0) ∧
    (a.sign = 0 ↔ ((∃ v ∈ a, v < 0) ↔ ∃ v ∈ a, 0 < v)) := by
  have hwords : {v | Word.Fits 32 v ∧ v ∈ a} = {v | v ∈ a} :=
    Set.ext fun _ => and_iff_right_of_imp ha.fits_of_mem
  rw [hwords]
  exact ⟨⟨ha.size_eq_ncard, Sweep.size_eq ha⟩, ha.size_union_add_size_inter hb,
    fun _ => ha.lowest?_eq_some_iff, ha.bounds_eq_none_iff.1, fun _ => ha.highest?_eq_some_iff,
    ha.bounds_eq_none_iff.2, ha.sign_cases⟩

/-- The full set against its negative half: the sizes are the largest there are. -/
theorem full_observers_exact :
    let half : RangeSet := ⟨[⟨-2147483648, -1⟩]⟩
    full.Canonical ∧ half.Canonical ∧
      {v | Word.Fits 32 v ∧ v ∈ full}.ncard = 4294967296 ∧ Sweep.size full = some 4294967296 ∧
      (full ∪ half).size + (full ∩ half).size = 4294967296 + 2147483648 ∧
      IsLeast {u | u ∈ full} (-2147483648) ∧ IsGreatest {u | u ∈ full} 2147483647 ∧
      ((∃ v ∈ full, v < 0) ↔ ∃ v ∈ full, 0 < v) := by
  intro half
  have hhalf : half.Canonical := by decide
  obtain ⟨⟨hsize, hsweep⟩, hlaw, hlow, -, hhigh, -, -, -, hsign⟩ :=
    observers_exact canonical_full hhalf
  exact ⟨canonical_full, hhalf, hsize.symm, hsweep, hlaw, (hlow _).mp (by decide),
    (hhigh _).mp (by decide), hsign.mp (by decide)⟩

end RangeSet

end ErrorReturns
