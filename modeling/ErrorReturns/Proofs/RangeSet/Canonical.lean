import ErrorReturns.Fault
import Mathlib.Data.List.Basic

/-!
# The canonical form of a set of words

A list of ranges is *canonical* when every range is one of 32-bit words with its bounds in
order, and every range ends before the next one begins with at least one word left between
them. Touching ranges are excluded as well as overlapping ones, which is what makes the list
of a set unique.

All operations on sets restore this form. They do so in two ways. Gathering ranges
(`RangeSet.ofRanges`, and through it the union) sorts first and then glues what is not
separated, and the argument is an induction over the sorted list. Everything else but the
complement cuts pieces out of the ranges of a canonical list, so that what separates two
ranges still separates their pieces: `RangeSet.Canonical.flatMap` says so once, for whatever
pieces are cut. The complement walks over the gaps.
-/

namespace ErrorReturns

namespace Word

/-- Whether an integer is a signed word of a width. -/
def Fits (bits : Nat) (v : Int) : Prop := lowest bits ≤ v ∧ v ≤ highest bits

instance (bits : Nat) (v : Int) : Decidable (Fits bits v) :=
  inferInstanceAs (Decidable (_ ∧ _))

theorem lowest_32 : lowest 32 = -2147483648 := by decide

theorem highest_32 : highest 32 = 2147483647 := by decide

/-- The words of 32 bits, between their numerical bounds. -/
theorem fits_32_iff {v : Int} : Fits 32 v ↔ -2147483648 ≤ v ∧ v ≤ 2147483647 := by
  rw [Fits, lowest_32, highest_32]

end Word

namespace Range

/-- A range of 32-bit words with its bounds in order. -/
structure Valid (r : Range) : Prop where
  lowest_le : Word.lowest 32 ≤ r.low
  ordered : r.low ≤ r.high
  le_highest : r.high ≤ Word.highest 32

instance (r : Range) : Decidable r.Valid :=
  decidable_of_iff (Word.lowest 32 ≤ r.low ∧ r.low ≤ r.high ∧ r.high ≤ Word.highest 32)
    ⟨fun h => ⟨h.1, h.2.1, h.2.2⟩, fun h => ⟨h.lowest_le, h.ordered, h.le_highest⟩⟩

theorem valid_of_bounds {low high : Int} (hl : Word.lowest 32 ≤ low) (ho : low ≤ high)
    (hh : high ≤ Word.highest 32) : Valid ⟨low, high⟩ :=
  ⟨hl, ho, hh⟩

/-- A range ends before another begins, and they do not touch. -/
def Before (a b : Range) : Prop := a.high + 1 < b.low

instance (a b : Range) : Decidable (a.Before b) := inferInstanceAs (Decidable (_ < _))

/-- Every value of one range is a value of another. -/
def Within (a b : Range) : Prop := b.low ≤ a.low ∧ a.high ≤ b.high

@[simp] theorem contains_iff {r : Range} {v : Int} :
    r.contains v = true ↔ r.low ≤ v ∧ v ≤ r.high := by
  rw [contains, Bool.and_eq_true, decide_eq_true_iff, decide_eq_true_iff]

/-- Pieces of separated ranges are separated. -/
theorem Before.of_within {a b x y : Range} (h : a.Before b) (hx : x.Within a) (hy : y.Within b) :
    x.Before y := by
  unfold Before Within at *
  omega

/-- A piece of a range of words is one. -/
theorem Valid.of_within {r x : Range} (h : r.Valid) (hx : x.Within r) (ho : x.low ≤ x.high) :
    x.Valid :=
  ⟨Int.le_trans h.lowest_le hx.1, ho, Int.le_trans hx.2 h.le_highest⟩

/-- A range of words extended up to the end of another. -/
theorem Valid.extend {r x : Range} (h : r.Valid) (hx : x.Valid) :
    Valid ⟨r.low, max r.high x.high⟩ :=
  ⟨h.lowest_le, Int.le_trans h.ordered (Int.le_max_left _ _),
    Int.max_le.mpr ⟨h.le_highest, hx.le_highest⟩⟩

/-- **The common part of two ranges** is as large as it can be. -/
theorem overlap?_eq_some_iff {a b x : Range} :
    a.overlap? b = some x ↔
      x.low ≤ x.high ∧ x.low = max a.low b.low ∧ x.high = min a.high b.high := by
  unfold overlap?
  obtain ⟨low, high⟩ := x
  dsimp only
  split
  · rw [Option.some.injEq, Range.mk.injEq]
    omega
  · rw [iff_false_left (by simp)]
    omega

/-- Two ranges do not overlap if one ends before the other begins. -/
theorem overlap?_eq_none_iff {a b : Range} :
    a.overlap? b = none ↔ min a.high b.high < max a.low b.low := by
  unfold overlap?
  dsimp only
  split
  · rw [iff_false_left (by simp)]
    omega
  · rw [iff_true_left rfl]
    omega

end Range

namespace RangeSet

/-- **The canonical form**: ranges of words, each before the next with a gap between them. -/
structure Canonical (s : RangeSet) : Prop where
  valid : ∀ r ∈ s.ranges, r.Valid
  separated : s.ranges.Pairwise Range.Before

instance (s : RangeSet) : Decidable s.Canonical :=
  decidable_of_iff ((∀ r ∈ s.ranges, r.Valid) ∧ s.ranges.Pairwise Range.Before)
    ⟨fun h => ⟨h.1, h.2⟩, fun h => ⟨h.valid, h.separated⟩⟩

namespace Canonical

/-! ## Lists that are canonical -/

theorem nil : Canonical ⟨[]⟩ := ⟨by simp, List.Pairwise.nil⟩

/-- A canonical list begins with a range of words, before everything that follows it, and goes
on with a canonical list. -/
theorem cons_iff {r : Range} {rest : List Range} :
    Canonical ⟨r :: rest⟩ ↔ r.Valid ∧ (∀ x ∈ rest, r.Before x) ∧ Canonical ⟨rest⟩ := by
  constructor
  · rintro ⟨hv, hs⟩
    rw [List.forall_mem_cons] at hv
    rw [List.pairwise_cons] at hs
    exact ⟨hv.1, hs.1, hv.2, hs.2⟩
  · rintro ⟨hr, hb, hv, hs⟩
    exact ⟨List.forall_mem_cons.mpr ⟨hr, hv⟩, List.pairwise_cons.mpr ⟨hb, hs⟩⟩

@[simp] theorem singleton_iff {r : Range} : Canonical ⟨[r]⟩ ↔ r.Valid := by
  rw [cons_iff]
  exact ⟨fun h => h.1, fun h => ⟨h, by simp, nil⟩⟩

/-- Two canonical lists, the one before the other, make a canonical list. -/
theorem append {l m : List Range} (hl : Canonical ⟨l⟩) (hm : Canonical ⟨m⟩)
    (h : ∀ x ∈ l, ∀ y ∈ m, x.Before y) : Canonical ⟨l ++ m⟩ :=
  ⟨List.forall_mem_append.mpr ⟨hl.valid, hm.valid⟩,
    List.pairwise_append.mpr ⟨hl.separated, hm.separated, h⟩⟩

/-- **Cutting pieces out of ranges.** If every range of a canonical list is replaced by pieces
of it that are canonical among themselves, the whole is canonical: the gap between two ranges
is a gap between their pieces. -/
theorem flatMap {l : List Range} (h : Canonical ⟨l⟩) {pieces : Range → List Range}
    (hp : ∀ r ∈ l, Canonical ⟨pieces r⟩)
    (hw : ∀ r ∈ l, ∀ x ∈ pieces r, x.Within r) : Canonical ⟨l.flatMap pieces⟩ := by
  induction l with
  | nil => exact nil
  | cons r rest ih =>
    obtain ⟨-, hb, hrest⟩ := cons_iff.mp h
    rw [List.forall_mem_cons] at hp hw
    rw [List.flatMap_cons]
    refine (hp.1).append (ih hrest hp.2 hw.2) (fun x hx y hy => ?_)
    obtain ⟨q, hq, hyq⟩ := List.mem_flatMap.mp hy
    exact (hb q hq).of_within (hw.1 x hx) (hw.2 q hq y hyq)

/-- Keeping at most one piece of each range. -/
theorem filterMap {l : List Range} (h : Canonical ⟨l⟩) {piece? : Range → Option Range}
    (hp : ∀ r ∈ l, ∀ x, piece? r = some x → x.low ≤ x.high ∧ x.Within r) :
    Canonical ⟨l.filterMap piece?⟩ := by
  rw [List.filterMap_eq_flatMap_toList]
  refine h.flatMap (fun r hr => ?_) (fun r hr x hx => ?_)
  · cases hx : piece? r with
    | none => exact nil
    | some x =>
      obtain ⟨ho, hw⟩ := hp r hr x hx
      exact singleton_iff.mpr ((h.valid r hr).of_within hw ho)
  · exact (hp r hr x (Option.mem_toList.mp hx)).2

end Canonical

/-! ## Building sets -/

theorem canonical_empty : empty.Canonical := Canonical.nil

theorem canonical_full : full.Canonical := by decide

theorem canonical_ofRange {low high : Int} (hl : Word.Fits 32 low) (hh : Word.Fits 32 high)
    (h : low ≤ high) : (ofRange low high).Canonical :=
  Canonical.singleton_iff.mpr ⟨hl.1, h, hh.2⟩

theorem canonical_singleton {v : Int} (h : Word.Fits 32 v) : (singleton v).Canonical :=
  canonical_ofRange h h (Int.le_refl v)

/-- What has been gathered so far may reach beyond later ranges, but never begins after one:
all that comes out begins no earlier than it. -/
theorem low_le_of_mem_absorb {current : Range} {l : List Range}
    (hsorted : l.Pairwise fun a b => a.low ≤ b.low) (hle : ∀ r ∈ l, current.low ≤ r.low) :
    ∀ x ∈ absorb current l, current.low ≤ x.low := by
  induction l generalizing current with
  | nil => simp [absorb]
  | cons r rest ih =>
    rw [List.forall_mem_cons] at hle
    rw [List.pairwise_cons] at hsorted
    rw [absorb]
    split
    · exact ih hsorted.2 hle.2
    · rw [List.forall_mem_cons]
      refine ⟨Int.le_refl _, fun x hx => ?_⟩
      exact Int.le_trans hle.1 (ih hsorted.2 hsorted.1 x hx)

/-- **Gluing a sorted list** gives a canonical one: a range is given up only when the next one,
and with it every later one, begins beyond a gap. -/
theorem canonical_absorb {current : Range} {l : List Range} (hc : current.Valid)
    (hv : ∀ r ∈ l, r.Valid) (hsorted : l.Pairwise fun a b => a.low ≤ b.low)
    (hle : ∀ r ∈ l, current.low ≤ r.low) : Canonical ⟨absorb current l⟩ := by
  induction l generalizing current with
  | nil => exact Canonical.singleton_iff.mpr hc
  | cons r rest ih =>
    rw [List.forall_mem_cons] at hv hle
    rw [List.pairwise_cons] at hsorted
    rw [absorb]
    split
    -- what is glued keeps its lower end, so it still begins before all that follows
    case isTrue => exact ih (hc.extend hv.1) hv.2 hsorted.2 hle.2
    case isFalse h =>
      refine Canonical.cons_iff.mpr ⟨hc, fun x hx => ?_, ih hv.1 hv.2 hsorted.2 hsorted.1⟩
      have hx := low_le_of_mem_absorb hsorted.2 hsorted.1 x hx
      unfold Range.Before
      omega

/-- The order in which ranges are sorted: by lower ends, then by upper ends. -/
theorem range_isLE_iff {a b : Range} :
    (compare a b).isLE = true ↔ a.low < b.low ∨ a.low = b.low ∧ a.high ≤ b.high := by
  show ((compare a.low b.low).then (compare a.high b.high)).isLE = true ↔ _
  rw [Ordering.isLE_then_iff_or, Int.compare_eq_lt, Int.compare_eq_eq, Int.isLE_compare]

theorem range_isLE_trans (a b c : Range) (hab : (compare a b).isLE = true)
    (hbc : (compare b c).isLE = true) : (compare a c).isLE = true := by
  rw [range_isLE_iff] at *
  omega

theorem range_isLE_total (a b : Range) : ((compare a b).isLE || (compare b a).isLE) = true := by
  rw [Bool.or_eq_true, range_isLE_iff, range_isLE_iff]
  omega

theorem pairwise_isLE_mergeSort (l : List Range) :
    (l.mergeSort fun a b => (compare a b).isLE).Pairwise fun a b => (compare a b).isLE = true :=
  List.pairwise_mergeSort range_isLE_trans range_isLE_total l

/-- Ranges in order have their lower ends in order. -/
theorem pairwise_low_le {l : List Range}
    (h : l.Pairwise fun a b => (compare a b).isLE = true) :
    l.Pairwise fun a b => a.low ≤ b.low :=
  h.imp fun hab => by
    rw [range_isLE_iff] at hab
    omega

theorem canonical_coalesce {l : List Range} (hv : ∀ r ∈ l, r.Valid)
    (hsorted : l.Pairwise fun a b => a.low ≤ b.low) : Canonical ⟨coalesce l⟩ := by
  cases l with
  | nil => exact Canonical.nil
  | cons r rest =>
    rw [List.forall_mem_cons] at hv
    rw [List.pairwise_cons] at hsorted
    exact canonical_absorb hv.1 hv.2 hsorted.2 hsorted.1

/-- **Any ranges of words make a canonical set**, in whatever order they come and however they
overlap. -/
theorem canonical_ofRanges {l : List Range} (hv : ∀ r ∈ l, r.Valid) : (ofRanges l).Canonical :=
  canonical_coalesce (fun r hr => hv r (List.mem_mergeSort.mp hr))
    (pairwise_low_le (pairwise_isLE_mergeSort l))

/-! ## Operations -/

theorem Canonical.union {a b : RangeSet} (ha : a.Canonical) (hb : b.Canonical) :
    (a.union b).Canonical :=
  canonical_ofRanges (List.forall_mem_append.mpr ⟨ha.valid, hb.valid⟩)

theorem absorb_ne_nil (current : Range) (l : List Range) : absorb current l ≠ [] := by
  fun_induction absorb current l with
  | case1 => exact List.cons_ne_nil _ _
  | case2 _ _ _ _ ih => exact ih
  | case3 => exact List.cons_ne_nil _ _

@[simp] theorem isEmpty_ofRanges (l : List Range) : (ofRanges l).isEmpty = l.isEmpty := by
  have hcoalesce : ∀ l : List Range, (coalesce l).isEmpty = l.isEmpty
    | [] => rfl
    | r :: rest => List.isEmpty_eq_false_iff.mpr (absorb_ne_nil r rest)
  rw [isEmpty, ofRanges, hcoalesce, Bool.eq_iff_iff, List.isEmpty_iff_length_eq_zero,
    List.length_mergeSort, List.isEmpty_iff_length_eq_zero]

/-- A union is empty when both of its parts are. -/
@[simp] theorem isEmpty_union (a b : RangeSet) : (a ∪ b).isEmpty = (a.isEmpty && b.isEmpty) := by
  refine (isEmpty_ofRanges (a.ranges ++ b.ranges)).trans ?_
  rw [Bool.eq_iff_iff, List.isEmpty_iff, List.append_eq_nil_iff, Bool.and_eq_true, isEmpty,
    isEmpty, List.isEmpty_iff, List.isEmpty_iff]

/-- Cutting a canonical set leaves it canonical. -/
theorem Canonical.clip {s : RangeSet} (h : s.Canonical) (low high : Int) :
    (s.clip low high).Canonical := by
  refine h.filterMap (fun r _ x hx => ?_)
  obtain ⟨ho, hl, hh⟩ := Range.overlap?_eq_some_iff.mp hx
  refine ⟨ho, ?_, ?_⟩
  · rw [hl]
    exact Int.le_max_left _ _
  · rw [hh]
    exact Int.min_le_left _ _

/-- The intersection of canonical sets is canonical. -/
theorem Canonical.inter {a b : RangeSet} (ha : a.Canonical) (hb : b.Canonical) :
    (a.inter b).Canonical := by
  have hpiece : ∀ r x y : Range, r.overlap? y = some x →
      x.low ≤ x.high ∧ x.Within r ∧ x.Within y := by
    intro r x y hx
    obtain ⟨ho, hl, hh⟩ := Range.overlap?_eq_some_iff.mp hx
    unfold Range.Within
    omega
  refine ha.flatMap (fun r _ => ?_) (fun r _ x hx => ?_)
  · exact hb.filterMap fun y _ x hx => ⟨(hpiece r x y hx).1, (hpiece r x y hx).2.2⟩
  · obtain ⟨y, -, hx⟩ := List.mem_filterMap.mp hx
    exact (hpiece r x y hx).2.1

/-- A value taken out of a range of words leaves a canonical list of at most two pieces. -/
theorem canonical_remove (v : Int) {r : Range} (h : r.Valid) : Canonical ⟨remove v r⟩ := by
  have hl := h.lowest_le
  have hh := h.le_highest
  unfold remove
  split
  case isTrue hv =>
    rw [Range.contains_iff] at hv
    refine Canonical.append ?_ ?_ (fun x hx y hy => ?_)
    · split
      · exact Canonical.singleton_iff.mpr (Range.valid_of_bounds hl (by omega) (by omega))
      · exact Canonical.nil
    · split
      · exact Canonical.singleton_iff.mpr (Range.valid_of_bounds (by omega) (by omega) hh)
      · exact Canonical.nil
    · -- the pieces lie on either side of `v`, and that is the gap between them
      rw [List.mem_ite_nil_right, List.mem_singleton] at hx hy
      rw [hx.2, hy.2]
      show v - 1 + 1 < v + 1
      omega
  case isFalse => exact Canonical.singleton_iff.mpr h

/-- What is left of a range without a value lies within the range. -/
theorem within_of_mem_remove {v : Int} {r x : Range} (hx : x ∈ remove v r) : x.Within r := by
  unfold remove at hx
  split at hx
  case isTrue hv =>
    rw [Range.contains_iff] at hv
    rw [List.mem_append, List.mem_ite_nil_right, List.mem_ite_nil_right, List.mem_singleton,
      List.mem_singleton] at hx
    unfold Range.Within
    rcases hx with ⟨-, rfl⟩ | ⟨-, rfl⟩
    all_goals dsimp only; omega
  case isFalse =>
    rw [List.mem_singleton.mp hx]
    exact ⟨Int.le_refl _, Int.le_refl _⟩

/-- **Narrowing keeps the form**, for every comparison and every word. -/
theorem Canonical.narrow {s : RangeSet} (h : s.Canonical) (p : Predicate) {rhs : Int}
    (hrhs : Word.Fits 32 rhs) : (s.narrow p rhs).Canonical := by
  cases p with
  | eq =>
    rw [RangeSet.narrow]
    split
    · exact canonical_singleton hrhs
    · exact canonical_empty
  | ne =>
    exact h.flatMap (fun r hr => canonical_remove rhs (h.valid r hr))
      (fun r _ x hx => within_of_mem_remove hx)
  | ugt | uge | ult | ule | sgt | sge | slt | sle => exact h.clip _ _

/-- The gaps from `start` on begin no earlier than it. -/
theorem le_low_of_mem_gaps {start : Int} {l : List Range} (h : Canonical ⟨l⟩)
    (hle : ∀ r ∈ l, start ≤ r.low) : ∀ x ∈ gaps start l, start ≤ x.low := by
  induction l generalizing start with
  | nil =>
    intro x hx
    rw [gaps, List.mem_ite_nil_right, List.mem_singleton] at hx
    exact hx.2 ▸ Int.le_refl start
  | cons r rest ih =>
    intro x hx
    obtain ⟨hr, hb, hrest⟩ := Canonical.cons_iff.mp h
    rw [List.forall_mem_cons] at hle
    rw [gaps, List.mem_append, List.mem_ite_nil_right, List.mem_singleton] at hx
    rcases hx with ⟨-, rfl⟩ | hx
    · exact Int.le_refl _
    · have hnext := ih hrest (fun y hy => Int.le_of_lt (hb y hy)) x hx
      have := hr.ordered
      omega

/-- **The gaps of a canonical list are canonical**: between two gaps lies a whole range. -/
theorem canonical_gaps {start : Int} {l : List Range} (h : Canonical ⟨l⟩)
    (hstart : Word.lowest 32 ≤ start) (hle : ∀ r ∈ l, start ≤ r.low) :
    Canonical ⟨gaps start l⟩ := by
  induction l generalizing start with
  | nil =>
    rw [gaps]
    split
    case isTrue hs => exact Canonical.singleton_iff.mpr ⟨hstart, hs, Int.le_refl _⟩
    case isFalse => exact Canonical.nil
  | cons r rest ih =>
    obtain ⟨hr, hb, hrest⟩ := Canonical.cons_iff.mp h
    rw [List.forall_mem_cons] at hle
    have ho := hr.ordered
    have hh := hr.le_highest
    have hbelow : ∀ y ∈ rest, r.high + 1 ≤ y.low := fun y hy => Int.le_of_lt (hb y hy)
    rw [gaps]
    refine Canonical.append ?_ (ih hrest (by omega) hbelow) (fun x hx y hy => ?_)
    · split
      · exact Canonical.singleton_iff.mpr (Range.valid_of_bounds hstart (by omega) (by omega))
      · exact Canonical.nil
    · -- one gap ends below `r`, and the next begins above its end
      rw [List.mem_ite_nil_right, List.mem_singleton] at hx
      have hy := le_low_of_mem_gaps hrest hbelow y hy
      rw [hx.2]
      show r.low - 1 + 1 < y.low
      omega

theorem Canonical.compl {s : RangeSet} (h : s.Canonical) : s.compl.Canonical :=
  canonical_gaps h (Int.le_refl _) fun r hr => (h.valid r hr).lowest_le

/-- The complement with its guard is the complement, wherever it is defined. -/
theorem complement_eq_ok_iff {s t : RangeSet} :
    s.complement = .ok t ↔ s.isEmpty = false ∧ s.isFull = false ∧ s.compl = t := by
  unfold complement
  split
  case isTrue h =>
    rw [Bool.or_eq_true] at h
    rw [iff_false_left (by simp)]
    rintro ⟨he, hf, -⟩
    rw [he, hf] at h
    simp at h
  case isFalse h =>
    rw [Bool.or_eq_true, not_or, Bool.not_eq_true, Bool.not_eq_true] at h
    rw [Except.ok.injEq]
    exact ⟨fun ht => ⟨h.1, h.2, ht⟩, fun ht => ht.2.2⟩

end RangeSet

end ErrorReturns
