import ErrorReturns.Proofs.RangeSet.Canonical

/-!
# What the operations on sets mean

A set is read through its members: `v ∈ s` says that some range of the list contains `v`. Each
operation on lists of ranges is then an operation on sets of integers, and this module has one
equivalence for each: union, intersection, complement, narrowing by a comparison, and the
gathering of any ranges. Membership does not care how a list is cut into ranges, so most of
these hold of every list; gluing needs the sorted order, and the gaps need the canonical form.
-/

namespace ErrorReturns

namespace RangeSet

/-- A value is in a set when it lies between the bounds of one of the ranges. -/
theorem mem_iff {s : RangeSet} {v : Int} :
    v ∈ s ↔ ∃ r ∈ s.ranges, r.low ≤ v ∧ v ≤ r.high := by
  show s.ranges.any (·.contains v) = true ↔ _
  rw [List.any_eq_true]
  exact exists_congr fun r => and_congr_right fun _ => Range.contains_iff

theorem not_mem_nil {v : Int} : v ∉ (⟨[]⟩ : RangeSet) := by
  rw [mem_iff]
  simp

theorem mem_cons {r : Range} {rest : List Range} {v : Int} :
    v ∈ (⟨r :: rest⟩ : RangeSet) ↔ (r.low ≤ v ∧ v ≤ r.high) ∨ v ∈ (⟨rest⟩ : RangeSet) := by
  simp only [mem_iff, List.mem_cons, exists_eq_or_imp]

theorem mem_append {l m : List Range} {v : Int} :
    v ∈ (⟨l ++ m⟩ : RangeSet) ↔ v ∈ (⟨l⟩ : RangeSet) ∨ v ∈ (⟨m⟩ : RangeSet) := by
  simp only [mem_iff, List.mem_append, or_and_right, exists_or]

theorem mem_flatMap {l : List Range} {pieces : Range → List Range} {v : Int} :
    v ∈ (⟨l.flatMap pieces⟩ : RangeSet) ↔ ∃ r ∈ l, v ∈ (⟨pieces r⟩ : RangeSet) := by
  induction l with
  | nil => simp [not_mem_nil]
  | cons r rest ih =>
    rw [List.flatMap_cons, mem_append, ih]
    simp only [List.mem_cons, exists_eq_or_imp]

@[simp] theorem mem_ofRange {low high v : Int} : v ∈ ofRange low high ↔ low ≤ v ∧ v ≤ high := by
  rw [ofRange, mem_cons, or_iff_left not_mem_nil]

@[simp] theorem mem_singleton {u v : Int} : v ∈ singleton u ↔ v = u := by
  rw [singleton, mem_ofRange]
  omega

@[simp] theorem mem_full {v : Int} : v ∈ full ↔ Word.Fits 32 v := mem_ofRange

/-- Sets of words have words for members. -/
theorem Canonical.fits_of_mem {s : RangeSet} (h : s.Canonical) {v : Int} (hv : v ∈ s) :
    Word.Fits 32 v := by
  obtain ⟨r, hr, hlow, hhigh⟩ := mem_iff.mp hv
  exact ⟨Int.le_trans (h.valid r hr).lowest_le hlow,
    Int.le_trans hhigh (h.valid r hr).le_highest⟩

theorem Canonical.low_mem {r : Range} {rest : List Range} (h : Canonical ⟨r :: rest⟩) :
    r.low ∈ (⟨r :: rest⟩ : RangeSet) :=
  mem_cons.mpr (Or.inl ⟨Int.le_refl _, (Canonical.cons_iff.mp h).1.ordered⟩)

/-- After the first range of a canonical list there is a gap. -/
theorem Canonical.lt_of_mem_tail {r : Range} {rest : List Range} (h : Canonical ⟨r :: rest⟩)
    {v : Int} (hv : v ∈ (⟨rest⟩ : RangeSet)) : r.high + 1 < v := by
  obtain ⟨x, hx, hlow, -⟩ := mem_iff.mp hv
  exact Int.lt_of_lt_of_le ((Canonical.cons_iff.mp h).2.1 x hx) hlow

/-! ## Gathering ranges -/

/-- Gluing neither loses a value nor adds one. What is glued overlaps or touches, so that no
value lies between. -/
theorem mem_absorb {current : Range} {l : List Range} {v : Int}
    (hsorted : l.Pairwise fun a b => a.low ≤ b.low) (hle : ∀ r ∈ l, current.low ≤ r.low) :
    v ∈ (⟨absorb current l⟩ : RangeSet) ↔
      (current.low ≤ v ∧ v ≤ current.high) ∨ v ∈ (⟨l⟩ : RangeSet) := by
  induction l generalizing current with
  | nil => rw [absorb, mem_cons]
  | cons r rest ih =>
    rw [List.forall_mem_cons] at hle
    rw [List.pairwise_cons] at hsorted
    rw [absorb, mem_cons]
    split
    · -- the two overlap or touch, so gluing them closes no gap
      rw [@ih ⟨current.low, max current.high r.high⟩ hsorted.2 hle.2, ← or_assoc]
      refine or_congr_left ?_
      dsimp only
      omega
    · rw [mem_cons, ih hsorted.2 hsorted.1]

/-- **The union of any ranges** has the values of each of them. -/
@[simp] theorem mem_ofRanges {l : List Range} {v : Int} :
    v ∈ ofRanges l ↔ ∃ r ∈ l, r.low ≤ v ∧ v ≤ r.high := by
  have hperm : v ∈ (⟨l.mergeSort fun a b => (compare a b).isLE⟩ : RangeSet) ↔
      ∃ r ∈ l, r.low ≤ v ∧ v ≤ r.high := by
    simp only [mem_iff, List.mem_mergeSort]
  have hsorted := pairwise_low_le (pairwise_isLE_mergeSort l)
  rw [← hperm, ofRanges]
  cases hl : l.mergeSort fun a b => (compare a b).isLE with
  | nil => rfl
  | cons r rest =>
    rw [hl, List.pairwise_cons] at hsorted
    rw [coalesce, mem_absorb hsorted.2 hsorted.1, mem_cons]

@[simp] theorem mem_union {a b : RangeSet} {v : Int} : v ∈ a ∪ b ↔ v ∈ a ∨ v ∈ b := by
  show v ∈ ofRanges (a.ranges ++ b.ranges) ↔ _
  rw [mem_ofRanges, mem_iff, mem_iff]
  simp only [List.mem_append, or_and_right, exists_or]

/-! ## Cutting pieces out of ranges -/

/-- The common part of two ranges has their common values. -/
theorem mem_overlap? {a b : Range} {v : Int} :
    (∃ x, a.overlap? b = some x ∧ x.low ≤ v ∧ v ≤ x.high) ↔
      (a.low ≤ v ∧ v ≤ a.high) ∧ b.low ≤ v ∧ v ≤ b.high := by
  constructor
  · rintro ⟨x, hx, hv⟩
    have hx := Range.overlap?_eq_some_iff.mp hx
    omega
  · intro hv
    refine ⟨⟨max a.low b.low, min a.high b.high⟩, ?_, ?_⟩
    · refine Range.overlap?_eq_some_iff.mpr ⟨?_, rfl, rfl⟩
      dsimp only
      omega
    · dsimp only
      omega

/-- The overlaps of a range with others have the values in both. -/
theorem mem_filterMap_overlap? {r : Range} {l : List Range} {v : Int} :
    v ∈ (⟨l.filterMap r.overlap?⟩ : RangeSet) ↔
      (r.low ≤ v ∧ v ≤ r.high) ∧ v ∈ (⟨l⟩ : RangeSet) := by
  simp only [mem_iff, List.mem_filterMap]
  constructor
  · rintro ⟨x, ⟨y, hy, hx⟩, hv⟩
    obtain ⟨hr, hyv⟩ := mem_overlap?.mp ⟨x, hx, hv⟩
    exact ⟨hr, y, hy, hyv⟩
  · rintro ⟨hr, y, hy, hyv⟩
    obtain ⟨x, hx, hv⟩ := mem_overlap?.mpr ⟨hr, hyv⟩
    exact ⟨x, ⟨y, hy, hx⟩, hv⟩

@[simp] theorem mem_inter {a b : RangeSet} {v : Int} : v ∈ a ∩ b ↔ v ∈ a ∧ v ∈ b := by
  show v ∈ (⟨a.ranges.flatMap fun r => b.ranges.filterMap r.overlap?⟩ : RangeSet) ↔ _
  simp only [mem_flatMap, mem_filterMap_overlap?]
  rw [mem_iff (s := a), ← exists_and_right]
  exact exists_congr fun r => and_assoc.symm

@[simp] theorem mem_clip {s : RangeSet} {low high v : Int} :
    v ∈ s.clip low high ↔ v ∈ s ∧ low ≤ v ∧ v ≤ high := by
  simp only [clip, mem_iff, List.mem_filterMap]
  constructor
  · rintro ⟨x, ⟨r, hr, hx⟩, hv⟩
    obtain ⟨hrv, hb⟩ := mem_overlap?.mp ⟨x, hx, hv⟩
    exact ⟨⟨r, hr, hrv⟩, hb⟩
  · rintro ⟨⟨r, hr, hrv⟩, hb⟩
    obtain ⟨x, hx, hv⟩ := (mem_overlap? (b := ⟨low, high⟩)).mpr ⟨hrv, hb⟩
    exact ⟨x, ⟨r, hr, hx⟩, hv⟩

/-- Taking a value out of a range leaves all others. -/
theorem mem_remove {u v : Int} {r : Range} :
    v ∈ (⟨remove u r⟩ : RangeSet) ↔ (r.low ≤ v ∧ v ≤ r.high) ∧ v ≠ u := by
  unfold remove
  split
  case isTrue hu =>
    rw [Range.contains_iff] at hu
    simp only [mem_iff, List.mem_append, List.mem_ite_nil_right, List.mem_singleton]
    constructor
    · rintro ⟨x, ⟨-, rfl⟩ | ⟨-, rfl⟩, hv⟩
      all_goals dsimp only at hv; omega
    · rintro ⟨hv, hne⟩
      rcases Int.lt_or_gt_of_ne hne with hlt | hgt
      · refine ⟨⟨r.low, u - 1⟩, Or.inl ⟨by omega, rfl⟩, ?_⟩
        dsimp only
        omega
      · refine ⟨⟨u + 1, r.high⟩, Or.inr ⟨by omega, rfl⟩, ?_⟩
        dsimp only
        omega
  case isFalse hu =>
    rw [Range.contains_iff] at hu
    rw [mem_cons, or_iff_left not_mem_nil]
    omega

/-- **Narrowing by a comparison** keeps the members that satisfy it. The comparison is read in
the order of the integers, for the unsigned predicates as for the signed ones. -/
theorem Canonical.mem_narrow {s : RangeSet} (h : s.Canonical) (p : Predicate) {rhs v : Int} :
    v ∈ s.narrow p rhs ↔ v ∈ s ∧ p.onInts v rhs = true := by
  have hfits : v ∈ s → Word.lowest 32 ≤ v ∧ v ≤ Word.highest 32 := fun hv => h.fits_of_mem hv
  cases p with
  | eq =>
    have hrhs : s.contains rhs = true ↔ rhs ∈ s := Iff.rfl
    rw [RangeSet.narrow, Predicate.onInts, beq_iff_eq]
    split
    case isTrue hs =>
      rw [mem_singleton]
      exact ⟨fun hv => ⟨hv ▸ hrhs.mp hs, hv⟩, fun hv => hv.2⟩
    case isFalse hs =>
      refine iff_of_false not_mem_nil ?_
      rintro ⟨hv, rfl⟩
      exact hs (hrhs.mpr hv)
  | ne =>
    show v ∈ (⟨s.ranges.flatMap (remove rhs)⟩ : RangeSet) ↔ _
    rw [Predicate.onInts, bne_iff_ne]
    simp only [mem_flatMap, mem_remove]
    rw [mem_iff, ← exists_and_right]
    exact exists_congr fun r => and_assoc.symm
  -- the comparison bounds one end, and at the other end every member is within the word
  | ugt | sgt | uge | sge | ult | slt | ule | sle =>
    rw [RangeSet.narrow, mem_clip, Predicate.onInts, decide_eq_true_iff]
    refine and_congr_right fun hv => ?_
    have hword := hfits hv
    omega

/-- What satisfies a comparison with a word. -/
@[simp] theorem mem_narrow_full {pred : Predicate} {rhs v : Int} :
    v ∈ full.narrow pred rhs ↔ Word.Fits 32 v ∧ pred.onInts v rhs = true := by
  rw [canonical_full.mem_narrow, mem_full]

/-! ## Complements -/

/-- The gaps from `start` on have the words from there on that no range contains. -/
theorem mem_gaps {start : Int} {l : List Range} {v : Int} (h : Canonical ⟨l⟩)
    (hle : ∀ r ∈ l, start ≤ r.low) :
    v ∈ (⟨gaps start l⟩ : RangeSet) ↔
      (start ≤ v ∧ v ≤ Word.highest 32) ∧ v ∉ (⟨l⟩ : RangeSet) := by
  induction l generalizing start with
  | nil =>
    rw [gaps, and_iff_left not_mem_nil]
    split
    · rw [mem_cons, or_iff_left not_mem_nil]
    · refine iff_of_false not_mem_nil ?_
      omega
  | cons r rest ih =>
    obtain ⟨hr, hb, hrest⟩ := Canonical.cons_iff.mp h
    rw [List.forall_mem_cons] at hle
    have ho := hr.ordered
    have hh := hr.le_highest
    have hfirst : v ∈ (⟨if start < r.low then [⟨start, r.low - 1⟩] else []⟩ : RangeSet) ↔
        start ≤ v ∧ v < r.low := by
      split
      · rw [mem_cons, or_iff_left not_mem_nil]
        dsimp only
        omega
      · refine iff_of_false not_mem_nil ?_
        omega
    rw [gaps, mem_append, hfirst, ih hrest (fun y hy => Int.le_of_lt (hb y hy)), mem_cons]
    -- a value of a later range lies above the first one, so it is in no gap before that
    by_cases hv : v ∈ (⟨rest⟩ : RangeSet)
    · have := h.lt_of_mem_tail hv
      simp only [hv, not_true, and_false, or_false, or_true, iff_false]
      omega
    · simp only [hv, not_false_iff, and_true, or_false]
      omega

theorem Canonical.mem_compl {s : RangeSet} (h : s.Canonical) {v : Int} (hv : Word.Fits 32 v) :
    v ∈ s.compl ↔ v ∉ s := by
  rw [RangeSet.compl, mem_gaps h fun r hr => (h.valid r hr).lowest_le]
  exact and_iff_right hv

/-! ## Sets with members -/

/-- A canonical set that is not empty has a member: each of its ranges has one. -/
theorem Canonical.isEmpty_eq_false_iff {s : RangeSet} (h : s.Canonical) :
    s.isEmpty = false ↔ ∃ v, v ∈ s := by
  obtain ⟨l⟩ := s
  cases l with
  | nil => exact iff_of_false (Ne.symm Bool.false_ne_true) fun ⟨_, hv⟩ => not_mem_nil hv
  | cons r rest => exact iff_of_true rfl ⟨r.low, h.low_mem⟩

/-- The common values of some sets are those that each of them has. -/
@[simp] theorem mem_foldl_inter {sets : List RangeSet} {s : RangeSet} {v : Int} :
    v ∈ sets.foldl (· ∩ ·) s ↔ v ∈ s ∧ ∀ s' ∈ sets, v ∈ s' := by
  induction sets generalizing s with
  | nil => simp
  | cons s' rest ih => rw [List.foldl_cons, ih, mem_inter, List.forall_mem_cons, and_assoc]

theorem Canonical.foldl_inter {sets : List RangeSet} {s : RangeSet} (h : s.Canonical)
    (hsets : ∀ s' ∈ sets, s'.Canonical) : (sets.foldl (· ∩ ·) s).Canonical :=
  List.foldlRecOn (motive := Canonical) sets _ h fun _ hs s' hs' => hs.inter (hsets s' hs')

/-! ## Bounds -/

/-- A set with a value has a least and a greatest bound. -/
theorem exists_bounds {s : RangeSet} {v : Int} (hv : v ∈ s) :
    ∃ low high, s.lowest? = some low ∧ s.highest? = some high := by
  obtain ⟨l⟩ := s
  cases l with
  | nil => exact absurd hv not_mem_nil
  | cons r rest =>
    refine ⟨r.low, (rest.getLast?.getD r).high, rfl, ?_⟩
    rw [highest?, List.getLast?_cons]
    rfl

/-- The lowest value of a set is a member and bounds the others. -/
theorem Canonical.lowest?_spec {s : RangeSet} (h : s.Canonical) {low : Int}
    (hlow : s.lowest? = some low) : low ∈ s ∧ ∀ v ∈ s, low ≤ v := by
  obtain ⟨l⟩ := s
  obtain ⟨r, hr, rfl⟩ := Option.map_eq_some_iff.mp hlow
  obtain ⟨rest, rfl⟩ := List.head?_eq_some_iff.mp hr
  refine ⟨h.low_mem, fun v hv => ?_⟩
  rcases mem_cons.mp hv with ⟨hle, -⟩ | hv
  · exact hle
  · have hgap := h.lt_of_mem_tail hv
    have hordered := (Canonical.cons_iff.mp h).1.ordered
    omega

/-- The highest value of a set is a member and bounds the others. -/
theorem Canonical.highest?_spec {s : RangeSet} (h : s.Canonical) {high : Int}
    (hhigh : s.highest? = some high) : high ∈ s ∧ ∀ v ∈ s, v ≤ high := by
  obtain ⟨l⟩ := s
  obtain ⟨r, hr, rfl⟩ := Option.map_eq_some_iff.mp hhigh
  obtain ⟨before, rfl⟩ := List.getLast?_eq_some_iff.mp hr
  have hordered : r.low ≤ r.high := (h.valid r (by simp)).ordered
  refine ⟨mem_iff.mpr ⟨r, by simp, hordered, Int.le_refl _⟩, fun v hv => ?_⟩
  obtain ⟨x, hx, -, hle⟩ := mem_iff.mp hv
  rcases List.mem_append.mp hx with hx | hx
  · have hbefore : x.high + 1 < r.low :=
      (List.pairwise_append.mp h.separated).2.2 x hx r List.mem_cons_self
    omega
  · rwa [List.mem_singleton.mp hx] at hle

/-! ## Sets with the same members -/

/-- The first ranges of canonical lists with the same members lie within each other: a member next
to the end of a range would close the gap after it. -/
theorem Canonical.within_first {r r' : Range} {rest rest' : List Range}
    (h : Canonical ⟨r :: rest⟩) (h' : Canonical ⟨r' :: rest'⟩)
    (hmem : ∀ v, v ∈ (⟨r :: rest⟩ : RangeSet) ↔ v ∈ (⟨r' :: rest'⟩ : RangeSet)) : r'.Within r := by
  have ho := (Canonical.cons_iff.mp h).1.ordered
  have ho' := (Canonical.cons_iff.mp h').1.ordered
  have hlow : r'.low ≤ r.low := by
    rcases mem_cons.mp ((hmem r.low).mp h.low_mem) with hv | hv
    · exact hv.1
    · have := h'.lt_of_mem_tail hv
      omega
  constructor
  · rcases mem_cons.mp ((hmem r'.low).mpr h'.low_mem) with hv | hv
    · exact hv.1
    · have := h.lt_of_mem_tail hv
      omega
  · by_contra hhigh
    have hnext : r.high + 1 ∈ (⟨r' :: rest'⟩ : RangeSet) := mem_cons.mpr (Or.inl (by omega))
    rcases mem_cons.mp ((hmem _).mpr hnext) with hv | hv
    · omega
    · have := h.lt_of_mem_tail hv
      omega

/-- **The canonical form is unique.** -/
theorem Canonical.ext {a b : RangeSet} (ha : a.Canonical) (hb : b.Canonical)
    (h : ∀ v, v ∈ a ↔ v ∈ b) : a = b := by
  obtain ⟨l⟩ := a
  obtain ⟨m⟩ := b
  refine congrArg RangeSet.mk ?_
  induction l generalizing m with
  | nil =>
    cases m with
    | nil => rfl
    | cons r m => exact absurd ((h r.low).mpr hb.low_mem) not_mem_nil
  | cons r l ih =>
    cases m with
    | nil => exact absurd ((h r.low).mp ha.low_mem) not_mem_nil
    | cons r' m =>
      -- each first range lies within the other, so they are the same, and taking it away leaves two
      -- tails with the same members
      have hin := ha.within_first hb h
      have hin' := hb.within_first ha fun v => (h v).symm
      obtain rfl : r = r' :=
        congrArg₂ Range.mk (Int.le_antisymm hin.1 hin'.1) (Int.le_antisymm hin'.2 hin.2)
      refine congrArg (r :: ·) (ih (Canonical.cons_iff.mp ha).2.2 m (Canonical.cons_iff.mp hb).2.2
        fun v => ⟨fun hv => ?_, fun hv => ?_⟩)
      · have hlt := ha.lt_of_mem_tail hv
        refine (mem_cons.mp ((h v).mp (mem_cons.mpr (Or.inr hv)))).resolve_left ?_
        omega
      · have hlt := hb.lt_of_mem_tail hv
        refine (mem_cons.mp ((h v).mpr (mem_cons.mpr (Or.inr hv)))).resolve_left ?_
        omega

/-- **Being a subset is a question of members.** -/
theorem Canonical.isSubset_iff {a b : RangeSet} (ha : a.Canonical) (hb : b.Canonical) :
    a.isSubset b = true ↔ ∀ v ∈ a, v ∈ b := by
  rw [isSubset, beq_iff_eq]
  constructor
  · intro heq v hv
    rw [← heq] at hv
    exact (mem_inter.mp hv).2
  · exact fun hsub => (ha.inter hb).ext ha fun v =>
      ⟨fun hv => (mem_inter.mp hv).1, fun hv => mem_inter.mpr ⟨hv, hsub v hv⟩⟩

/-! ## Inclusion -/

instance : HasSubset RangeSet := ⟨fun a b => ∀ v ∈ a, v ∈ b⟩

/-- One set is a proper subset of another that has more values. -/
instance : HasSSubset RangeSet := ⟨fun a b => a ⊆ b ∧ ¬ b ⊆ a⟩

theorem ssubset_trans {a b c : RangeSet} (hab : a ⊂ b) (hbc : b ⊂ c) : a ⊂ c :=
  ⟨fun v hv => hbc.1 v (hab.1 v hv), fun h => hbc.2 fun v hv => hab.1 v (h v hv)⟩

theorem ne_of_ssubset {a b : RangeSet} (h : a ⊂ b) : a ≠ b := by
  rintro rfl
  exact h.2 h.1

/-- **A proper subset is a subset that is another set.** -/
theorem Canonical.ssubset_iff {a b : RangeSet} (ha : a.Canonical) (hb : b.Canonical) :
    a ⊂ b ↔ a.isSubset b = true ∧ a ≠ b := by
  rw [ha.isSubset_iff hb]
  exact ⟨fun h => ⟨h.1, ne_of_ssubset h⟩, fun h =>
    ⟨h.1, fun hba => h.2 (ha.ext hb fun v => ⟨h.1 v, hba v⟩)⟩⟩

/-! ## The algebra of sets -/

/-- **The operations are those on sets of words.** Union and intersection have the values of
either and of both; the complement of a canonical set that has one is defined and has every
other word; narrowing a canonical set keeps the members that satisfy the comparison in signed
order; and gathered ranges have the values of each range. -/
theorem mem_operations_iff {a : RangeSet} (ha : a.Canonical) (b : RangeSet) {v : Int}
    (hv : Word.Fits 32 v) :
    (v ∈ a ∪ b ↔ v ∈ a ∨ v ∈ b) ∧
    (v ∈ a ∩ b ↔ v ∈ a ∧ v ∈ b) ∧
    (a.isEmpty = false → a.isFull = false →
      ∃ c, a.complement = .ok c ∧ (v ∈ c ↔ v ∉ a)) ∧
    (∀ (p : Predicate) (rhs : Int), v ∈ a.narrow p rhs ↔ v ∈ a ∧ p.onInts v rhs = true) ∧
    (∀ l : List Range, v ∈ ofRanges l ↔ ∃ r ∈ l, r.contains v = true) := by
  refine ⟨mem_union, mem_inter, fun he hf => ?_, fun p rhs => ha.mem_narrow p, fun l => ?_⟩
  · exact ⟨a.compl, complement_eq_ok_iff.mpr ⟨he, hf, rfl⟩, ha.mem_compl hv⟩
  · rw [mem_ofRanges]
    exact exists_congr fun r => and_congr_right fun _ => Range.contains_iff.symm

/-- A set that reaches both ends of the word: its complement is the gap in the middle. -/
theorem mem_complement_at_edges :
    let a : RangeSet := ⟨[⟨-2147483648, -7⟩, ⟨0, 2147483647⟩]⟩
    a.Canonical ∧ Word.Fits 32 (-6) ∧ a.isEmpty = false ∧ a.isFull = false ∧
      ∃ c, a.complement = .ok c ∧ (-6 ∈ c ↔ -6 ∉ a) :=
  ⟨by decide, by decide, by decide, by decide,
    (mem_operations_iff (by decide) empty (by decide)).2.2.1 (by decide) (by decide)⟩

end RangeSet

end ErrorReturns
