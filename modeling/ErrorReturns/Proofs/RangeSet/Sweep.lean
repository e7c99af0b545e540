import ErrorReturns.Proofs.RangeSet.Canonical

/-!
# Operations in one pass over words

The operations on sets are defined over unbounded integers, and the intersection compares every
range of the one set with every range of the other. Here the same operations are computed the
way a machine does it: in one pass over both lists, which looks only at the two ranges it has
come to, with additions and subtractions that may overflow and with ranges whose bounds are
checked when they are made. A pass that overflows, or makes an inverted range, has no result.

On canonical sets every pass has a result, and it is the set that the operation defines
(`RangeSet.Sweep.union_eq`, `inter_eq`, `narrow_eq`, `compl_eq`). So no bound ever leaves the
word, also at its two ends, and no range is ever inverted.
-/

namespace ErrorReturns

namespace Word

/-- The result of an addition or a subtraction as a signed word; nothing if it overflows. -/
def checked? (bits : Nat) (v : Int) : Option Int := if Fits bits v then some v else none

theorem checked?_of_fits {bits : Nat} {v : Int} (h : Fits bits v) : checked? bits v = some v :=
  if_pos h

/-- Adding one to a word of 32 bits never overflows 64 bits. -/
theorem fits_64_add_one {v : Int} (h : Fits 32 v) : Fits 64 (v + 1) := by
  have hl : lowest 64 = -9223372036854775808 := by decide
  have hh : highest 64 = 9223372036854775807 := by decide
  rw [fits_32_iff] at h
  rw [Fits, hl, hh]
  omega

end Word

namespace Range

/-- The range between two bounds, which have to be in order. -/
def make? (low high : Int) : Option Range := (ofBounds low high).toOption

theorem make?_of_le {low high : Int} (h : low ≤ high) : make? low high = some ⟨low, high⟩ := by
  rw [make?, ofBounds, if_pos h]
  rfl

theorem Valid.fits_low {r : Range} (h : r.Valid) : Word.Fits 32 r.low :=
  ⟨h.lowest_le, Int.le_trans h.ordered h.le_highest⟩

theorem Valid.fits_high {r : Range} (h : r.Valid) : Word.Fits 32 r.high :=
  ⟨Int.le_trans h.lowest_le h.ordered, h.le_highest⟩

end Range

namespace RangeSet

namespace Sweep

/-! ## Merging -/

/-- Add a range to those merged so far, of which the latest comes first. It is glued to the
latest one unless a word lies between them, and the word after the end of that one is computed
with 64 bits. -/
def mergeStep : List Range → Range → Option (List Range)
  | [], r => some [r]
  | last :: done, r => do
    let next ← Word.checked? 64 (last.high + 1)
    if r.low ≤ next then return ⟨last.low, max last.high r.high⟩ :: done
    else return r :: last :: done

/-- Merge a sorted list of ranges. -/
def merge (sorted : List Range) : Option RangeSet := do
  return ⟨(← sorted.foldlM mergeStep []).reverse⟩

/-- Sort any ranges and merge them. -/
def ofRanges (l : List Range) : Option RangeSet :=
  merge (l.mergeSort fun a b => (compare a b).isLE)

/-- Merge the ranges of two sets, taking from the one whose next range comes first. -/
def union (a b : RangeSet) : Option RangeSet :=
  merge (a.ranges.merge b.ranges fun x y => (compare x y).isLE)

/-- Merging on from a range gives what has been merged before, and then what `absorb` makes of
the rest. -/
theorem foldlM_mergeStep {current : Range} {l : List Range} (hc : current.Valid)
    (hv : ∀ r ∈ l, r.Valid) (done : List Range) :
    l.foldlM mergeStep (current :: done) = some ((absorb current l).reverse ++ done) := by
  induction l generalizing current done with
  | nil => rfl
  | cons r rest ih =>
    rw [List.forall_mem_cons] at hv
    have hnext := Word.checked?_of_fits (Word.fits_64_add_one hc.fits_high)
    rw [List.foldlM_cons, absorb]
    by_cases hr : r.low ≤ current.high + 1
    · have hstep : mergeStep (current :: done) r
          = some (⟨current.low, max current.high r.high⟩ :: done) := by
        simp [mergeStep, hnext, hr]
      rw [hstep, if_pos hr]
      exact ih (hc.extend hv.1) hv.2 done
    · have hstep : mergeStep (current :: done) r = some (r :: current :: done) := by
        simp [mergeStep, hnext, hr]
      rw [hstep, if_neg hr, List.reverse_cons, List.append_assoc]
      exact ih hv.1 hv.2 (current :: done)

/-- Merging valid ranges succeeds, and coalesces them. -/
theorem merge_eq {l : List Range} (hv : ∀ r ∈ l, r.Valid) : merge l = some ⟨coalesce l⟩ := by
  cases l with
  | nil => rfl
  | cons r rest =>
    rw [List.forall_mem_cons] at hv
    have hfold := foldlM_mergeStep hv.1 hv.2 []
    have hfirst : (r :: rest).foldlM mergeStep [] = rest.foldlM mergeStep [r] := rfl
    rw [merge, hfirst, hfold]
    simp [coalesce]

theorem ofRanges_eq {l : List Range} (hv : ∀ r ∈ l, r.Valid) :
    ofRanges l = some (RangeSet.ofRanges l) :=
  merge_eq fun r hr => hv r (List.mem_mergeSort.mp hr)

/-- A canonical list is sorted. -/
theorem pairwise_isLE_of_canonical {s : RangeSet} (h : s.Canonical) :
    s.ranges.Pairwise fun a b => (compare a b).isLE = true := by
  refine h.separated.imp_of_mem fun {a b} ha _ hab => ?_
  have ho := (h.valid a ha).ordered
  unfold Range.Before at hab
  rw [range_isLE_iff]
  omega

/-- **Merging two sorted lists sorts their ranges.** There is only one sorted list of given
ranges, since two ranges that each come before the other are equal. -/
theorem merge_eq_mergeSort {a b : RangeSet} (ha : a.Canonical) (hb : b.Canonical) :
    (a.ranges.merge b.ranges fun x y => (compare x y).isLE)
      = (a.ranges ++ b.ranges).mergeSort fun x y => (compare x y).isLE := by
  have hperm : (a.ranges.merge b.ranges fun x y => (compare x y).isLE).Perm
      ((a.ranges ++ b.ranges).mergeSort fun x y => (compare x y).isLE) :=
    (List.merge_perm_append _).trans (List.mergeSort_perm _ _).symm
  refine hperm.eq_of_pairwise (fun x y _ _ hxy hyx => ?_) ?_ (pairwise_isLE_mergeSort _)
  · rw [range_isLE_iff] at hxy hyx
    obtain ⟨xl, xh⟩ := x
    obtain ⟨yl, yh⟩ := y
    rw [Range.mk.injEq]
    dsimp only at hxy hyx
    omega
  · exact List.pairwise_merge range_isLE_trans range_isLE_total _ _
      (pairwise_isLE_of_canonical ha) (pairwise_isLE_of_canonical hb)

/-- **The union in one pass.** -/
theorem union_eq {a b : RangeSet} (ha : a.Canonical) (hb : b.Canonical) :
    union a b = some (a ∪ b) := by
  rw [union, merge_eq_mergeSort ha hb]
  exact ofRanges_eq (List.forall_mem_append.mpr ⟨ha.valid, hb.valid⟩)

/-! ## Intersecting -/

/-- The common part of two ranges, as a list of at most one. -/
def common (a b : Range) : Option (List Range) :=
  let low := max a.low b.low
  let high := min a.high b.high
  if low ≤ high then (Range.make? low high).map ([·]) else some []

/-- The common ranges of two sorted lists: of the two ranges it has come to, the pass keeps the
common part and leaves behind the one that ends first, or the second one on a tie. -/
def interRanges : List Range → List Range → Option (List Range)
  | a :: as, b :: bs => do
    let here ← common a b
    if a.high < b.high then return here ++ (← interRanges as (b :: bs))
    else return here ++ (← interRanges (a :: as) bs)
  | _, _ => some []
termination_by as bs => as.length + bs.length

/-- The intersection in one pass over both sets. -/
def inter (a b : RangeSet) : Option RangeSet := (interRanges a.ranges b.ranges).map RangeSet.mk

theorem common_eq (a b : Range) : common a b = some (a.overlap? b).toList := by
  unfold common Range.overlap?
  dsimp only
  split
  case isTrue h =>
    rw [Range.make?_of_le h]
    rfl
  case isFalse => rfl

theorem filterMap_overlap?_cons (a b : Range) (bs : List Range) :
    (b :: bs).filterMap a.overlap? = (a.overlap? b).toList ++ bs.filterMap a.overlap? := by
  rw [List.filterMap_cons]
  cases a.overlap? b <;> rfl

theorem filterMap_overlap?_eq_nil {r : Range} {l : List Range}
    (h : ∀ x ∈ l, r.high < x.low ∨ x.high < r.low) : l.filterMap r.overlap? = [] := by
  rw [List.filterMap_eq_nil_iff]
  intro x hx
  have := h x hx
  rw [Range.overlap?_eq_none_iff]
  omega

/-- A range that overlaps none of a list of others adds nothing in front of a list. -/
theorem flatMap_overlap?_cons {b : Range} {l bs : List Range}
    (h : ∀ r ∈ l, b.high < r.low) :
    (l.flatMap fun r => (b :: bs).filterMap r.overlap?)
      = l.flatMap fun r => bs.filterMap r.overlap? := by
  refine List.flatMap_congr fun r hr => ?_
  have hnone : r.overlap? b = none := by
    have := h r hr
    rw [Range.overlap?_eq_none_iff]
    omega
  rw [List.filterMap_cons_none hnone]

/-- **The intersection in one pass** misses no common part: the range that is left behind ends
before anything that is still to come begins. -/
theorem interRanges_eq {as bs : List Range} (ha : Canonical ⟨as⟩) (hb : Canonical ⟨bs⟩) :
    interRanges as bs = some (as.flatMap fun r => bs.filterMap r.overlap?) := by
  induction as, bs using interRanges.induct with
  | case1 a as b bs iha ihb =>
    obtain ⟨hva, hbefore, has⟩ := Canonical.cons_iff.mp ha
    obtain ⟨hvb, hbefore', hbs⟩ := Canonical.cons_iff.mp hb
    rw [interRanges, common_eq, Option.bind_eq_bind, Option.bind_some, List.flatMap_cons,
      filterMap_overlap?_cons]
    by_cases hend : a.high < b.high
    · -- `a` ends within or before `b`, so nothing later meets it
      have hnil : bs.filterMap a.overlap? = [] := filterMap_overlap?_eq_nil fun x hx => by
        have := hbefore' x hx
        unfold Range.Before at this
        omega
      rw [if_pos hend, iha has hb, hnil, List.append_nil]
      rfl
    · -- `b` ends within or before `a`, so nothing after `a` meets it
      have hskip : (as.flatMap fun r => (b :: bs).filterMap r.overlap?)
          = as.flatMap fun r => bs.filterMap r.overlap? := flatMap_overlap?_cons fun r hr => by
        have := hbefore r hr
        unfold Range.Before at this
        omega
      rw [if_neg hend, ihb ha hbs, hskip, List.flatMap_cons, List.append_assoc]
      rfl
  | case2 as bs hnil =>
    rw [interRanges]
    · cases as with
      | nil => rfl
      | cons a as =>
        cases bs with
        | nil => simp
        | cons b bs => exact absurd rfl (hnil a as b bs rfl)
    · exact hnil

theorem inter_eq {a b : RangeSet} (ha : a.Canonical) (hb : b.Canonical) :
    inter a b = some (a ∩ b) := by
  rw [inter, interRanges_eq ha hb]
  rfl

/-! ## Narrowing -/

/-- The parts of the ranges that lie between two words. -/
def clip (s : RangeSet) (low high : Int) : Option RangeSet := do
  let met := s.ranges.filter fun r => low ≤ r.high && r.low ≤ high
  return ⟨← met.mapM fun r => Range.make? (max r.low low) (min r.high high)⟩

/-- The part of a range below a word in it. -/
def below (v : Int) (r : Range) : Option (List Range) :=
  if r.low < v then do return [← Range.make? r.low (← Word.checked? 32 (v - 1))] else some []

/-- The part of a range above a word in it. -/
def above (v : Int) (r : Range) : Option (List Range) :=
  if v < r.high then do return [← Range.make? (← Word.checked? 32 (v + 1)) r.high] else some []

/-- The parts of a range on either side of a word. -/
def remove (v : Int) (r : Range) : Option (List Range) :=
  if r.contains v then do return (← below v r) ++ (← above v r) else some [r]

/-- Narrow a set by a comparison with a word. A strict order is turned into a bound that may
not exist, and then nothing is left. -/
def narrow (s : RangeSet) (p : Predicate) (rhs : Int) : Option RangeSet :=
  match p with
  | .eq => if s.contains rhs then (Range.make? rhs rhs).map fun r => ⟨[r]⟩ else some empty
  | .ne => do return ⟨(← s.ranges.mapM (remove rhs)).flatten⟩
  | .slt | .ult =>
    match Word.checked? 32 (rhs - 1) with
    | some high => clip s (Word.lowest 32) high
    | none => some empty
  | .sle | .ule => clip s (Word.lowest 32) rhs
  | .sgt | .ugt =>
    match Word.checked? 32 (rhs + 1) with
    | some low => clip s low (Word.highest 32)
    | none => some empty
  | .sge | .uge => clip s rhs (Word.highest 32)

theorem mapM_eq_some_map {α β : Type} {f : α → Option β} {g : α → β} {l : List α}
    (h : ∀ x ∈ l, f x = some (g x)) : l.mapM f = some (l.map g) := by
  induction l with
  | nil => rfl
  | cons x rest ih =>
    rw [List.forall_mem_cons] at h
    rw [List.mapM_cons, h.1, ih h.2]
    rfl

/-- The ranges that meet the bounds are those that have a part between them. -/
theorem filter_map_eq_filterMap_overlap? {l : List Range} {low high : Int}
    (hv : ∀ r ∈ l, r.low ≤ r.high) (h : low ≤ high) :
    ((l.filter fun r => low ≤ r.high && r.low ≤ high).map fun r =>
      (⟨max r.low low, min r.high high⟩ : Range)) = l.filterMap (Range.overlap? · ⟨low, high⟩) := by
  induction l with
  | nil => rfl
  | cons r rest ih =>
    rw [List.forall_mem_cons] at hv
    have hr := hv.1
    rw [List.filter_cons, List.filterMap_cons, ← ih hv.2]
    split
    case isTrue hmet =>
      rw [Bool.and_eq_true, decide_eq_true_iff, decide_eq_true_iff] at hmet
      have hsome : r.overlap? ⟨low, high⟩ = some ⟨max r.low low, min r.high high⟩ := by
        refine Range.overlap?_eq_some_iff.mpr ⟨?_, rfl, rfl⟩
        dsimp only
        omega
      rw [hsome]
      rfl
    case isFalse hmet =>
      rw [Bool.and_eq_true, decide_eq_true_iff, decide_eq_true_iff] at hmet
      have hnone : r.overlap? ⟨low, high⟩ = none := by
        rw [Range.overlap?_eq_none_iff]
        dsimp only
        omega
      rw [hnone]

/-- Cutting a canonical set succeeds, with the specified result. -/
theorem clip_eq {s : RangeSet} (h : s.Canonical) {low high : Int} (hle : low ≤ high) :
    clip s low high = some (s.clip low high) := by
  have hmade : (s.ranges.filter fun r => low ≤ r.high && r.low ≤ high).mapM
      (fun r => Range.make? (max r.low low) (min r.high high))
      = some ((s.ranges.filter fun r => low ≤ r.high && r.low ≤ high).map fun r =>
        (⟨max r.low low, min r.high high⟩ : Range)) := by
    refine mapM_eq_some_map fun r hr => Range.make?_of_le ?_
    obtain ⟨hmem, hmet⟩ := List.mem_filter.mp hr
    rw [Bool.and_eq_true, decide_eq_true_iff, decide_eq_true_iff] at hmet
    have := (h.valid r hmem).ordered
    omega
  rw [clip, hmade, filter_map_eq_filterMap_overlap? (fun r hr => (h.valid r hr).ordered) hle]
  rfl

/-- Beyond an end of the word there is nothing to keep. -/
theorem clip_eq_empty {s : RangeSet} {low high : Int} (h : high < low) :
    s.clip low high = empty := by
  have hnil : s.ranges.filterMap (Range.overlap? · ⟨low, high⟩) = [] := by
    rw [List.filterMap_eq_nil_iff]
    intro r _
    rw [Range.overlap?_eq_none_iff]
    dsimp only
    omega
  rw [RangeSet.clip, hnil]
  rfl

/-- Below a word inside a range of words, unless it is the first, there is another word. -/
theorem below_eq {v : Int} {r : Range} (h : r.Valid) (hv : v ≤ r.high) :
    below v r = some (if r.low < v then [⟨r.low, v - 1⟩] else []) := by
  unfold below
  split
  case isTrue hlt =>
    have hl := h.lowest_le
    have hh := h.le_highest
    have hfits : Word.Fits 32 (v - 1) := ⟨by omega, by omega⟩
    rw [Word.checked?_of_fits hfits, Option.bind_eq_bind, Option.bind_some,
      Range.make?_of_le (by omega)]
    rfl
  case isFalse => rfl

/-- Above a word inside a range of words, unless it is the last, there is another word. -/
theorem above_eq {v : Int} {r : Range} (h : r.Valid) (hv : r.low ≤ v) :
    above v r = some (if v < r.high then [⟨v + 1, r.high⟩] else []) := by
  unfold above
  split
  case isTrue hlt =>
    have hl := h.lowest_le
    have hh := h.le_highest
    have hfits : Word.Fits 32 (v + 1) := ⟨by omega, by omega⟩
    rw [Word.checked?_of_fits hfits, Option.bind_eq_bind, Option.bind_some,
      Range.make?_of_le (by omega)]
    rfl
  case isFalse => rfl

/-- So does taking a value out of a valid range. -/
theorem remove_eq {v : Int} {r : Range} (h : r.Valid) :
    remove v r = some (RangeSet.remove v r) := by
  unfold remove RangeSet.remove
  split
  case isTrue hv =>
    rw [Range.contains_iff] at hv
    rw [below_eq h hv.2, above_eq h hv.1]
    rfl
  case isFalse => rfl

/-- **Narrowing in one pass.** -/
theorem narrow_eq {s : RangeSet} (h : s.Canonical) (p : Predicate) {rhs : Int}
    (hrhs : Word.Fits 32 rhs) : narrow s p rhs = some (s.narrow p rhs) := by
  have hbelow : (match Word.checked? 32 (rhs - 1) with
      | some high => clip s (Word.lowest 32) high
      | none => some empty) = some (s.clip (Word.lowest 32) (rhs - 1)) := by
    by_cases hfits : Word.Fits 32 (rhs - 1)
    · rw [Word.checked?_of_fits hfits]
      exact clip_eq h hfits.1
    · -- below the lowest word there is no bound, and nothing to keep either
      rw [Word.checked?, if_neg hfits, clip_eq_empty]
      rw [Word.Fits] at hfits hrhs
      omega
  have habove : (match Word.checked? 32 (rhs + 1) with
      | some low => clip s low (Word.highest 32)
      | none => some empty) = some (s.clip (rhs + 1) (Word.highest 32)) := by
    by_cases hfits : Word.Fits 32 (rhs + 1)
    · rw [Word.checked?_of_fits hfits]
      exact clip_eq h hfits.2
    · rw [Word.checked?, if_neg hfits, clip_eq_empty]
      rw [Word.Fits] at hfits hrhs
      omega
  cases p with
  | eq =>
    rw [narrow, RangeSet.narrow, Range.make?_of_le (Int.le_refl rhs)]
    split <;> rfl
  | ne =>
    have hparts := mapM_eq_some_map fun r hr => remove_eq (v := rhs) (h.valid r hr)
    rw [narrow, hparts]
    rfl
  | slt | ult => exact hbelow
  | sgt | ugt => exact habove
  | sle | ule => exact clip_eq h hrhs.1
  | sge | uge => exact clip_eq h hrhs.2

/-! ## Complementing -/

/-- The gaps of a sorted list, from the word where the next one may begin. After a range that
ends with the greatest word there is no such word. -/
def gaps : Option Int → List Range → Option (List Range)
  | none, [] => some []
  | some start, [] => (Range.make? start (Word.highest 32)).map ([·])
  | none, r :: rest => gaps (Word.checked? 32 (r.high + 1)) rest
  | some start, r :: rest =>
    if start < r.low then do
      let gap ← Range.make? start (← Word.checked? 32 (r.low - 1))
      return gap :: (← gaps (Word.checked? 32 (r.high + 1)) rest)
    else gaps (Word.checked? 32 (r.high + 1)) rest

/-- The complement in one pass. -/
def compl (s : RangeSet) : Option RangeSet :=
  (gaps (some (Word.lowest 32)) s.ranges).map RangeSet.mk

/-- From a word on, and also from the integer after the last word, the pass finds the gaps. -/
theorem gaps_eq {start : Int} {l : List Range} (h : Canonical ⟨l⟩)
    (hstart : Word.lowest 32 ≤ start) (hend : start ≤ Word.highest 32 + 1)
    (hle : ∀ r ∈ l, start ≤ r.low) :
    gaps (Word.checked? 32 start) l = some (RangeSet.gaps start l) := by
  induction l generalizing start with
  | nil =>
    rw [RangeSet.gaps]
    by_cases hs : start ≤ Word.highest 32
    · rw [Word.checked?_of_fits ⟨hstart, hs⟩, gaps, Range.make?_of_le hs, if_pos hs]
      rfl
    · rw [Word.checked?, if_neg fun hf => hs hf.2, if_neg hs]
      rfl
  | cons r rest ih =>
    obtain ⟨hr, hb, hrest⟩ := Canonical.cons_iff.mp h
    rw [List.forall_mem_cons] at hle
    have hlow := hr.fits_low
    -- after a range that ends with the highest word the pass has no start any more
    have hnext := @ih (r.high + 1) hrest
      (Int.le_trans hr.fits_high.1 (Int.le_add_one (Int.le_refl _)))
      (Int.add_le_add_right hr.le_highest 1) (fun y hy => Int.le_of_lt (hb y hy))
    rw [Word.checked?_of_fits ⟨hstart, Int.le_trans hle.1 hlow.2⟩, gaps, RangeSet.gaps, hnext]
    split
    case isTrue hlt =>
      have hgap : Word.Fits 32 (r.low - 1) := by
        rw [Word.Fits] at hlow ⊢
        omega
      rw [Word.checked?_of_fits hgap, Option.bind_eq_bind, Option.bind_some,
        Range.make?_of_le (by omega)]
      rfl
    case isFalse => rfl

/-- **The complement in one pass.** -/
theorem compl_eq {s : RangeSet} (h : s.Canonical) : compl s = some s.compl := by
  have hlowest : Word.checked? 32 (Word.lowest 32) = some (Word.lowest 32) := by decide
  rw [compl, ← hlowest, gaps_eq h (Int.le_refl _) (by decide) fun r hr => (h.valid r hr).lowest_le]
  rfl

end Sweep

end RangeSet

end ErrorReturns
