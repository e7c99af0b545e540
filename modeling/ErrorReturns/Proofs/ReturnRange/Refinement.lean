import ErrorReturns.Proofs.Histogram
import ErrorReturns.Proofs.RangeSet.Membership
import ErrorReturns.Proofs.ReturnRange.Walk
import ErrorReturns.Proofs.Table.Keys

/-!
# Refining what was observed

The sets that were observed of a function are narrowed to the range of what it returns, and the
counts of sets that become equal are added. `RangeFinder.Refined` says what this should give: all
sets stay as they are for a full range and become empty for an empty one, and for a span each set
keeps its values between the two bounds, or no set is left if no 32-bit integer lies between them.

The bounds are integers of up to 64 bits, while the sets hold integers of 32. Each bound is brought
within reach of a 32-bit integer on its own side only, and then its low 32 bits are taken. This is
right as long as the span has a 32-bit integer (`RangeFinder.narrowTo?_of_inReach`). A span that
lies beyond them all has one bound that wraps around, and is taken for a span that ends at the least
or at the greatest 32-bit integer (`RangeFinder.exists_narrowTo?_of_not_inReach`). Sets are then
narrowed to values that the function does not return, where none should be left.

Counts are words as well. `Histogram.Gathered` is the invariant of the run through a histogram, and
says that every count is the sum that it should be, up to the size of a word. The two together tell
exactly when a refinement is right (`RangeFinder.refine_exact_iff`). They need to know of the range
only that its bounds are in order, as all bounds are that a walk finds.
-/

namespace ErrorReturns

open Checked

namespace SignedRange

/-! ## Bounds in order -/

/-- Whether the bounds of a span are in order. -/
def InOrder (r : SignedRange) : Prop := ∀ low high, r.extent = .span low high → low ≤ high

@[simp] theorem inOrder_empty (bits : Nat) : (empty bits).InOrder := fun _ _ h => nomatch h

@[simp] theorem inOrder_full (bits : Nat) : (full bits).InOrder := fun _ _ h => nomatch h

/-- A range that is made from bounds has them in order, as it is full otherwise. -/
@[simp] theorem inOrder_ofBounds (low high : Int) (bits : Nat) :
    (ofBounds low high bits).InOrder := by
  intro low' high' h
  simp only [ofBounds] at h
  split at h
  · cases h
  · split at h
    · cases h
    · obtain ⟨rfl, rfl⟩ := Extent.span.inj h
      omega

theorem InOrder.union {a b : SignedRange} (ha : a.InOrder) (hb : b.InOrder) :
    (a.union b).InOrder := by
  unfold SignedRange.union
  split
  · exact hb
  · exact ha
  · exact inOrder_ofBounds _ _ _

theorem inOrder_truncate (r : SignedRange) (bits : Nat) : (r.truncate bits).InOrder := by
  unfold truncate
  split
  · exact inOrder_empty bits
  · split
    · exact inOrder_ofBounds _ _ bits
    · exact inOrder_full bits

theorem inOrder_signExtend (r : SignedRange) (bits : Nat) : (r.signExtend bits).InOrder := by
  unfold signExtend
  split
  · exact inOrder_empty bits
  · split
    · exact inOrder_ofBounds _ _ bits
    · exact inOrder_truncate r bits

theorem inOrder_zeroExtend (r : SignedRange) (bits : Nat) : (r.zeroExtend bits).InOrder := by
  unfold zeroExtend
  split
  · exact inOrder_empty bits
  · split
    · exact inOrder_truncate r bits
    · dsimp only
      (repeat' split) <;> exact inOrder_ofBounds _ _ bits

theorem inOrder_resize (r : SignedRange) (bits : Nat) : (r.resize bits).InOrder := by
  unfold resize
  split
  · exact inOrder_signExtend r bits
  · exact inOrder_truncate r bits

end SignedRange

namespace RangeFinder

/-! ## Ranges that a walk finds -/

variable {a : RangeFinder}

/-- Whether all ranges that are remembered have their bounds in order. -/
def RangesInOrder (ranges : Table FuncId SignedRange) : Prop :=
  ranges.All (fun _ => True) SignedRange.InOrder

/-- Whether a range that was found has its bounds in order, and so have those remembered by then. -/
def FoundInOrder (out : Found) : Prop := out.1.InOrder ∧ RangesInOrder out.2.ranges

/-- Unions of ranges with bounds in order have them in order. -/
theorem ensures_inOrder_unionOf {α : Type} (short : Bool) {find : α → RangeMemo → Checked Found}
    (hfind : ∀ x memo, RangesInOrder memo.ranges → Ensures FoundInOrder (find x memo)) (l : List α)
    {range : SignedRange} (hrange : range.InOrder) {memo : RangeMemo}
    (hm : RangesInOrder memo.ranges) : Ensures FoundInOrder (unionOf short find l range memo) := by
  induction l generalizing range memo with
  | nil => exact meets_pure ⟨hrange, hm⟩
  | cons x rest ih =>
    unfold unionOf
    refine (hfind x memo hm).bind fun out hout => ?_
    dsimp only
    split
    · exact meets_pure ⟨hrange.union hout.1, hout.2⟩
    · exact ih (hrange.union hout.1) hout.2

/-- So has a range that says nothing when it is narrowed to what was observed. -/
theorem inOrder_orObserved (f : FuncId) (bits : Nat) {range : SignedRange} (h : range.InOrder) :
    (a.orObserved f bits range).InOrder := by
  unfold orObserved
  split
  · split
    · split
      · exact SignedRange.inOrder_ofBounds _ _ bits
      · exact h
    · exact h
  · exact h

section Walk

variable {find : FuncId → Value → RangeMemo → Checked Found}
  (hfind : ∀ f v memo, RangesInOrder memo.ranges → Ensures FoundInOrder (find f v memo))
include hfind

/-- The range of a function has its bounds in order, if those of its values have. -/
theorem ensures_inOrder_functionRange (f : FuncId) {memo : RangeMemo}
    (hm : RangesInOrder memo.ranges) : Ensures FoundInOrder (a.functionRange find f memo) := by
  refine (ensures_eq _).bind fun function _ => ?_
  split
  case h_1 bits _ =>
    split
    case h_1 range hrange => exact meets_pure ⟨hm.get? hrange, hm⟩
    case h_2 =>
      have hstart : (if function.isDeclaration then SignedRange.full bits
          else SignedRange.empty bits).InOrder := by
        split
        · exact SignedRange.inOrder_full bits
        · exact SignedRange.inOrder_empty bits
      refine (ensures_eq _).bind fun operands _ => ?_
      refine (ensures_inOrder_unionOf false (hfind f) operands hstart hm).bind fun out hout => ?_
      have hrange := inOrder_orObserved (a := a) f bits hout.1
      exact meets_pure ⟨hrange, hout.2.insert trivial hrange⟩
  case h_2 => exact meets_pure ⟨SignedRange.inOrder_full 32, hm⟩

omit hfind in
theorem ensures_inOrder_binopRange (bits : Nat) (op : BinOp) (lhs rhs : Value) :
    Ensures SignedRange.InOrder (a.binopRange bits op lhs rhs) := by
  unfold binopRange
  split
  · exact meets_pure (SignedRange.inOrder_empty bits)
  · refine (ensures_eq _).bind fun op? _ => ?_
    dsimp only
    (repeat' split) <;> exact meets_pure (by simp)

omit hfind in
/-- So has the range of what is loaded where nothing is stored. -/
theorem ensures_inOrder_unfilledRange (bits : Nat) (ptr : Value) :
    Ensures SignedRange.InOrder (a.unfilledRange bits ptr) := by
  refine (ensures_eq _).bind fun op? _ => ?_
  split
  · refine (ensures_eq _).bind fun base _ => ?_
    dsimp only
    split
    · split
      · refine (ensures_eq _).bind fun stores _ => ?_
        split <;> exact meets_pure (by simp)
      · exact meets_pure (SignedRange.inOrder_empty bits)
    · exact meets_pure (SignedRange.inOrder_full bits)
  · exact meets_pure (SignedRange.inOrder_full bits)

/-- And the range of an operation, as every one is made from bounds or put together from others. -/
theorem ensures_inOrder_operationRange (f : FuncId) (id : InstId) (bits : Nat) {memo : RangeMemo}
    (hm : RangesInOrder memo.ranges) :
    Ensures FoundInOrder (a.operationRange find f id bits memo) := by
  have hnone := SignedRange.inOrder_empty bits
  refine (ensures_eq _).bind fun op _ => ?_
  cases op with
  | call callee args =>
    dsimp only
    split
    · exact ensures_inOrder_unionOf true
        (fun g memo => ensures_inOrder_functionRange hfind g) _ hnone hm
    · exact meets_pure ⟨hnone, hm⟩
  | select cond ifTrue ifFalse =>
    refine (hfind f ifTrue memo hm).bind fun out hout => ?_
    dsimp only
    split
    · exact meets_pure hout
    · exact (hfind f ifFalse _ hout.2).bind fun out' hout' =>
        meets_pure ⟨hout.1.union hout'.1, hout'.2⟩
  | phi incoming => exact ensures_inOrder_unionOf true (hfind f) _ hnone hm
  | cast kind inner =>
    refine (hfind f inner memo hm).bind fun out hout => meets_pure ⟨?_, hout.2⟩
    cases kind with
    | trunc => exact SignedRange.inOrder_truncate _ bits
    | zext => exact SignedRange.inOrder_zeroExtend _ bits
    | sext => exact SignedRange.inOrder_signExtend _ bits
    | _ => exact SignedRange.inOrder_full bits
  | binop op lhs rhs =>
    exact (ensures_inOrder_binopRange bits op lhs rhs).bind fun _ h => meets_pure ⟨h, hm⟩
  | load ptr =>
    refine (ensures_eq _).bind fun stored _ => ?_
    split
    · exact (ensures_inOrder_unfilledRange bits ptr).bind fun _ h => meets_pure ⟨h, hm⟩
    · refine ensures_inOrder_unionOf false (fun v memo hm => ?_) _ hnone hm
      exact (hfind f v memo hm).bind fun out hout =>
        meets_pure ⟨SignedRange.inOrder_resize _ bits, hout.2⟩
  | _ => exact meets_pure ⟨SignedRange.inOrder_full bits, hm⟩

end Walk

/-- **A walk keeps bounds in order.** -/
theorem ensures_inOrder_valueRange (depth : Nat) (f : FuncId) (v : Value) (memo : RangeMemo)
    (hm : RangesInOrder memo.ranges) : Ensures FoundInOrder (a.valueRange depth f v memo) := by
  induction depth generalizing f v memo with
  | zero => trivial
  | succ depth ih =>
    rw [valueRange]
    refine (ensures_eq _).bind fun ty _ => ?_
    cases v with
    | const c =>
      dsimp only
      split
      · exact meets_pure ⟨SignedRange.inOrder_full _, hm⟩
      · exact meets_pure ⟨SignedRange.inOrder_ofBounds _ _ _, hm⟩
    | null => exact meets_pure ⟨SignedRange.inOrder_ofBounds _ _ _, hm⟩
    | inst id =>
      dsimp only
      split
      · exact meets_pure ⟨SignedRange.inOrder_full 1, hm⟩
      · split
        · exact meets_pure ⟨SignedRange.inOrder_empty _, hm⟩
        · exact ensures_inOrder_operationRange ih f id _ hm
    | arg | func | global | undef =>
      dsimp only
      (repeat' split) <;> exact meets_pure ⟨by simp, hm⟩

theorem ensures_inOrder_rangeOf (f : FuncId) {ranges : Table FuncId SignedRange}
    (h : RangesInOrder ranges) :
    Ensures (fun out => out.1.InOrder ∧ RangesInOrder out.2) (a.rangeOf f ranges) :=
  (ensures_inOrder_functionRange (ensures_inOrder_valueRange a.enoughDepth) f h).map
    fun _ hout => hout

end RangeFinder

/-! ## Adding up counts -/

namespace Histogram

/-- **Entries are gathered** in a histogram if each set that `g` gives has the sum of the counts of
the sets that it comes from, and all these sums are words. -/
structure Gathered (g : RangeSet → RangeSet) (es : List (RangeSet × Nat)) (out : Histogram) :
    Prop where
  words : ∀ t, countInto g t es < Word.count 32
  get?_eq : ∀ t, out.get? t = if t ∈ es.map (g ·.1) then some (countInto g t es) else none

namespace Gathered

variable {g : RangeSet → RangeSet} {es : List (RangeSet × Nat)} {out : Histogram}

theorem nil : Gathered g [] {} := ⟨fun _ => Word.count_pos 32, fun _ => rfl⟩

theorem getD_get? (h : Gathered g es out) (t : RangeSet) :
    (out.get? t).getD 0 = countInto g t es := by
  rw [h.get?_eq]
  split
  · rfl
  · rename_i hnew
    rw [countInto_eq_zero hnew]
    rfl

/-- **One more entry** is added to what its set has already. -/
theorem concat (h : Gathered g es out) {e : RangeSet × Nat}
    (hword : countInto g (g e.1) (es ++ [e]) < Word.count 32) :
    Gathered g (es ++ [e]) (out.insert (g e.1) (countInto g (g e.1) (es ++ [e]))) where
  words t := by
    by_cases ht : t = g e.1
    · rw [ht]
      exact hword
    · rw [countInto_append, countInto_singleton, if_neg (Ne.symm ht)]
      exact h.words t
  get?_eq t := by
    have hmem : t ∈ (es ++ [e]).map (g ·.1) ↔ t ∈ es.map (g ·.1) ∨ t = g e.1 := by
      rw [List.map_append, List.mem_append, List.map_singleton, List.mem_singleton]
    rw [Table.insert, Table.get?_update]
    by_cases ht : t = g e.1
    · rw [if_pos ht, if_pos (hmem.mpr (Or.inr ht)), ht]
    · rw [if_neg ht, h.get?_eq, countInto_append, countInto_singleton, if_neg (Ne.symm ht)]
      simp only [hmem, ht, or_false, Nat.add_zero]

theorem get?_eq_some_iff (h : Gathered g es out) {t : RangeSet} {n : Nat} :
    out.get? t = some n ↔ t ∈ es.map (g ·.1) ∧ n = countInto g t es := by
  rw [h.get?_eq]
  split <;> simp [*, eq_comm]

/-- Nothing is gathered from nothing only. -/
theorem eq_empty_iff (h : Gathered g es out) : out = {} ↔ es = [] := by
  constructor
  · rintro rfl
    by_contra hne
    obtain ⟨e, he⟩ := List.exists_mem_of_ne_nil es hne
    have hget := h.get?_eq (g e.1)
    rw [if_pos (List.mem_map_of_mem he)] at hget
    cases hget
  · rintro rfl
    exact Table.ext h.get?_eq

end Gathered

end Histogram

/-! ## Narrowing -/

theorem Word.wrapSigned_of_fits {v : Int} (h : Word.Fits 32 v) : Word.wrapSigned 32 v = v :=
  Word.wrapSigned_eq_self (by decide) h

namespace SignedRange

/-- Whether a span has a 32-bit integer between its bounds. -/
def InReach (r : SignedRange) : Prop :=
  ∀ low high, r.extent = .span low high → ∃ v, Word.Fits 32 v ∧ low ≤ v ∧ v ≤ high

theorem exists_span_of_not_inReach {r : SignedRange} (h : ¬ r.InReach) :
    ∃ low high, r.extent = .span low high ∧ ¬ ∃ v, Word.Fits 32 v ∧ low ≤ v ∧ v ≤ high := by
  by_contra hnone
  exact h fun low high hspan => by_contra fun hv => hnone ⟨low, high, hspan, hv⟩

/-- The values of a set that lie in a range. -/
def restrict (r : SignedRange) (s : RangeSet) : RangeSet :=
  match r.extent with
  | .empty => .empty
  | .full => s
  | .span low high => s.clip low high

end SignedRange

namespace RangeFinder

/-- Sets are narrowed to the bounds that are left of a span, if these are in order. -/
theorem narrowTo?_span {bits : Nat} {low high low' high' : Int}
    (hlow : Word.wrapSigned 32 (max low (Word.lowest 32)) = low')
    (hhigh : Word.wrapSigned 32 (min high (Word.highest 32)) = high') (hle : low' ≤ high')
    {s : RangeSet} (hs : s.Canonical) :
    narrowTo? ⟨bits, .span low high⟩ s = .ok (some (s.clip low' high')) := by
  have hfits : Word.Fits 32 low' := hlow ▸ Word.fits_wrapSigned _
  have hfits' : Word.Fits 32 high' := hhigh ▸ Word.fits_wrapSigned _
  have hbetween : RangeSet.between low' high' = .ok (.ofRange low' high') := if_pos hle
  have hclip : RangeSet.ofRange low' high' ∩ s = s.clip low' high' := by
    refine ((RangeSet.canonical_ofRange hfits hfits' hle).inter hs).ext (hs.clip _ _) fun v => ?_
    rw [RangeSet.mem_clip, ← RangeSet.mem_ofRange, and_comm]
    exact RangeSet.mem_inter
  simp only [narrowTo?, hlow, hhigh, if_neg (Int.not_lt.mpr hle), hbetween, ok_bind, hclip,
    pure_eq_ok]

/-- **In reach** a set is narrowed to what it has in common with the range. -/
theorem narrowTo?_of_inReach {r : SignedRange} (hr : r.InReach) {s : RangeSet}
    (hs : s.Canonical) : narrowTo? r s = .ok (some (r.restrict s)) := by
  obtain ⟨bits, extent⟩ := r
  cases extent with
  | empty => rfl
  | full => rfl
  | span low high =>
    obtain ⟨v, ⟨hv, hv'⟩, hlow, hhigh⟩ := hr low high rfl
    have hlow' : Word.Fits 32 (max low (Word.lowest 32)) := by
      constructor <;> omega
    have hhigh' : Word.Fits 32 (min high (Word.highest 32)) := by
      constructor <;> omega
    have hclip : s.clip (max low (Word.lowest 32)) (min high (Word.highest 32)) =
        s.clip low high := by
      refine (hs.clip _ _).ext (hs.clip _ _) fun u => ?_
      rw [RangeSet.mem_clip, RangeSet.mem_clip]
      refine and_congr_right fun hu => ?_
      obtain ⟨hle, hle'⟩ := hs.fits_of_mem hu
      omega
    rw [narrowTo?_span (Word.wrapSigned_of_fits hlow') (Word.wrapSigned_of_fits hhigh') (by omega)
      hs, hclip]
    rfl

/-- **Out of reach** a set is narrowed to some other bounds, and is never dropped. -/
theorem exists_narrowTo?_of_not_inReach {r : SignedRange} (horder : r.InOrder) (hr : ¬ r.InReach) :
    ∃ low high, ∀ s : RangeSet, s.Canonical → narrowTo? r s = .ok (some (s.clip low high)) := by
  obtain ⟨bits, extent⟩ := r
  obtain ⟨low, high, rfl, hnone⟩ := SignedRange.exists_span_of_not_inReach hr
  have hle : low ≤ high := horder low high rfl
  have hleast : Word.Fits 32 (Word.lowest 32) := by decide
  have hgreatest : Word.Fits 32 (Word.highest 32) := by decide
  by_cases hlow : Word.highest 32 < low
  · -- the lower bound wraps around, and whatever becomes of it the upper one is the greatest word
    have hhigh : min high (Word.highest 32) = Word.highest 32 := by omega
    refine ⟨_, Word.highest 32, fun s hs => narrowTo?_span rfl ?_ (Word.fits_wrapSigned _).2 hs⟩
    rw [hhigh, Word.wrapSigned_of_fits hgreatest]
  · -- otherwise the upper bound wraps around, or else there is a word between the two
    have hhigh : high < Word.lowest 32 := by
      by_contra hhigh
      have hwords := hleast.2
      exact hnone ⟨max low (Word.lowest 32), ⟨by omega, by omega⟩, by omega, by omega⟩
    have hmax : max low (Word.lowest 32) = Word.lowest 32 := by omega
    refine ⟨Word.lowest 32, _, fun s hs => narrowTo?_span ?_ rfl (Word.fits_wrapSigned _).1 hs⟩
    rw [hmax, Word.wrapSigned_of_fits hleast]

/-- **A run through a histogram gathers its entries**, if none is dropped, or else a sum is no
word. -/
theorem gathered_or_overflow_narrowAll {r : SignedRange} {h : Histogram} {g : RangeSet → RangeSet}
    (hg : ∀ e ∈ h.entries, narrowTo? r e.1 = .ok (some (g e.1))) :
    (∃ h', narrowAll r h = .ok h' ∧ Histogram.Gathered g h.entries h') ∨
      narrowAll r h = .error .countOverflow ∧
        ∃ t, Word.count 32 ≤ Histogram.countInto g t h.entries := by
  -- the counts of the entries read so far only grow, so a sum that does not fit for a part of the
  -- list does not fit for the whole of it either
  have hrun : Meets (fun e => e = .countOverflow ∧
      ∃ t, Word.count 32 ≤ Histogram.countInto g t h.entries)
      (Histogram.Gathered g h.entries) (narrowAll r h) := by
    refine meets_foldlM_prefix (fun past e out hpast hout => ?_) .nil
    have hmem : e ∈ h.entries := hpast.subset (List.mem_append_right past List.mem_cons_self)
    have hsum : (out.get? (g e.1)).getD 0 + e.2 =
        Histogram.countInto g (g e.1) (past ++ [e]) := by
      rw [hout.getD_get?, Histogram.countInto_append, Histogram.countInto_singleton, if_pos rfl]
    dsimp only
    rw [hg e hmem, ok_bind]
    dsimp only
    rcases Nat.lt_or_ge ((out.get? (g e.1)).getD 0 + e.2) (Word.count 32) with hword | hword
    · rw [Count.add_eq_ok hword, hsum]
      exact meets_pure (hout.concat (hsum ▸ hword))
    · rw [Count.add_eq_error hword]
      rw [hsum] at hword
      exact ⟨rfl, g e.1, Nat.le_trans hword (Histogram.countInto_le_of_prefix hpast)⟩
  refine hrun.ok_or_error.imp_right ?_
  rintro ⟨e, he, rfl, hword⟩
  exact ⟨he, hword⟩

/-! ## Refining -/

/-- **What refining by a range should give.** A full range changes nothing, and an empty one leaves
the empty set with all counts. With a span between two bounds, each set keeps its values between
them, with the sum of the counts of all sets that keep the same ones; no set is left if no 32-bit
integer lies between the bounds. No value outside the bounds is left. -/
def Refined (r : SignedRange) (h h' : Histogram) : Prop :=
  match r.extent with
  | .full => h' = h
  | .empty => ∀ t n, h'.get? t = some n ↔
      t = .empty ∧ h.entries ≠ [] ∧ n = Histogram.total h.entries
  | .span low high =>
    (∀ t n, h'.get? t = some n ↔ (∃ v, Word.Fits 32 v ∧ low ≤ v ∧ v ≤ high) ∧
      (∃ s ∈ h.keys, t = s.clip low high) ∧
      n = Histogram.countInto (·.clip low high) t h.entries) ∧
    ∀ t ∈ h'.keys, ∀ v ∈ t, low ≤ v ∧ v ≤ high

/-- If the range reaches into 32 bits, gathering the narrowed sets refines a histogram. -/
theorem refined_of_inReach {r : SignedRange} (hr : r.InReach) {h h' : Histogram}
    (hh' : Histogram.Gathered r.restrict h.entries h') : Refined r h h' := by
  obtain ⟨bits, extent⟩ := r
  cases extent with
  | full =>
    refine Table.ext fun t => Option.ext fun n => ?_
    exact hh'.get?_eq_some_iff.trans Histogram.get?_eq_some_iff.symm
  | empty =>
    intro t n
    refine hh'.get?_eq_some_iff.trans ?_
    show t ∈ h.entries.map (fun _ => RangeSet.empty) ∧
      n = Histogram.countInto (fun _ => .empty) t h.entries ↔ _
    rw [List.map_const', List.mem_replicate, ne_eq, ne_eq, List.length_eq_zero_iff,
      and_comm (b := t = .empty), and_assoc]
    refine and_congr_right ?_
    rintro rfl
    rw [Histogram.countInto_const]
  | span low high =>
    have hword : ∃ v, Word.Fits 32 v ∧ low ≤ v ∧ v ≤ high := hr low high rfl
    have hget : ∀ t n, h'.get? t = some n ↔ (∃ v, Word.Fits 32 v ∧ low ≤ v ∧ v ≤ high) ∧
        (∃ s ∈ h.keys, t = s.clip low high) ∧
        n = Histogram.countInto (·.clip low high) t h.entries := by
      intro t n
      rw [and_iff_right hword]
      refine hh'.get?_eq_some_iff.trans (and_congr_left' ?_)
      show t ∈ h.entries.map (fun e => e.1.clip low high) ↔ _
      simp [Table.keys, eq_comm]
    refine ⟨hget, fun t ht v hv => ?_⟩
    obtain ⟨n, hn⟩ := Option.isSome_iff_exists.mp (Table.mem_keys_iff.mp ht)
    obtain ⟨-, ⟨s, -, rfl⟩, -⟩ := (hget t n).mp hn
    exact (RangeSet.mem_clip.mp hv).2

/-- Out of reach, refining would have to leave nothing. -/
theorem refined_iff_of_not_inReach {r : SignedRange} (hr : ¬ r.InReach) {h h' : Histogram} :
    Refined r h h' ↔ h' = {} := by
  obtain ⟨bits, extent⟩ := r
  obtain ⟨low, high, rfl, hnone⟩ := SignedRange.exists_span_of_not_inReach hr
  constructor
  · rintro ⟨hget, -⟩
    refine Table.ext fun t => ?_
    exact Option.eq_none_iff_forall_ne_some.mpr fun n hn => hnone ((hget t n).mp hn).1
  · rintro rfl
    exact ⟨fun t n => iff_of_false nofun fun h => hnone h.1, nofun⟩

/-- A defined function that returns integers is refined by its range. -/
theorem refine_eq_narrowAll {a : RangeFinder} {f : FuncId} {function : Function} {bits : Nat}
    (hf : a.program.function f = .ok function) (hdefined : function.isDeclaration = false)
    (hret : function.ret = .int bits) {ranges ranges' : Table FuncId SignedRange} {r : SignedRange}
    (hr : a.rangeOf f ranges = .ok (r, ranges')) (h : Histogram) :
    a.refine f h ranges = (return (← narrowAll r h, ranges')) := by
  rw [refine, hf, ok_bind, hdefined, hret]
  dsimp only
  rw [hr, ok_bind]

/-- **When a refinement is right.** For a defined function that returns integers, a histogram in
form and the range `r` of the function, there is a refined histogram that is what it should be
exactly if the range is in reach or nothing was observed, and all sums of counts are words. There is
none at all only if the counts are no word together. The ranges that are remembered afterwards have
their bounds in order again. -/
theorem refine_exact_iff {a : RangeFinder} {f : FuncId} {function : Function} {bits : Nat}
    (hf : a.program.function f = .ok function) (hdefined : function.isDeclaration = false)
    (hret : function.ret = .int bits) {h : Histogram} (hh : h.Proper)
    {ranges ranges' : Table FuncId SignedRange} (hranges : RangesInOrder ranges) {r : SignedRange}
    (hr : a.rangeOf f ranges = .ok (r, ranges')) :
    RangesInOrder ranges' ∧
    ((∃ h', a.refine f h ranges = .ok (h', ranges') ∧ Refined r h h') ↔
      (h.entries = [] ∨ r.InReach) ∧
        ∀ t, Histogram.countInto r.restrict t h.entries < Word.count 32) ∧
    ((∃ h', a.refine f h ranges = .ok (h', ranges')) ∨
      a.refine f h ranges = .error .countOverflow ∧
        Word.count 32 ≤ Histogram.total h.entries) := by
  have horder : r.InOrder ∧ RangesInOrder ranges' :=
    (ensures_inOrder_rangeOf f hranges).of_eq_ok hr
  refine ⟨horder.2, ?_⟩
  rw [refine_eq_narrowAll hf hdefined hret hr]
  have hcanonical : ∀ e ∈ h.entries, e.1.Canonical := fun e he => (hh e he).1
  -- within reach the narrowing is the restriction to the range; out of reach it clips to other
  -- bounds, which is right only where there is nothing to narrow
  by_cases hreach : r.InReach
  · rcases gathered_or_overflow_narrowAll fun e he => narrowTo?_of_inReach hreach
      (hcanonical e he) with ⟨h', hrun, hgathered⟩ | ⟨hrun, t, hword⟩ <;> rw [hrun]
    · exact ⟨iff_of_true ⟨h', rfl, refined_of_inReach hreach hgathered⟩
        ⟨Or.inr hreach, hgathered.words⟩, Or.inl ⟨h', rfl⟩⟩
    · exact ⟨iff_of_false (fun ⟨_, h, _⟩ => nomatch h)
        fun hwords => Nat.not_lt.mpr hword (hwords.2 t),
        Or.inr ⟨rfl, Nat.le_trans hword (Histogram.countInto_le _ _ _)⟩⟩
  · obtain ⟨low, high, hnarrowTo⟩ := exists_narrowTo?_of_not_inReach horder.1 hreach
    rw [or_iff_left hreach]
    rcases gathered_or_overflow_narrowAll (g := (·.clip low high))
      fun e he => hnarrowTo e.1 (hcanonical e he) with
      ⟨h', hrun, hgathered⟩ | ⟨hrun, t, hword⟩ <;> rw [hrun]
    · refine ⟨?_, Or.inl ⟨h', rfl⟩⟩
      have hnil : h.entries = [] → ∀ t, Histogram.countInto r.restrict t h.entries <
          Word.count 32 := by
        intro hnil t
        rw [hnil, Histogram.countInto_eq_zero (by simp)]
        decide
      rw [and_iff_left_of_imp hnil, ← hgathered.eq_empty_iff]
      refine ⟨?_, fun hempty => ⟨h', rfl, (refined_iff_of_not_inReach hreach).mpr hempty⟩⟩
      rintro ⟨h'', heq, hrefined⟩
      obtain ⟨rfl, -⟩ := Prod.mk.inj (Except.ok.inj heq)
      exact (refined_iff_of_not_inReach hreach).mp hrefined
    · refine ⟨iff_of_false (fun ⟨_, h, _⟩ => nomatch h) fun ⟨hnil, _⟩ => ?_,
        Or.inr ⟨rfl, Nat.le_trans hword (Histogram.countInto_le _ _ _)⟩⟩
      rw [hnil, Histogram.countInto_eq_zero (by simp)] at hword
      exact absurd hword (by decide)

/-- `wide` returns one of two integers of 64 bits. -/
def wide (low high : Int) : List Directive :=
  [.module "m", .declare ⟨0⟩ "wide" [] (.int 64),
    .define ⟨0⟩ [.block, .block, .block, .moveTo ⟨0⟩, .branch .undef ⟨1⟩ ⟨2⟩,
      .moveTo ⟨1⟩, .ret (some (.int low 64)), .moveTo ⟨2⟩, .ret (some (.int high 64))]]

/-- Two sets of negative values, observed twice and three times. -/
def negatives : Histogram := ⟨[(.ofRange (-20) (-1), 2), (.ofRange (-10) (-1), 3)], by decide⟩

theorem proper_negatives : negatives.Proper := by decide

theorem exists_build_wide (low high : Int) : ∃ p g function,
    Program.build (wide low high) = .ok p ∧ CallGraph.ofDirectCalls p = .ok g ∧
      p.function ⟨0⟩ = .ok function ∧ function.isDeclaration = false ∧ function.ret = .int 64 :=
  ⟨_, _, _, rfl, rfl, rfl, rfl, rfl⟩

/-- Both sets are cut to the values from -5 on, although `wide` may also return more than a 32-bit
integer. They become the same set, and their counts are added. -/
theorem wide_refined : ∃ p g function ranges,
    Program.build (wide (-5) 2147483648) = .ok p ∧ CallGraph.ofDirectCalls p = .ok g ∧
    p.function ⟨0⟩ = .ok function ∧ function.isDeclaration = false ∧ function.ret = .int 64 ∧
    negatives.Proper ∧ RangesInOrder {} ∧
    let a : RangeFinder := ⟨p, g, .basic, {}⟩
    a.rangeOf ⟨0⟩ {} = .ok (⟨64, .span (-5) 2147483648⟩, ranges) ∧
    ∃ h', a.refine ⟨0⟩ negatives {} = .ok (h', ranges) ∧
      Refined ⟨64, .span (-5) 2147483648⟩ negatives h' ∧ h'.get? (.ofRange (-5) (-1)) = some 5 := by
  obtain ⟨p, g, function, hp, hg, hf, hdefined, hret⟩ := exists_build_wide (-5) 2147483648
  obtain ⟨p', hp', g', hg', ⟨_, ranges⟩, hrange, rfl⟩ :
      ∃ p, Program.build (wide (-5) 2147483648) = .ok p ∧ ∃ g, CallGraph.ofDirectCalls p = .ok g ∧
      ∃ found, rangeOf ⟨p, g, .basic, {}⟩ ⟨0⟩ {} = .ok found ∧
      found.1 = ⟨64, .span (-5) 2147483648⟩ := by
    decide +kernel
  obtain rfl := Except.ok.inj (hp.symm.trans hp')
  obtain rfl := Except.ok.inj (hg.symm.trans hg')
  have hempty : RangesInOrder {} := Table.all_empty
  have hreach : SignedRange.InReach ⟨64, .span (-5) 2147483648⟩ := by
    intro low high h
    obtain ⟨rfl, rfl⟩ := Extent.span.inj h
    exact ⟨0, by decide⟩
  obtain ⟨-, hiff, -⟩ := refine_exact_iff (a := ⟨p, g, .basic, {}⟩) hf hdefined hret
    proper_negatives hempty hrange
  obtain ⟨h', hh', hrefined⟩ := hiff.mpr ⟨Or.inr hreach, fun t =>
    Nat.lt_of_le_of_lt (Histogram.countInto_le _ t _) (by decide)⟩
  have hfive : h'.get? (.ofRange (-5) (-1)) = some 5 :=
    (hrefined.1 _ 5).mpr ⟨hreach _ _ rfl, by decide, by decide⟩
  exact ⟨p, g, function, ranges, hp, hg, hf, hdefined, hret, proper_negatives, hempty, hrange, h',
    hh', hrefined, hfive⟩

/-- **Values that are not in the range.** If `wide` returns the 64-bit integer 2147483648 only, no
32-bit integer lies in its range. Nothing is dropped all the same: both sets of negative values are
kept. -/
theorem wide_refined_out_of_reach : ∃ p g ranges,
    Program.build (wide 2147483648 2147483648) = .ok p ∧ CallGraph.ofDirectCalls p = .ok g ∧
    p.defect? ⟨0⟩ = .ok none ∧
    let a : RangeFinder := ⟨p, g, .basic, {}⟩
    a.rangeOf ⟨0⟩ {} = .ok (⟨64, .span 2147483648 2147483648⟩, ranges) ∧
    a.refine ⟨0⟩ negatives {} = .ok (negatives, ranges) ∧
    ¬ Refined ⟨64, .span 2147483648 2147483648⟩ negatives negatives := by
  obtain ⟨p, g, function, hp, hg, hf, hdefined, hret⟩ := exists_build_wide 2147483648 2147483648
  obtain ⟨p', hp', g', hg', ⟨_, ranges⟩, hrange, hdefect, rfl, hnarrow⟩ :
      ∃ p, Program.build (wide 2147483648 2147483648) = .ok p ∧
      ∃ g, CallGraph.ofDirectCalls p = .ok g ∧
      ∃ found, rangeOf ⟨p, g, .basic, {}⟩ ⟨0⟩ {} = .ok found ∧ p.defect? ⟨0⟩ = .ok none ∧
      found.1 = ⟨64, .span 2147483648 2147483648⟩ ∧
      narrowAll found.1 negatives = .ok negatives := by
    decide +kernel
  obtain rfl := Except.ok.inj (hp.symm.trans hp')
  obtain rfl := Except.ok.inj (hg.symm.trans hg')
  have hrefine := refine_eq_narrowAll (a := ⟨p, g, .basic, {}⟩) hf hdefined hret hrange negatives
  rw [hnarrow] at hrefine
  refine ⟨p, g, ranges, hp, hg, hdefect, hrange, hrefine, fun hrefined => ?_⟩
  obtain ⟨⟨v, ⟨-, hv⟩, hle, -⟩, -⟩ := (hrefined.1 (.ofRange (-20) (-1)) 2).mp rfl
  rw [Word.highest_32] at hv
  omega

end RangeFinder

end ErrorReturns
