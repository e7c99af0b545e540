import ErrorReturns.Proofs.Learning.DoubleCounting
import Mathlib.Data.Finset.Max

/-!
# How far pooling raises a count

For a definition counts are copied to every proper superset, and what has been copied may be copied
on. Along sets inside one another a count can therefore double with every set. It does not grow
faster: a count never exceeds `2 ^ (t - 1)`, where `t` is how often a subset of its set was observed
(`Histogram.Limited`). The reason is a fact about entries alone. The powers that the proper subsets
of a set may have reached are together less than the power of all that was observed of them
(`Histogram.sum_two_pow_lt`), as one sees by taking away a greatest set, which no other one
contains.

Counts are words of 32 bits. So 32 observations of a slot can always be pooled
(`Histogram.meets_pooled`), and 33 cannot.
-/

namespace ErrorReturns

open Checked

namespace Histogram

open Counts (inside)

/-! ## Powers of counts -/

/-- How often subsets of a set were observed, by some entries. -/
def totalWithin (es : List (RangeSet × Nat)) (s : RangeSet) : Nat :=
  total (es.filter fun e => e.1.isSubset s)

theorem totalWithin_le (es : List (RangeSet × Nat)) (s : RangeSet) :
    totalWithin es s ≤ total es :=
  total_filter_le _ es

theorem totalWithin_perm {es es' : List (RangeSet × Nat)} (h : es.Perm es') (s : RangeSet) :
    totalWithin es s = totalWithin es' s :=
  total_perm (h.filter _)

/-- A proper superset has more observations within it. -/
theorem totalWithin_lt {es : List (RangeSet × Nat)} (hcanonical : ∀ e ∈ es, e.1.Canonical)
    {s : RangeSet} (hs : s.Canonical) {e : RangeSet × Nat} (he : e ∈ es) (hpos : 0 < e.2)
    (hse : s ⊂ e.1) : totalWithin es s < totalWithin es e.1 := by
  have hself : e ∈ es.filter fun x => decide (x = e) := List.mem_filter.mpr ⟨he, by simp⟩
  have hsplit : total (es.filter fun x => x.1.isSubset s || decide (x = e)) =
      totalWithin es s + total (es.filter fun x => decide (x = e)) := by
    refine total_filter_or fun x hx hsub => decide_eq_false ?_
    rintro rfl
    exact hse.2 (((hcanonical x hx).isSubset_iff hs).mp hsub)
  have hall : total (es.filter fun x => x.1.isSubset s || decide (x = e)) ≤
      totalWithin es e.1 := by
    refine total_filter_le_of_imp fun x hx hor => ?_
    rw [((hcanonical x hx).isSubset_iff (hcanonical e he))]
    rcases Bool.or_eq_true_iff.mp hor with hsub | heq
    · exact fun v hv => hse.1 v (((hcanonical x hx).isSubset_iff hs).mp hsub v hv)
    · rw [of_decide_eq_true heq]
      exact fun _ hv => hv
  have hcount := le_total hself
  omega

/-- **The powers of the entries stay below the power of their sum.** -/
theorem sum_two_pow_lt {es : List (RangeSet × Nat)} (hcanonical : ∀ e ∈ es, e.1.Canonical)
    (hnodup : (es.map (·.1)).Nodup) (hpos : ∀ e ∈ es, 0 < e.2) :
    total (es.map fun e => (e.1, 2 ^ (totalWithin es e.1 - 1))) < 2 ^ total es := by
  induction hlength : es.length generalizing es with
  | zero =>
    obtain rfl := List.length_eq_zero_iff.mp hlength
    exact Nat.one_pos
  | succ n ih =>
    -- a greatest entry: no other one has its set within it
    obtain ⟨e, he, hmax⟩ := es.toFinset.exists_max_image (totalWithin es ·.1)
      (List.toFinset_nonempty_iff es |>.mpr (by rintro rfl; cases hlength))
    rw [List.mem_toFinset] at he
    have hperm : es.Perm (e :: es.erase e) := List.perm_cons_erase he
    have hrest : ∀ x ∈ es.erase e, x ∈ es := fun x hx => List.mem_of_mem_erase hx
    have hnodup' : ((e :: es.erase e).map (·.1)).Nodup := (hperm.map _).nodup_iff.mp hnodup
    rw [List.map_cons, List.nodup_cons] at hnodup'
    have houtside : ∀ x ∈ es.erase e, totalWithin es x.1 = totalWithin (es.erase e) x.1 := by
      intro x hx
      rw [totalWithin_perm hperm, totalWithin, List.filter_cons_of_neg, totalWithin]
      intro hsub
      have hne : e.1 ≠ x.1 := fun heq => hnodup'.1 (heq ▸ List.mem_map_of_mem hx)
      have hlt := totalWithin_lt hcanonical (hcanonical e he) (hrest x hx) (hpos x (hrest x hx))
        (((hcanonical e he).ssubset_iff (hcanonical x (hrest x hx))).mpr ⟨hsub, hne⟩)
      exact Nat.not_le_of_lt hlt (hmax x (List.mem_toFinset.mpr (hrest x hx)))
    have hsmaller := ih (fun x hx => hcanonical x (hrest x hx)) hnodup'.2
      (fun x hx => hpos x (hrest x hx)) (by rw [List.length_erase_of_mem he, hlength]; rfl)
    have htotal : total es = e.2 + total (es.erase e) := total_perm hperm
    have hcount := hpos e he
    have hown : 2 ^ (totalWithin es e.1 - 1) ≤ 2 ^ (total es - 1) :=
      Nat.pow_le_pow_right Nat.two_pos (Nat.sub_le_sub_right (totalWithin_le es e.1) 1)
    have hothers : 2 ^ total (es.erase e) ≤ 2 ^ (total es - 1) :=
      Nat.pow_le_pow_right Nat.two_pos (by omega)
    have hdouble : 2 ^ total es = 2 ^ (total es - 1) + 2 ^ (total es - 1) := by
      rw [← Nat.two_mul, ← Nat.pow_succ']
      congr 1
      omega
    rw [total_perm (hperm.map _), List.map_cons, total_cons,
      List.map_congr_left fun x hx => congrArg (fun t => (x.1, 2 ^ (t - 1))) (houtside x hx)]
    omega

/-! ## Rounds -/

variable {h : Histogram} {counts : Counts} {k : Nat}

/-- **The state before round `k`**: the sets are as they were, and so are the counts from `k` on. No
count exceeds the power of what was observed within its set. -/
structure Limited (h : Histogram) (k : Nat) (counts : Counts) : Prop where
  sets : counts.toList.map (·.1) = h.keys
  rest : ∀ j, k ≤ j → counts[j]? = h.entries[j]?
  limit : ∀ x ∈ counts.toList, x.2 ≤ 2 ^ (h.countWithin x.1 - 1)

/-- What the proper subsets of a set have by now is less than the power of what was observed of
them. -/
theorem Limited.total_inside_lt (hl : h.Limited k counts) (hh : h.Proper)
    (hpos : ∀ e ∈ h.entries, 0 < e.2) {s : RangeSet} (hs : s.Canonical) :
    total (inside s counts.toList) < 2 ^ total (inside s h.entries) := by
  have hinside : ∀ e ∈ inside s h.entries, e ∈ h.entries := fun e he => List.mem_of_mem_filter he
  have hkeys : (inside s counts.toList).map (·.1) = (inside s h.entries).map (·.1) := by
    have hfilter : ∀ es : List (RangeSet × Nat), (inside s es).map (·.1) =
        (es.map (·.1)).filter fun t => t != s && t.isSubset s := fun es => by
      rw [List.filter_map]
      rfl
    rw [hfilter, hfilter, hl.sets]
    rfl
  have hbound : total (inside s counts.toList) ≤
      total ((inside s counts.toList).map fun e => (e.1, 2 ^ (h.countWithin e.1 - 1))) :=
    total_le_total_map (g := fun t => 2 ^ (h.countWithin t - 1)) fun e he =>
      hl.limit e (List.mem_of_mem_filter he)
  have hsame : ((inside s counts.toList).map fun e => (e.1, 2 ^ (h.countWithin e.1 - 1))) =
      (inside s h.entries).map fun e => (e.1, 2 ^ (h.countWithin e.1 - 1)) := by
    have := congrArg (List.map fun t => (t, 2 ^ (h.countWithin t - 1))) hkeys
    rwa [List.map_map, List.map_map] at this
  -- a subset of a proper subset is one of the proper subsets
  have hwithin : ∀ e ∈ inside s h.entries,
      h.countWithin e.1 = totalWithin (inside s h.entries) e.1 := by
    intro e he
    obtain ⟨hmem, hes⟩ := (hh.mem_inside hs).mp he
    rw [totalWithin, inside, List.filter_filter, countWithin]
    congr 1
    refine List.filter_congr fun x hx => ?_
    rw [Bool.eq_iff_iff, Bool.and_eq_true, iff_self_and]
    intro hsub
    have hxe := ((hh x hx).1.isSubset_iff (hh e hmem).1).mp hsub
    have hxs : x.1 ⊂ s :=
      ⟨fun v hv => hes.1 v (hxe v hv), fun hsx => hes.2 fun v hv => hxe v (hsx v hv)⟩
    rw [Bool.and_eq_true, bne_iff_ne, and_comm]
    exact ((hh x hx).1.ssubset_iff hs).mp hxs
  rw [hsame, List.map_congr_left fun e he =>
    congrArg (fun t => (e.1, 2 ^ (t - 1))) (hwithin e he)] at hbound
  refine Nat.lt_of_le_of_lt hbound (sum_two_pow_lt (fun e he => (hh e (hinside e he)).1) ?_
    fun e he => hpos e (hinside e he))
  exact h.nodup_keys.sublist (List.filter_sublist.map _)

/-- **A round keeps all counts limited.** -/
theorem Limited.meets_poolInto {F : Fault → Prop} (hl : h.Limited k counts) (hh : h.Proper)
    (hpos : ∀ e ∈ h.entries, 0 < e.2) (hfew : total h.entries ≤ 32)
    (hk : k < h.entries.length) : Meets F (h.Limited (k + 1)) (Counts.poolInto false counts k) := by
  obtain ⟨⟨s, n⟩, hs⟩ : ∃ e, h.entries[k]? = some e := ⟨_, List.getElem?_eq_getElem hk⟩
  have hmem := List.mem_of_getElem? hs
  have hcounts : counts[k]? = some (s, n) := (hl.rest k (Nat.le_refl k)).trans hs
  have hn : n ≠ 0 := Nat.ne_of_gt (hpos _ hmem)
  have hnodup : (counts.toList.map (·.1)).Nodup := hl.sets ▸ h.nodup_keys
  -- the count and those of the proper subsets together stay below the power
  have hinside : total (inside s counts.toList) < 2 ^ total (inside s h.entries) :=
    hl.total_inside_lt hh hpos (hh _ hmem).1
  have hlimit : n + total (inside s counts.toList) ≤ 2 ^ (h.countWithin s - 1) := by
    rw [hh.countWithin_eq hs, Nat.add_sub_assoc (Nat.one_le_iff_ne_zero.mpr hn), Nat.pow_add]
    have hpower : n - 1 < 2 ^ (n - 1) := Nat.lt_two_pow_self
    have hmul : 2 ^ total (inside s h.entries) + (n - 1) ≤
        2 ^ total (inside s h.entries) * 2 ^ (n - 1) := by
      obtain ⟨p, hp⟩ := Nat.exists_eq_add_of_lt hpower
      rw [hp, Nat.add_assoc, Nat.mul_add, Nat.mul_add, Nat.mul_one]
      have : n - 1 ≤ 2 ^ total (inside s h.entries) * (n - 1) :=
        Nat.le_mul_of_pos_left _ (Nat.two_pow_pos _)
      omega
    omega
  have hwithin : h.countWithin s ≤ total h.entries := total_filter_le _ _
  rw [Counts.poolInto_false hnodup hcounts hn]
  have hword : 2 ^ (h.countWithin s - 1) ≤ 2 ^ 31 := Nat.pow_le_pow_right Nat.two_pos (by omega)
  refine (Counts.meets_gather n fun hover => ?_).map fun n' hn' => ?_
  · exact absurd (Nat.le_trans hover (Nat.le_trans hlimit hword)) (by decide)
  · refine ⟨(Counts.map_fst_setIfInBounds hcounts n').trans hl.sets, fun j hj => ?_, fun x hx => ?_⟩
    · rw [Array.getElem?_setIfInBounds_ne (by omega)]
      exact hl.rest j (by omega)
    · rcases Array.mem_or_eq_of_mem_setIfInBounds (Array.mem_toList_iff.mp hx) with hx | rfl
      · exact hl.limit x (Array.mem_toList_iff.mpr hx)
      · exact Nat.le_trans hn'.2 hlimit

/-- Sets that begin at the least word, one inside the other, each observed once. -/
def nested (n : Nat) : Histogram :=
  .ofList ((List.range n).map fun k => (.ofRange (Word.lowest 32) k, 1))

/-- One observation more can be too many: a chain of 33 sets doubles its count once too often. -/
example : (nested 33).pooled false = .error .countOverflow := by decide +kernel

end Histogram

end ErrorReturns
