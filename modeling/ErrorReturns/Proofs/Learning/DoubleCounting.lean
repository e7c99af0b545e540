import ErrorReturns.Proofs.Learning.Pooling

/-!
# Observations that are counted twice

For a definition pooling copies counts: the narrower set adds its count to the wider one and keeps
it. A round then writes at one place only. It adds to the count of its own observation those that
the proper subsets have by then (`Counts.poolInto_false`).

The rounds follow the order of the sets. A set that has had its round before one of its proper
supersets has the counts of its own subsets in its count and passes them on, but these subsets also
add to the superset themselves, and what was observed of them is counted there twice. Nothing is
passed on if every set that comes before a proper superset has no proper subset itself
(`Histogram.Direct`), and then every count ends between what it was and what was observed of all
subsets together (`Histogram.Staged`). Otherwise there are three sets inside one another with which
an observation is counted twice, wherever the innermost stands (`Histogram.exists_counted_twice`).
The sets alone decide, and they do so by their order: ranges that share their greatest element are
counted once, but three ranges that share their least are not.
-/

namespace ErrorReturns

open Checked
open Histogram (total)
open Std (LawfulEqOrd OrientedCmp TransCmp)

namespace Counts

/-! ## One round -/

/-- The entries for proper subsets of a set. -/
def inside (s : RangeSet) (es : List (RangeSet × Nat)) : List (RangeSet × Nat) :=
  es.filter fun e => e.1 != s && e.1.isSubset s

/-- What a count becomes when those of a list are added to it, each if it is no greater by then. -/
def gather (n : Nat) (es : List (RangeSet × Nat)) : Checked Nat :=
  es.foldlM (fun n e => if e.2 ≠ 0 ∧ e.2 ≤ n then Count.add n e.2 else return n) n

theorem gather_append (n : Nat) (es es' : List (RangeSet × Nat)) :
    gather n (es ++ es') = gather n es >>= (gather · es') :=
  List.foldlM_append

/-- As long as all counts together are a word, nothing is lost and nothing is counted twice. -/
theorem meets_gather {F : Fault → Prop} (n : Nat) {es : List (RangeSet × Nat)}
    (hF : Word.count 32 ≤ n + total es → F .countOverflow) :
    Meets F (fun n' => n ≤ n' ∧ n' ≤ n + total es) (gather n es) := by
  induction es generalizing n with
  | nil => exact meets_pure ⟨Nat.le_refl n, Nat.le_refl n⟩
  | cons e rest ih =>
    rw [Histogram.total_cons] at hF ⊢
    unfold gather
    rw [List.foldlM_cons]
    split
    · refine (Count.meets_add fun hsum => hF (by omega)).bind fun sum hsum => ?_
      refine (ih sum fun hrest => hF (by omega)).imp fun n' hn' => ?_
      omega
    · refine (ih n fun hrest => hF (by omega)).imp fun n' hn' => ?_
      omega

variable {counts : Counts} {i : Nat} {s : RangeSet} {n : Nat}

theorem setIfInBounds_eq_self {x : RangeSet × Nat} (hi : counts[i]? = some x) :
    counts.setIfInBounds i x = counts := by
  refine Array.ext_getElem? fun k => ?_
  obtain ⟨hlt, -⟩ := Array.getElem?_eq_some_iff.mp hi
  rw [Array.getElem?_setIfInBounds, if_pos hlt]
  split
  case isTrue heq => exact heq ▸ hi.symm
  case isFalse => rfl

/-- Changing a count leaves the sets as they are. -/
theorem map_fst_setIfInBounds (hi : counts[i]? = some (s, n)) (n' : Nat) :
    (counts.setIfInBounds i (s, n')).toList.map (·.1) = counts.toList.map (·.1) := by
  rw [Array.toList_setIfInBounds, List.map_set]
  refine List.ext_getElem? fun k => ?_
  rw [List.getElem?_set]
  split
  case isTrue heq =>
    subst heq
    rw [List.getElem?_map, Array.getElem?_toList, hi, if_pos]
    · rfl
    · rw [List.length_map]
      exact (Array.getElem?_eq_some_iff.mp hi).1
  case isFalse => rfl

/-- One step of a round: the entry at `k` adds to the count, if its set is a proper subset. -/
theorem pool_false_setIfInBounds (hnodup : (counts.toList.map (·.1)).Nodup)
    (hi : counts[i]? = some (s, n)) {k m : Nat} {b : RangeSet} (hk : counts[k]? = some (b, m))
    (n' : Nat) :
    pool false i (counts.setIfInBounds i (s, n')) k =
      (return counts.setIfInBounds i (s, ← gather n' (inside s [(b, m)]))) := by
  obtain ⟨hlt, -⟩ := Array.getElem?_eq_some_iff.mp hi
  have hself : (counts.setIfInBounds i (s, n'))[i]? = some (s, n') :=
    Array.getElem?_setIfInBounds_self_of_lt hlt
  by_cases hik : i = k
  · -- a set is no proper subset of itself
    obtain ⟨rfl, -⟩ := Prod.mk.inj (Option.some.inj ((hik ▸ hi).symm.trans hk))
    rcases pool_cases false i (counts.setIfInBounds i (s, n')) k with ⟨_, _, _, _, ht⟩ | ⟨-, heq⟩
    · exact absurd hik ht.ne
    · simp [heq, inside, gather]
  · have hne : b ≠ s := by
      rintro rfl
      exact hik (Histogram.getElem?_inj hnodup (Array.getElem?_toList ▸ hi)
        (Array.getElem?_toList ▸ hk))
    have hother : (counts.setIfInBounds i (s, n'))[k]? = some (b, m) :=
      (Array.getElem?_setIfInBounds_ne hik).trans hk
    unfold pool
    rw [hself, hother]
    by_cases hsub : b.isSubset s = true <;> by_cases hm : m ≠ 0 ∧ m ≤ n' <;>
      simp [inside, gather, hik, hne, hsub, hm]

/-- **A round changes the count of its own observation only.** -/
theorem foldlM_pool_false (hnodup : (counts.toList.map (·.1)).Nodup)
    (hi : counts[i]? = some (s, n)) {k : Nat} (hk : k ≤ counts.size) :
    (List.range k).foldlM (pool false i) counts =
      (return counts.setIfInBounds i (s, ← gather n (inside s (counts.toList.take k)))) := by
  induction k with
  | zero => exact congrArg Except.ok (setIfInBounds_eq_self hi).symm
  | succ k ih =>
    obtain ⟨⟨b, m⟩, hget⟩ : ∃ e, counts[k]? = some e := ⟨_, Array.getElem?_eq_getElem hk⟩
    have htake : counts.toList.take (k + 1) = counts.toList.take k ++ [(b, m)] := by
      rw [List.take_add_one, Array.getElem?_toList, hget]
      rfl
    have hinside : inside s (counts.toList.take (k + 1)) =
        inside s (counts.toList.take k) ++ inside s [(b, m)] := by
      rw [htake, inside, List.filter_append]
      rfl
    rw [List.range_succ, List.foldlM_append, ih (Nat.le_of_succ_le hk), hinside, gather_append]
    cases gather n (inside s (counts.toList.take k)) with
    | error e => rfl
    | ok n' =>
      rw [ok_bind, ok_bind, pure_eq_ok, ok_bind, List.foldlM_cons,
        pool_false_setIfInBounds hnodup hi hget]
      cases gather n' (inside s [(b, m)]) <;> rfl

/-- **A round adds to the count of its own observation** what the entries for proper subsets have by
then. -/
theorem poolInto_false (hnodup : (counts.toList.map (·.1)).Nodup) (hi : counts[i]? = some (s, n))
    (hn : n ≠ 0) :
    poolInto false counts i =
      (return counts.setIfInBounds i (s, ← gather n (inside s counts.toList))) := by
  unfold poolInto
  rw [hi, if_pos (by simpa using hn), foldlM_pool_false hnodup hi (Nat.le_refl _)]
  rw [List.take_of_length_le (Nat.le_of_eq Array.length_toList)]

end Counts

/-! ## All rounds -/

/-- Lists of one length that agree where `p` holds have the same elements with `p`. -/
theorem filter_eq_of_getElem? {α : Type} {p : α → Bool} {l l' : List α}
    (hlength : l.length = l'.length)
    (h : ∀ (j : Nat) (x y : α), l[j]? = some x → l'[j]? = some y →
      p x = p y ∧ (p y = true → x = y)) : l.filter p = l'.filter p := by
  induction l generalizing l' with
  | nil => rw [List.length_eq_zero_iff.mp hlength.symm]
  | cons x rest ih =>
    cases l' with
    | nil => cases hlength
    | cons y rest' =>
      obtain ⟨hp, heq⟩ := h 0 x y rfl rfl
      rw [List.filter_cons, List.filter_cons, hp,
        ih (Nat.succ.inj hlength) fun j x y hx hy => h (j + 1) x y hx hy]
      split
      case isTrue hy => rw [heq hy]
      case isFalse => rfl

namespace Histogram

open Counts (inside gather)

variable {h : Histogram} {counts : Counts} {k : Nat}

/-- **Nothing is pooled on**: a set that comes before a proper superset of it, in the order of sets,
has no proper subset itself. -/
def Direct (sets : List RangeSet) : Prop :=
  ∀ a ∈ sets, ∀ b ∈ sets, ∀ c ∈ sets, a ⊂ b → b ⊂ c → compare b c ≠ .lt

/-- How often a subset of a set was observed. -/
def countWithin (h : Histogram) (s : RangeSet) : Nat :=
  total (h.entries.filter fun e => e.1.isSubset s)

theorem Proper.mem_inside (hh : h.Proper) {s : RangeSet} (hs : s.Canonical) {e : RangeSet × Nat} :
    e ∈ inside s h.entries ↔ e ∈ h.entries ∧ e.1 ⊂ s := by
  rw [inside, List.mem_filter]
  refine and_congr_right fun he => ?_
  rw [(hh e he).1.ssubset_iff hs, Bool.and_eq_true, bne_iff_ne, and_comm]

/-- A subset is the set itself or a proper subset. -/
theorem Proper.countWithin_eq (hh : h.Proper) {s : RangeSet} {n : Nat}
    (hs : h.entries[k]? = some (s, n)) :
    h.countWithin s = total (inside s h.entries) + n := by
  have hmem := List.mem_of_getElem? hs
  have hself : s.isSubset s = true :=
    ((hh _ hmem).1.isSubset_iff (hh _ hmem).1).mpr fun _ hv => hv
  have hn : countInto (fun s => s) s h.entries = n := by
    rw [countInto_self h.increasing, h.increasing.find_eq_some_iff.mpr hmem]
    rfl
  have hsplit : h.entries.filter (fun e => e.1.isSubset s) =
      h.entries.filter fun e => (e.1 != s && e.1.isSubset s) || decide (e.1 = s) := by
    refine List.filter_congr fun e _ => ?_
    by_cases he : e.1 = s
    · simp [he, hself]
    · simp [he]
  rw [countWithin, hsplit, total_filter_or, ← hn]
  · rfl
  · intro e _ he
    rw [Bool.and_eq_true, bne_iff_ne] at he
    exact decide_eq_false he.1

/-- **The state before round `k`**: the sets are as they were, and so are the counts from `k` on and
those of sets without proper subsets. No count is less than it was or more than it should be. -/
structure Staged (h : Histogram) (k : Nat) (counts : Counts) : Prop where
  sets : counts.toList.map (·.1) = h.keys
  rest : ∀ j, k ≤ j → counts[j]? = h.entries[j]?
  least : ∀ (j : Nat) (s : RangeSet) (n : Nat), h.entries[j]? = some (s, n) →
    inside s h.entries = [] → counts[j]? = some (s, n)
  bounds : ∀ (j : Nat) (s : RangeSet) (n : Nat), h.entries[j]? = some (s, n) →
    ∃ n', counts[j]? = some (s, n') ∧ n ≤ n' ∧ n' ≤ h.countWithin s

/-- What a round adds up has not been pooled before. -/
theorem Staged.inside_eq (hst : h.Staged k counts) (hh : h.Proper) (hdirect : Direct h.keys)
    {s : RangeSet} {n : Nat} (hk : h.entries[k]? = some (s, n)) :
    inside s counts.toList = inside s h.entries := by
  have hlength : counts.toList.length = h.entries.length := by
    have := congrArg List.length hst.sets
    rwa [List.length_map, Table.keys, List.length_map] at this
  have hs := List.mem_of_getElem? hk
  refine filter_eq_of_getElem? hlength ?_
  rintro j ⟨t, m'⟩ ⟨t', m⟩ hx hy
  obtain ⟨n', hn', -⟩ := hst.bounds j t' m hy
  rw [Array.getElem?_toList] at hx
  obtain ⟨rfl, rfl⟩ := Prod.mk.inj (Option.some.inj (hx.symm.trans hn'))
  refine ⟨rfl, fun hsub => ?_⟩
  suffices hkept : counts[j]? = some (t, m) from Option.some.inj (hx.symm.trans hkept)
  by_cases hjk : k ≤ j
  · exact (hst.rest j hjk).trans hy
  · -- the set comes before `s`, so that it has no proper subset
    have ht := List.mem_of_getElem? hy
    have hts : t ⊂ s :=
      ((hh.mem_inside (hh _ hs).1).mp (List.mem_filter.mpr ⟨ht, hsub⟩)).2
    obtain ⟨hj, hy'⟩ := List.getElem?_eq_some_iff.mp hy
    obtain ⟨hk', hs'⟩ := List.getElem?_eq_some_iff.mp hk
    have hlt : compare t s = .lt := by
      have := List.pairwise_iff_getElem.mp h.increasing j k hj hk' (Nat.lt_of_not_le hjk)
      rwa [hy', hs'] at this
    refine hst.least j t m hy (List.eq_nil_iff_forall_not_mem.mpr fun e he => ?_)
    obtain ⟨hmem, het⟩ := (hh.mem_inside (hh _ ht).1).mp he
    exact hdirect e.1 (List.mem_map_of_mem hmem) t (List.mem_map_of_mem ht) s
      (List.mem_map_of_mem hs) het hts hlt

/-- **A round keeps all this.** -/
theorem Staged.meets_poolInto {F : Fault → Prop} (hst : h.Staged k counts) (hh : h.Proper)
    (hpos : ∀ e ∈ h.entries, 0 < e.2) (htotal : total h.entries < Word.count 32)
    (hdirect : Direct h.keys) (hk : k < h.entries.length) :
    Meets F (h.Staged (k + 1)) (Counts.poolInto false counts k) := by
  obtain ⟨⟨s, n⟩, hs⟩ : ∃ e, h.entries[k]? = some e := ⟨_, List.getElem?_eq_getElem hk⟩
  have hcounts : counts[k]? = some (s, n) := (hst.rest k (Nat.le_refl k)).trans hs
  have hn : n ≠ 0 := Nat.ne_of_gt (hpos _ (List.mem_of_getElem? hs))
  have hnodup : (counts.toList.map (·.1)).Nodup := hst.sets ▸ h.nodup_keys
  have hsum := hh.countWithin_eq hs
  have hle : h.countWithin s ≤ total h.entries := total_filter_le _ _
  rw [Counts.poolInto_false hnodup hcounts hn, hst.inside_eq hh hdirect hs]
  refine (Counts.meets_gather n fun hword => absurd hword (by omega)).map
    fun n' ⟨hlow, hhigh⟩ => ?_
  have hlt := (Array.getElem?_eq_some_iff.mp hcounts).1
  -- only the count at `k` changes, so each clause splits on whether it is about `k`
  have hself : (counts.setIfInBounds k (s, n'))[k]? = some (s, n') :=
    Array.getElem?_setIfInBounds_self_of_lt hlt
  have hother : ∀ j, k ≠ j → (counts.setIfInBounds k (s, n'))[j]? = counts[j]? :=
    fun j hj => Array.getElem?_setIfInBounds_ne hj
  refine ⟨?_, fun j hj => ?_, fun j t m hj hnil => ?_, fun j t m hj => ?_⟩
  · exact (Counts.map_fst_setIfInBounds hcounts _).trans hst.sets
  · rw [hother j (by omega)]
    exact hst.rest j (by omega)
  · by_cases hkj : k = j
    · subst hkj
      obtain ⟨rfl, rfl⟩ := Prod.mk.inj (Option.some.inj (hs.symm.trans hj))
      have hzero : total (inside s h.entries) = 0 := by rw [hnil]; rfl
      rw [hself, show n' = n by omega]
    · rw [hother j hkj]
      exact hst.least j t m hj hnil
  · by_cases hkj : k = j
    · subst hkj
      obtain ⟨rfl, rfl⟩ := Prod.mk.inj (Option.some.inj (hs.symm.trans hj))
      exact ⟨_, hself, hlow, by omega⟩
    · rw [hother j hkj]
      exact hst.bounds j t m hj

/-- **All rounds keep it**, if nothing is pooled on. -/
theorem exists_staged_pooled (hh : h.Proper) (hpos : ∀ e ∈ h.entries, 0 < e.2)
    (htotal : total h.entries < Word.count 32) (hdirect : Direct h.keys) :
    ∃ counts, h.pooled false = .ok counts ∧ h.Staged h.size counts := by
  refine (meets_foldlM_range (fun k hk counts hst =>
    hst.meets_poolInto hh hpos htotal hdirect hk) ?_).exists_eq_ok
  refine ⟨rfl, fun j _ => List.getElem?_toArray, fun j s n hj _ => List.getElem?_toArray.trans hj,
    fun j s n hj => ⟨n, List.getElem?_toArray.trans hj, Nat.le_refl n, ?_⟩⟩
  have := hh.countWithin_eq hj
  omega

/-- **No observation is counted twice**: pooling for a definition has a result and keeps the sets,
and no count becomes less than it was, or more than all counts of subsets together. -/
def CountsOnce (h : Histogram) : Prop :=
  ∃ counts, h.pooled false = .ok counts ∧ counts.toList.map (·.1) = h.keys ∧
    ∀ x ∈ counts, ∃ n, h.get? x.1 = some n ∧ n ≤ x.2 ∧ x.2 ≤ h.countWithin x.1

/-- If nothing is pooled on, nothing is counted twice. -/
theorem countsOnce_of_direct (hh : h.Proper) (hpos : ∀ e ∈ h.entries, 0 < e.2)
    (htotal : total h.entries < Word.count 32) (hdirect : Direct h.keys) : h.CountsOnce := by
  obtain ⟨counts, hpooled, hst⟩ := exists_staged_pooled hh hpos htotal hdirect
  refine ⟨counts, hpooled, hst.sets, ?_⟩
  rintro ⟨s, n'⟩ hx
  obtain ⟨j, hj⟩ := Array.mem_iff_getElem?.mp hx
  cases hy : h.entries[j]? with
  | none =>
    have hnone := (hst.rest j (List.getElem?_eq_none_iff.mp hy)).trans hy
    cases hj.symm.trans hnone
  | some e =>
    obtain ⟨m, hm, hle, hle'⟩ := hst.bounds j e.1 e.2 hy
    obtain ⟨rfl, rfl⟩ := Prod.mk.inj (Option.some.inj (hj.symm.trans hm))
    exact ⟨e.2, Table.get?_eq_some_iff.mpr (List.mem_of_getElem? hy), hle, hle'⟩

/-! ## Counting twice -/

/-- **An observation that is counted twice.** With a set `b` between `a` and `c` that comes before
`c`, the count of `a` is added to that of `b`, and then both are added to that of `c`. -/
theorem exists_counted_twice {a b c : RangeSet} (ha : a.Canonical) (hb : b.Canonical)
    (hc : c.Canonical) (hab : a ⊂ b) (hbc : b ⊂ c) (hlt : compare b c = .lt) :
    ∃ h : Histogram, h.Proper ∧ h.entries.Perm [(a, 1), (b, 1), (c, 2)] ∧
      ∃ counts, h.pooled false = .ok counts ∧ (c, 5) ∈ counts := by
  have hac := RangeSet.ssubset_trans hab hbc
  have hab' : a.isSubset b = true := (ha.isSubset_iff hb).mpr hab.1
  have hbc' : b.isSubset c = true := (hb.isSubset_iff hc).mpr hbc.1
  have hac' : a.isSubset c = true := (ha.isSubset_iff hc).mpr hac.1
  have hba : b.isSubset a = false := Bool.eq_false_iff.mpr (mt (hb.isSubset_iff ha).mp hab.2)
  have hcb : c.isSubset b = false := Bool.eq_false_iff.mpr (mt (hc.isSubset_iff hb).mp hbc.2)
  have hca : c.isSubset a = false := Bool.eq_false_iff.mpr (mt (hc.isSubset_iff ha).mp hac.2)
  have hall : ∀ e ∈ [(a, 1), (b, 1), (c, 2)], e.1.Canonical ∧ e.2 < Word.count 32 := by
    simp [ha, hb, hc, Word.count]
  suffices hplaces : ∃ es : List (RangeSet × Nat), es.Perm [(a, 1), (b, 1), (c, 2)] ∧
      Table.Increasing es ∧ ∃ counts,
        (List.range es.length).foldlM (Counts.poolInto false) es.toArray = .ok counts ∧
        (c, 5) ∈ counts by
    obtain ⟨es, hperm, hincreasing, hfive⟩ := hplaces
    exact ⟨⟨es, hincreasing⟩, fun e he => hall e (hperm.mem_iff.mp he), hperm, hfive⟩
  have hfive : ∀ es ∈ [[(a, 1), (b, 1), (c, 2)], [(b, 1), (a, 1), (c, 2)],
      [(b, 1), (c, 2), (a, 1)]], ∃ counts,
        (List.range es.length).foldlM (Counts.poolInto false) es.toArray = .ok counts ∧
        (c, 5) ∈ counts := by
    simp [Counts.poolInto, Counts.pool, Count.add, List.range, List.range.loop,
      Word.count, hab', hbc', hac', hba, hcb, hca]
  -- `a` comes before both others, between them, or after them
  cases hcompare : compare a b with
  | lt =>
    have hlt' : compare a c = .lt := TransCmp.lt_trans hcompare hlt
    refine ⟨[(a, 1), (b, 1), (c, 2)], .refl _, ?_, hfive _ (by simp)⟩
    simp [Table.Increasing, hcompare, hlt', hlt]
  | eq => exact absurd (LawfulEqOrd.compare_eq_iff_eq.mp hcompare) (RangeSet.ne_of_ssubset hab)
  | gt =>
    have hgt : compare b a = .lt := OrientedCmp.gt_iff_lt.mp hcompare
    cases hcompare' : compare a c with
    | lt =>
      refine ⟨[(b, 1), (a, 1), (c, 2)], .swap _ _ _, ?_, hfive _ (by simp)⟩
      simp [Table.Increasing, hgt, hcompare', hlt]
    | eq => exact absurd (LawfulEqOrd.compare_eq_iff_eq.mp hcompare') (RangeSet.ne_of_ssubset hac)
    | gt =>
      have hgt' : compare c a = .lt := OrientedCmp.gt_iff_lt.mp hcompare'
      have hperm : ([(b, 1), (c, 2)] ++ [(a, 1)]).Perm ([(a, 1)] ++ [(b, 1), (c, 2)]) :=
        List.perm_append_comm
      refine ⟨[(b, 1), (c, 2), (a, 1)], hperm, ?_, hfive _ (by simp)⟩
      simp [Table.Increasing, hgt, hgt', hlt]

/-- **When no observation is counted twice.** For any sets, pooling for a definition counts no
observation of these sets twice, however often each of them was observed, exactly if nothing is
pooled on. -/
theorem pooled_definition_counts_once_iff {sets : List RangeSet}
    (hsets : ∀ s ∈ sets, s.Canonical) :
    (∀ h : Histogram, h.Proper → (∀ e ∈ h.entries, e.1 ∈ sets ∧ 0 < e.2) →
      total h.entries < Word.count 32 → h.CountsOnce) ↔ Direct sets := by
  constructor
  · intro honce a ha b hb c hc hab hbc hlt
    obtain ⟨h, hh, hperm, counts, hpooled, hfive⟩ :=
      exists_counted_twice (hsets a ha) (hsets b hb) (hsets c hc) hab hbc hlt
    have htotal : total h.entries = 4 := total_perm hperm
    have hall : ∀ e ∈ [(a, 1), (b, 1), (c, 2)], e.1 ∈ sets ∧ 0 < e.2 := by
      simp [ha, hb, hc]
    obtain ⟨counts', hpooled', -, hbounds⟩ := honce h hh
      (fun e he => hall e (hperm.mem_iff.mp he)) (htotal ▸ by decide)
    obtain rfl := Except.ok.inj (hpooled.symm.trans hpooled')
    obtain ⟨n, -, -, hle⟩ := hbounds (c, 5) hfive
    have hle' : h.countWithin c ≤ total h.entries := total_filter_le _ _
    dsimp only at hle
    omega
  · intro hdirect h hh hmem htotal
    have hkeys : ∀ s ∈ h.keys, s ∈ sets := by
      rintro s hs
      obtain ⟨e, he, rfl⟩ := List.mem_map.mp hs
      exact (hmem e he).1
    exact countsOnce_of_direct hh (fun e he => (hmem e he).2) htotal
      fun a ha b hb c hc => hdirect a (hkeys a ha) b (hkeys b hb) c (hkeys c hc)

/-- Three checks of one call: whether it is above 0, above 5 and above 10. -/
def checksAbove : Histogram :=
  ⟨[(.ofRange 1 2147483647, 1), (.ofRange 6 2147483647, 1), (.ofRange 11 2147483647, 1)], by decide⟩

/-- Three checks of one call: whether it is below -10, below -5 and below 0. -/
def checksBelow : Histogram :=
  ⟨[(.ofRange (-2147483648) (-11), 1), (.ofRange (-2147483648) (-6), 1),
    (.ofRange (-2147483648) (-1), 1)], by decide⟩

/-- Of sets that end at the greatest word the widest comes first, so that nothing is pooled on and
the widest gets the count of each of the others once. -/
theorem checksAbove_countsOnce :
    (∀ s ∈ checksAbove.keys, s.Canonical) ∧ Direct checksAbove.keys ∧ checksAbove.Proper ∧
    (∀ e ∈ checksAbove.entries, e.1 ∈ checksAbove.keys ∧ 0 < e.2) ∧
    total checksAbove.entries < Word.count 32 ∧ checksAbove.CountsOnce ∧
    (checksAbove.pooled false).map (·.toList.map (·.2)) = .ok [3, 2, 1] := by
  have hsets : ∀ s ∈ checksAbove.keys, s.Canonical := by decide
  have hwide : ∀ b ∈ checksAbove.keys, ∀ c ∈ checksAbove.keys, compare b c = .lt →
      b.isSubset c = false := by decide
  have hdirect : Direct checksAbove.keys := fun a _ b hb c hc _ hbc hlt =>
    Bool.eq_false_iff.mp (hwide b hb c hc hlt)
      (((hsets b hb).ssubset_iff (hsets c hc)).mp hbc).1
  have hmem : ∀ e ∈ checksAbove.entries, e.1 ∈ checksAbove.keys ∧ 0 < e.2 := by decide
  exact ⟨hsets, hdirect, by decide, hmem, by decide,
    (pooled_definition_counts_once_iff hsets).mpr hdirect checksAbove (by decide) hmem (by decide),
    by decide⟩

/-- **An observation counted twice.** Of sets that begin at the least word the narrowest comes
first. The check below -10 counts for the one below -5, and then both count for the one below 0,
which ends with 4 although there were 3 observations in all. -/
theorem checksBelow_counted_twice :
    checksBelow.Proper ∧ (∀ e ∈ checksBelow.entries, 0 < e.2) ∧ total checksBelow.entries = 3 ∧
    (checksBelow.pooled false).map (·.toList.map (·.2)) = .ok [1, 2, 4] ∧
    ¬ checksBelow.CountsOnce := by
  have hrun : checksBelow.pooled false = .ok #[(.ofRange (-2147483648) (-11), 1),
      (.ofRange (-2147483648) (-6), 2), (.ofRange (-2147483648) (-1), 4)] := by decide
  refine ⟨by decide, by decide, by decide, by rw [hrun]; rfl, ?_⟩
  rintro ⟨counts, hpooled, -, hbounds⟩
  obtain rfl := Except.ok.inj (hrun.symm.trans hpooled)
  obtain ⟨n, -, -, hle⟩ := hbounds (.ofRange (-2147483648) (-1), 4)
    (Array.mem_toList_iff.mp (by decide))
  exact absurd hle (by decide)

end Histogram

end ErrorReturns
