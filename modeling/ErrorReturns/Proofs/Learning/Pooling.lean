import ErrorReturns.Learning.Storing
import ErrorReturns.Proofs.Histogram
import ErrorReturns.Proofs.RangeSet.Membership

/-!
# Pooling observations

The observations of a slot are pooled in rounds. The round of an observation goes through all others
and lets it take over the count of each that is no more frequent by then and lies around it, for a
declaration, or inside it, for a definition. A step of a round is such a takeover, or does nothing
(`Counts.pool_cases`).

For a declaration a takeover moves the count to the narrower set. The sum stays, and the wider set
is left without a count for good (`Counts.Grows`). A set that has taken over others may be taken
over itself, but then by a proper subset of it: whoever looks for what became of a lost count goes
from set to proper subset, and finds a set that has one. This is `Histogram.Conserved`, which holds
after every step. A round also settles its observation: a wider set is left with a count beside it
only if that count is the greater one (`Histogram.Settled`). What both say of all rounds together is
`Histogram.pooled_declaration_conserves`.
-/

namespace ErrorReturns

open Checked
open Histogram (total)

namespace Counts

/-! ## One step -/

/-- **A takeover**: the observation of `a` at `i` may take over the count of the one of `b` at
`j`. -/
structure Takes (declaration : Bool) (counts : Counts) (i j : Nat) (a b : RangeSet) (n m : Nat) :
    Prop where
  taker : counts[i]? = some (a, n)
  taken : counts[j]? = some (b, m)
  ne : i ≠ j
  pos : m ≠ 0
  le : m ≤ n
  nested : (if declaration then a.isSubset b else b.isSubset a) = true

variable {declaration : Bool} {counts : Counts} {i j n m : Nat} {a b : RangeSet}

/-- A takeover adds up the two counts. -/
theorem Takes.pool_eq (h : Takes declaration counts i j a b n m) :
    pool declaration i counts j = (do
      let sum ← Count.add n m
      return if declaration then (counts.setIfInBounds i (a, sum)).setIfInBounds j (b, 0)
        else counts.setIfInBounds i (a, sum)) := by
  unfold pool
  rw [h.taker, h.taken]
  exact if_pos ⟨h.ne, h.pos, h.le, h.nested⟩

/-- **Without a takeover nothing changes.** -/
theorem pool_cases (declaration : Bool) (i : Nat) (counts : Counts) (j : Nat) :
    (∃ a b n m, Takes declaration counts i j a b n m) ∨
      (∀ a b n m, ¬ Takes declaration counts i j a b n m) ∧
        pool declaration i counts j = .ok counts := by
  by_cases h : ∃ a b n m, Takes declaration counts i j a b n m
  · exact Or.inl h
  · simp only [not_exists] at h
    refine Or.inr ⟨h, ?_⟩
    unfold pool
    split
    case h_1 a n b m hi hj =>
      exact if_neg fun hpool => h a b n m ⟨hi, hj, hpool.1, hpool.2.1, hpool.2.2.1, hpool.2.2.2⟩
    case h_2 => rfl

/-- The counts after the one at `j` has been moved to the one at `i`. -/
def moved (counts : Counts) (i j : Nat) (a b : RangeSet) (sum : Nat) : Counts :=
  (counts.setIfInBounds i (a, sum)).setIfInBounds j (b, 0)

theorem Takes.getElem?_moved (h : Takes true counts i j a b n m) (sum k : Nat) :
    (counts.moved i j a b sum)[k]? =
      if k = j then some (b, 0) else if k = i then some (a, sum) else counts[k]? := by
  obtain ⟨hi, -⟩ := Array.getElem?_eq_some_iff.mp h.taker
  obtain ⟨hj, -⟩ := Array.getElem?_eq_some_iff.mp h.taken
  rw [moved, Array.getElem?_setIfInBounds, Array.getElem?_setIfInBounds,
    Array.size_setIfInBounds, if_pos hi, if_pos hj]
  simp only [eq_comm]

theorem Takes.add_le_total (h : Takes true counts i j a b n m) : n + m ≤ total counts.toList :=
  Histogram.add_le_total (Array.getElem?_toList ▸ h.taker) (Array.getElem?_toList ▸ h.taken) h.ne

/-- Counts that are a word together can be moved. -/
theorem Takes.pool_true_eq (h : Takes true counts i j a b n m)
    (htotal : total counts.toList < Word.count 32) :
    pool true i counts j = .ok (counts.moved i j a b (n + m)) := by
  rw [h.pool_eq, Count.add_eq_ok (Nat.lt_of_le_of_lt h.add_le_total htotal)]
  rfl

/-- A count is moved, so that the sum stays the same. -/
theorem Takes.total_moved (h : Takes true counts i j a b n m) :
    total (counts.moved i j a b (n + m)).toList = total counts.toList := by
  have hi : counts.toList[i]? = some (a, n) := Array.getElem?_toList ▸ h.taker
  have hj : counts.toList[j]? = some (b, m) := Array.getElem?_toList ▸ h.taken
  rw [moved, Array.toList_setIfInBounds, Array.toList_setIfInBounds]
  have hj' : (counts.toList.set i (a, n + m))[j]? = some (b, m) :=
    (List.getElem?_set_ne h.ne).trans hj
  have hset := Histogram.total_set hi (a, n + m)
  have hset' := Histogram.total_set hj' (b, 0)
  dsimp only at hset hset'
  omega

/-- **What moving counts may do to them**: the sets stay as they are, and each count stays, grows or
is lost for good. -/
structure Grows (counts counts' : Counts) : Prop where
  size_eq : counts'.size = counts.size
  entry : ∀ (k : Nat) (x : RangeSet × Nat), counts[k]? = some x →
    ∃ n, counts'[k]? = some (x.1, n) ∧ (n = 0 ∨ x.2 ≠ 0 ∧ x.2 ≤ n)

theorem Grows.refl (counts : Counts) : Grows counts counts where
  size_eq := rfl
  entry k x hx := by
    refine ⟨x.2, hx, ?_⟩
    omega

/-- What one round may do to counts, several may. -/
theorem Grows.trans {counts₁ counts₂ counts₃ : Counts} (h : Grows counts₁ counts₂)
    (h' : Grows counts₂ counts₃) : Grows counts₁ counts₃ where
  size_eq := h'.size_eq.trans h.size_eq
  entry k x hx := by
    obtain ⟨n, hn, hgrows⟩ := h.entry k x hx
    obtain ⟨n', hn', hgrows'⟩ := h'.entry k _ hn
    refine ⟨n', hn', ?_⟩
    dsimp only at hgrows'
    omega

theorem Grows.exists_before {counts counts' : Counts} (h : Grows counts counts') {k : Nat}
    {s : RangeSet} {n' : Nat} (hk : counts'[k]? = some (s, n')) :
    ∃ n, counts[k]? = some (s, n) ∧ (n' = 0 ∨ n ≠ 0 ∧ n ≤ n') := by
  obtain ⟨hlt, -⟩ := Array.getElem?_eq_some_iff.mp hk
  have hx := Array.getElem?_eq_getElem (h.size_eq ▸ hlt)
  obtain ⟨n, hn, hgrows⟩ := h.entry k _ hx
  obtain ⟨rfl, rfl⟩ := Prod.mk.inj (Option.some.inj (hk.symm.trans hn))
  exact ⟨_, hx, hgrows⟩

/-- A set that takes over another one grows, and the other is lost. -/
theorem Takes.grows_moved (h : Takes true counts i j a b n m) :
    Grows counts (counts.moved i j a b (n + m)) where
  size_eq := by rw [moved, Array.size_setIfInBounds, Array.size_setIfInBounds]
  entry k x hx := by
    have hpos := h.pos
    have hle := h.le
    rw [h.getElem?_moved]
    by_cases hj : k = j
    · obtain rfl := Option.some.inj (hx.symm.trans (hj ▸ h.taken))
      exact ⟨0, if_pos hj, Or.inl rfl⟩
    · rw [if_neg hj]
      by_cases hi : k = i
      · obtain rfl := Option.some.inj (hx.symm.trans (hi ▸ h.taker))
        refine ⟨n + m, if_pos hi, Or.inr ?_⟩
        dsimp only
        omega
      · rw [if_neg hi]
        exact (Grows.refl counts).entry k x hx

/-- The one that takes over keeps a count. -/
theorem Takes.taker_moved (h : Takes true counts i j a b n m) :
    (counts.moved i j a b (n + m))[i]? = some (a, n + m) ∧ n + m ≠ 0 := by
  have hpos := h.pos
  rw [h.getElem?_moved, if_neg h.ne, if_pos rfl]
  exact ⟨rfl, by omega⟩

/-- Only the observation that is taken over loses its count. -/
theorem Takes.eq_of_lost (h : Takes true counts i j a b n m) {k n' : Nat} {c : RangeSet}
    (hk : counts[k]? = some (c, n')) (hn' : n' ≠ 0)
    (hlost : (counts.moved i j a b (n + m))[k]? = some (c, 0)) : c = b := by
  have hpos := h.pos
  rw [h.getElem?_moved] at hlost
  split at hlost
  · exact (Prod.mk.inj (Option.some.inj hlost)).1.symm
  · split at hlost
    · obtain ⟨-, hzero⟩ := Prod.mk.inj (Option.some.inj hlost)
      omega
    · exact absurd (Prod.mk.inj (Option.some.inj (hk.symm.trans hlost))).2 hn'

/-- The sets stay as they are. -/
theorem Grows.map_fst_eq {counts counts' : Counts} (h : Grows counts counts') :
    counts'.toList.map (·.1) = counts.toList.map (·.1) := by
  refine List.ext_getElem? fun k => ?_
  rw [List.getElem?_map, List.getElem?_map, Array.getElem?_toList, Array.getElem?_toList]
  cases hk : counts[k]? with
  | none =>
    have hsize : counts'.size ≤ k := h.size_eq ▸ Array.getElem?_eq_none_iff.mp hk
    rw [Array.getElem?_eq_none_iff.mpr hsize]
  | some x =>
    obtain ⟨n, hn, -⟩ := h.entry k x hk
    rw [hn]
    rfl

end Counts

/-! ## Declarations -/

namespace Histogram

open Counts (Grows Takes pool_cases)

variable {h : Histogram} {counts : Counts} {i j : Nat}

/-- **Nothing is lost** of the observations of a histogram: the sets and the sum of the counts stay
as they are, counts grow or go to another set as a whole, and a set without a count has a proper
subset with one. -/
structure Conserved (h : Histogram) (counts : Counts) : Prop where
  grows : Grows h.entries.toArray counts
  total_eq : total counts.toList = total h.entries
  heir : ∀ (k : Nat) (b : RangeSet), counts[k]? = some (b, 0) →
    ∃ (i : Nat) (a : RangeSet) (n : Nat), counts[i]? = some (a, n) ∧ n ≠ 0 ∧ a ⊂ b

theorem conserved_entries (hpos : ∀ e ∈ h.entries, 0 < e.2) :
    h.Conserved h.entries.toArray where
  grows := Grows.refl _
  total_eq := rfl
  heir k b hk := by
    rw [List.getElem?_toArray] at hk
    exact absurd (hpos _ (List.mem_of_getElem? hk)) (Nat.lt_irrefl 0)

namespace Conserved

variable (hc : h.Conserved counts) (hh : h.Proper) (htotal : total h.entries < Word.count 32)
include hc

theorem exists_before {k : Nat} {s : RangeSet} {n' : Nat} (hk : counts[k]? = some (s, n')) :
    ∃ n, h.entries[k]? = some (s, n) ∧ (n' = 0 ∨ n ≠ 0 ∧ n ≤ n') := by
  obtain ⟨n, hn, hgrows⟩ := hc.grows.exists_before hk
  exact ⟨n, List.getElem?_toArray ▸ hn, hgrows⟩

include hh

theorem canonical {k : Nat} {s : RangeSet} {n : Nat} (hk : counts[k]? = some (s, n)) :
    s.Canonical := by
  obtain ⟨m, hm, -⟩ := hc.exists_before hk
  exact (hh _ (List.mem_of_getElem? hm)).1

theorem ssubset_of_takes {a b : RangeSet} {n m : Nat} (ht : Takes true counts i j a b n m) :
    a ⊂ b := by
  refine ((hc.canonical hh ht.taker).ssubset_iff (hc.canonical hh ht.taken)).mpr ⟨ht.nested, ?_⟩
  rintro rfl
  obtain ⟨n₀, hi, -⟩ := hc.exists_before ht.taker
  obtain ⟨m₀, hj, -⟩ := hc.exists_before ht.taken
  exact ht.ne (getElem?_inj h.nodup_keys hi hj)

/-- **A takeover loses nothing.** -/
theorem moved {a b : RangeSet} {n m : Nat} (ht : Takes true counts i j a b n m) :
    h.Conserved (counts.moved i j a b (n + m)) := by
  have hgrows := ht.grows_moved
  have hab := hc.ssubset_of_takes hh ht
  obtain ⟨htaker, hkept⟩ := ht.taker_moved
  refine ⟨hc.grows.trans hgrows, ht.total_moved.trans hc.total_eq, fun k c hk => ?_⟩
  obtain ⟨p, hp, -⟩ := hgrows.exists_before hk
  by_cases hlost : p = 0
  · -- an heir that has been taken over itself leaves what it had to the taker
    subst hlost
    obtain ⟨l, d, q, hl, hq, hdc⟩ := hc.heir k c hp
    obtain ⟨q', hq', -⟩ := hgrows.entry l _ hl
    by_cases hlost : q' = 0
    · subst hlost
      obtain rfl := ht.eq_of_lost hl hq hq'
      exact ⟨i, a, n + m, htaker, hkept, RangeSet.ssubset_trans hab hdc⟩
    · exact ⟨l, d, q', hq', hlost, hdc⟩
  · obtain rfl := ht.eq_of_lost hp hlost hk
    exact ⟨i, a, n + m, htaker, hkept, hab⟩

end Conserved

/-- Whether the observation at `i` has had its turn with the one at `j`: a proper superset of it
that still has a count has a greater one than the set at `i` had at first, unless that one is lost.
-/
def Settled (h : Histogram) (counts : Counts) (i j : Nat) : Prop :=
  ∀ a b n n' m', h.entries[i]? = some (a, n) → counts[i]? = some (a, n') →
    counts[j]? = some (b, m') → a ⊂ b → n' ≠ 0 → m' ≠ 0 → n < m'

/-- Counts that stay or grow stay settled. -/
theorem Settled.of_grows {counts' : Counts} (hs : h.Settled counts i j)
    (hgrows : Grows counts counts') : h.Settled counts' i j := by
  intro a b n n' m' hi hi' hj' hab hn' hm'
  obtain ⟨n₁, hn₁, hn₁'⟩ := hgrows.exists_before hi'
  obtain ⟨m₁, hm₁, hm₁'⟩ := hgrows.exists_before hj'
  have := hs a b n n₁ m₁ hi hn₁ hm₁ hab (by omega) (by omega)
  omega

namespace Conserved

variable (hc : h.Conserved counts) (hh : h.Proper) (htotal : total h.entries < Word.count 32)
include hc hh

/-- Two observations without a takeover are settled as they are. -/
theorem settled_of_not_takes (hnot : ∀ a b n m, ¬ Takes true counts i j a b n m) :
    h.Settled counts i j := by
  intro a b n n' m' hi hi' hj' hab hn' hm'
  obtain ⟨n₀, hn₀, hle⟩ := hc.exists_before hi'
  obtain ⟨-, rfl⟩ := Prod.mk.inj (Option.some.inj (hi.symm.trans hn₀))
  obtain ⟨hsubset, hne⟩ := ((hc.canonical hh hi').ssubset_iff (hc.canonical hh hj')).mp hab
  have hij : i ≠ j := by
    rintro rfl
    exact hne (Prod.mk.inj (Option.some.inj (hi'.symm.trans hj'))).1
  have hmore : ¬ m' ≤ n' := fun hle => hnot a b n' m' ⟨hi', hj', hij, hm', hle, hsubset⟩
  omega

include htotal

/-- **One step loses nothing**, and it settles the two observations that it looks at. -/
theorem meets_pool {F : Fault → Prop} (i j : Nat) :
    Meets F (fun counts' => h.Conserved counts' ∧ Grows counts counts' ∧ h.Settled counts' i j)
      (Counts.pool true i counts j) := by
  rcases pool_cases true i counts j with ⟨a, b, n, m, ht⟩ | ⟨hnot, heq⟩
  · rw [ht.pool_true_eq (hc.total_eq ▸ htotal)]
    refine meets_ok ⟨hc.moved hh ht, ht.grows_moved, fun a' b' p p' q' _ _ hj' _ _ hq' => ?_⟩
    -- what is taken over has no count
    rw [ht.getElem?_moved, if_pos rfl] at hj'
    exact absurd (Prod.mk.inj (Option.some.inj hj')).2.symm hq'
  · rw [heq]
    exact meets_ok ⟨hc, Grows.refl counts, hc.settled_of_not_takes hh hnot⟩

/-- **One round loses nothing**, and it settles the observation that it is about. -/
theorem meets_poolInto {F : Fault → Prop} (i : Nat) :
    Meets F (fun counts' => h.Conserved counts' ∧ Grows counts counts' ∧
      ∀ j, h.Settled counts' i j) (Counts.poolInto true counts i) := by
  unfold Counts.poolInto
  split
  case isTrue =>
    refine (meets_foldlM_forall_mem (I := fun c => h.Conserved c ∧ Grows counts c)
      (R := fun j c => h.Settled c i j) (fun c hc' j _ => ?_) ⟨hc, Grows.refl counts⟩).imp
      fun c ⟨⟨hc', hgrows⟩, hsettled⟩ => ⟨hc', hgrows, fun j a b n n' m' hi hi' hj' => ?_⟩
    · refine (hc'.1.meets_pool hh htotal i j).imp fun c' ⟨hconserved, hgrows, hsettled⟩ => ?_
      exact ⟨⟨hconserved, hc'.2.trans hgrows⟩, hsettled, fun _ hs => hs.of_grows hgrows⟩
    · have hlt := (Array.getElem?_eq_some_iff.mp hj').1
      exact hsettled j (List.mem_range.mpr (hgrows.size_eq ▸ hlt)) a b n n' m' hi hi' hj'
  case isFalse hzero =>
    refine meets_pure ⟨hc, Grows.refl counts, fun j a b n n' m' _ hi' _ _ hn' _ => ?_⟩
    rw [hi'] at hzero
    exact absurd (bne_iff_ne.mpr hn') hzero

end Conserved

/-- **Pooling for a declaration loses nothing**, and settles every two observations. -/
theorem exists_conserved_pooled (hh : h.Proper) (hpos : ∀ e ∈ h.entries, 0 < e.2)
    (htotal : total h.entries < Word.count 32) :
    ∃ counts, h.pooled true = .ok counts ∧ h.Conserved counts ∧
      ∀ i j, h.Settled counts i j := by
  refine (Meets.imp (meets_foldlM_forall_mem (I := h.Conserved)
    (R := fun i c => ∀ j, h.Settled c i j) (fun c hc i _ => ?_) (conserved_entries hpos))
    fun c ⟨hc, hsettled⟩ => ⟨hc, fun i j a b n n' m' hi => ?_⟩).exists_eq_ok
  · refine (hc.meets_poolInto hh htotal i).imp fun c' ⟨hconserved, hgrows, hsettled⟩ => ?_
    exact ⟨hconserved, hsettled, fun _ hs j => (hs j).of_grows hgrows⟩
  · have hlt := (List.getElem?_eq_some_iff.mp hi).1
    exact hsettled i (List.mem_range.mpr hlt) j a b n n' m' hi

/-- **Pooling for a declaration conserves the observations.** If all counts together are a word, it
has a result. The sets and the sum of the counts stay as they are. A set that is left without a
count has a proper subset with one, so that a set without proper subsets keeps at least the count it
had. A set with a count beside a proper subset with one has more than was observed of the subset. -/
theorem pooled_declaration_conserves (hh : h.Proper) (hpos : ∀ e ∈ h.entries, 0 < e.2)
    (htotal : total h.entries < Word.count 32) :
    ∃ counts, h.pooled true = .ok counts ∧
    counts.toList.map (·.1) = h.keys ∧
    total counts.toList = total h.entries ∧
    (∀ x ∈ counts, x.2 = 0 → ∃ y ∈ counts, y.2 ≠ 0 ∧ y.1 ⊂ x.1) ∧
    (∀ e ∈ h.entries, (∀ s ∈ h.keys, ¬ s ⊂ e.1) → ∃ x ∈ counts, x.1 = e.1 ∧ e.2 ≤ x.2) ∧
    ∀ e ∈ h.entries, ∀ x ∈ counts, ∀ y ∈ counts,
      x.1 = e.1 → x.1 ⊂ y.1 → x.2 ≠ 0 → y.2 ≠ 0 → e.2 < y.2 := by
  obtain ⟨counts, hpooled, hc, hsettled⟩ := exists_conserved_pooled hh hpos htotal
  have hkeys : counts.toList.map (·.1) = h.keys := hc.grows.map_fst_eq
  have hheir : ∀ x ∈ counts, x.2 = 0 → ∃ y ∈ counts, y.2 ≠ 0 ∧ y.1 ⊂ x.1 := by
    rintro ⟨b, -⟩ hx rfl
    obtain ⟨k, hk⟩ := Array.mem_iff_getElem?.mp hx
    obtain ⟨i, a, n, hi, hn, hab⟩ := hc.heir k b hk
    exact ⟨(a, n), Array.mem_of_getElem? hi, hn, hab⟩
  refine ⟨counts, hpooled, hkeys, hc.total_eq, hheir, fun e he hleast => ?_, ?_⟩
  · obtain ⟨k, hk⟩ := List.mem_iff_getElem?.mp he
    obtain ⟨n, hn, hzero | ⟨-, hle⟩⟩ := hc.grows.entry k e (List.getElem?_toArray ▸ hk)
    · obtain ⟨y, hy, -, hsub⟩ := hheir _ (Array.mem_of_getElem? hn) hzero
      have hkey : y.1 ∈ h.keys := hkeys ▸ List.mem_map_of_mem (Array.mem_toList_iff.mpr hy)
      exact absurd hsub (hleast y.1 hkey)
    · exact ⟨_, Array.mem_of_getElem? hn, rfl, hle⟩
  · rintro ⟨a, n⟩ he ⟨a', n'⟩ hx ⟨b, m'⟩ hy heq hab hn' hm'
    obtain rfl : a' = a := heq
    obtain ⟨i, hi⟩ := List.mem_iff_getElem?.mp he
    obtain ⟨i', hi'⟩ := Array.mem_iff_getElem?.mp hx
    obtain ⟨j, hj⟩ := Array.mem_iff_getElem?.mp hy
    obtain ⟨n₀, hn₀, -⟩ := hc.exists_before hi'
    obtain rfl := getElem?_inj h.nodup_keys hi hn₀
    exact hsettled i j a' b n n' m' hi hi' hj hab hn' hm'

/-- Negative values: all from -3 on, all from -2 on, and -1 alone, which was observed twice. -/
def narrowing : Histogram :=
  ⟨[(.ofRange (-3) (-1), 1), (.ofRange (-2) (-1), 1), (.singleton (-1), 2)], by decide⟩

/-- The set in the middle takes over the count of the widest and is then taken over itself, so that
in the end -1 alone has every count. -/
theorem narrowing_conserved :
    narrowing.Proper ∧ (∀ e ∈ narrowing.entries, 0 < e.2) ∧
    total narrowing.entries < Word.count 32 ∧
    ∃ counts, narrowing.pooled true = .ok counts ∧ counts.toList.map (·.2) = [0, 0, 4] ∧
      counts.toList.map (·.1) = narrowing.keys ∧ total counts.toList = total narrowing.entries ∧
      ∃ y ∈ counts, y.2 ≠ 0 ∧ y.1 ⊂ .ofRange (-3) (-1) := by
  have hrun : narrowing.pooled true =
      .ok #[(.ofRange (-3) (-1), 0), (.ofRange (-2) (-1), 0), (.singleton (-1), 4)] := by decide
  obtain ⟨counts, hpooled, hkeys, htotal, hheir, -, -⟩ :=
    pooled_declaration_conserves (h := narrowing) (by decide) (by decide) (by decide)
  obtain rfl := Except.ok.inj (hrun.symm.trans hpooled)
  exact ⟨by decide, by decide, by decide, _, hrun, rfl, hkeys, htotal,
    hheir (.ofRange (-3) (-1), 0) (Array.mem_toList_iff.mp (by decide)) rfl⟩

end Histogram

end ErrorReturns
