import ErrorReturns.Summary.CommonSubsequence
import Mathlib.Data.Fin.Basic
import Mathlib.Data.List.NodupEquivFin
import Mathlib.Order.Bounds.Lattice

/-!
# Longest common subsequences are longest

A common subsequence of two lists is given by places in the one and places in the other, both in
increasing order, whose elements correspond one by one (`CommonSubsequence.HasCommon`). Nothing is
asked of the relation that says which elements correspond: it need not be symmetric, nor reflexive,
nor transitive.

The computed number is the greatest length that a common subsequence can have
(`CommonSubsequence.length_isGreatest`). The rows of the table are read by `RowFrom`: a row that
belongs to a beginning of the longer list holds the greatest lengths for all beginnings of the
shorter one. An entry is found from its three neighbours. If the two new elements correspond, then
the entry is one more than its diagonal neighbour, and the other two neighbours need not be looked
at, since leaving out the last place on both sides makes any common subsequence shorter by one only
(`HasCommon.dropLast`).
-/

namespace ErrorReturns.CommonSubsequence

open List (Forall₂)

variable {α β : Type} {R : α → β → Prop} {xs : List α} {ys : List β} {n : Nat}

/-! ## Common subsequences -/

/-- **A common subsequence of length `n`**: places in two lists, in increasing order, whose elements
correspond. -/
def HasCommon (R : α → β → Prop) (xs : List α) (ys : List β) (n : Nat) : Prop :=
  ∃ (i : Fin n → Fin xs.length) (j : Fin n → Fin ys.length), StrictMono i ∧ StrictMono j ∧
    ∀ k, R (xs.get (i k)) (ys.get (j k))

theorem ofFn_sublist {i : Fin n → Fin xs.length} (hi : StrictMono i) :
    (List.ofFn fun k => xs.get (i k)).Sublist xs := by
  rw [List.sublist_iff_exists_fin_orderEmbedding_get_eq]
  refine ⟨.ofStrictMono (fun k => i (k.cast List.length_ofFn)) fun a b hab => hi hab, fun k => ?_⟩
  exact List.get_ofFn _ _

/-- The elements at increasing places are a sublist. -/
theorem hasCommon_iff : HasCommon R xs ys n ↔
    ∃ us vs, us.Sublist xs ∧ vs.Sublist ys ∧ us.length = n ∧ Forall₂ R us vs := by
  constructor
  · rintro ⟨i, j, hi, hj, hR⟩
    refine ⟨_, _, ofFn_sublist hi, ofFn_sublist hj, List.length_ofFn, ?_⟩
    rw [List.forall₂_iff_get]
    refine ⟨by rw [List.length_ofFn, List.length_ofFn], fun k hu hv => ?_⟩
    rw [List.get_ofFn, List.get_ofFn]
    exact hR _
  · rintro ⟨us, vs, hus, hvs, rfl, hR⟩
    obtain ⟨f, hf⟩ := List.sublist_iff_exists_fin_orderEmbedding_get_eq.mp hus
    obtain ⟨g, hg⟩ := List.sublist_iff_exists_fin_orderEmbedding_get_eq.mp hvs
    refine ⟨f, fun k => g (k.cast hR.length_eq), f.strictMono, fun a b hab => g.strictMono hab, ?_⟩
    intro k
    rw [← hf, ← hg]
    exact hR.get _ _

theorem hasCommon_zero : HasCommon R xs ys 0 :=
  hasCommon_iff.mpr ⟨[], [], xs.nil_sublist, ys.nil_sublist, rfl, .nil⟩

/-- A sublist of a list with a new last element leaves the new element out, or ends in it. -/
theorem sublist_concat_cases {us : List α} {x : α} (h : us.Sublist (xs ++ [x])) :
    us.Sublist xs ∨ ∃ us', us = us' ++ [x] ∧ us'.Sublist xs := by
  obtain ⟨us', last, rfl, hus', hlast⟩ := List.sublist_append_iff.mp h
  rcases List.sublist_singleton.mp hlast with rfl | rfl
  · rw [List.append_nil]
    exact Or.inl hus'
  · exact Or.inr ⟨us', rfl, hus'⟩

theorem dropLast_sublist_of_concat {us : List α} {x : α} (h : us.Sublist (xs ++ [x])) :
    us.dropLast.Sublist xs := by
  rcases sublist_concat_cases h with h | ⟨us', rfl, h⟩
  · exact us.dropLast_sublist.trans h
  · rwa [List.dropLast_concat]

namespace HasCommon

/-- Two more elements that correspond. -/
theorem concat (h : HasCommon R xs ys n) {x : α} {y : β} (hxy : R x y) :
    HasCommon R (xs ++ [x]) (ys ++ [y]) (n + 1) := by
  obtain ⟨us, vs, hus, hvs, rfl, hR⟩ := hasCommon_iff.mp h
  refine hasCommon_iff.mpr
    ⟨us ++ [x], vs ++ [y], hus.append_right [x], hvs.append_right [y], ?_, ?_⟩
  · exact List.length_append
  · exact List.rel_append hR (.cons hxy .nil)

/-- Without the last place on both sides, a common subsequence is one of the lists without their
last elements, whether these correspond or not. -/
theorem dropLast {x : α} {y : β} (h : HasCommon R (xs ++ [x]) (ys ++ [y]) (n + 1)) :
    HasCommon R xs ys n := by
  obtain ⟨us, vs, hus, hvs, hlength, hR⟩ := hasCommon_iff.mp h
  refine hasCommon_iff.mpr ⟨us.dropLast, vs.dropLast, dropLast_sublist_of_concat hus,
    dropLast_sublist_of_concat hvs, ?_, ?_⟩
  · rw [List.length_dropLast, hlength, Nat.add_sub_cancel]
  · rw [List.dropLast_eq_take, List.dropLast_eq_take, ← hR.length_eq]
    exact List.forall₂_take _ hR

theorem mono {xs' : List α} {ys' : List β} (h : HasCommon R xs ys n) (hxs : xs.Sublist xs')
    (hys : ys.Sublist ys') : HasCommon R xs' ys' n := by
  obtain ⟨us, vs, hus, hvs, hlength, hR⟩ := hasCommon_iff.mp h
  exact hasCommon_iff.mpr ⟨us, vs, hus.trans hxs, hvs.trans hys, hlength, hR⟩

theorem le_length (h : HasCommon R xs ys n) : n ≤ ys.length := by
  obtain ⟨us, vs, -, hvs, rfl, hR⟩ := hasCommon_iff.mp h
  rw [hR.length_eq]
  exact hvs.length_le

theorem congr {S : α → β → Prop} (h : HasCommon R xs ys n)
    (hS : ∀ x ∈ xs, ∀ y ∈ ys, R x y → S x y) : HasCommon S xs ys n := by
  obtain ⟨i, j, hi, hj, hR⟩ := h
  exact ⟨i, j, hi, hj, fun k => hS _ (xs.get_mem (i k)) _ (ys.get_mem (j k)) (hR k)⟩

theorem flip (h : HasCommon R xs ys n) : HasCommon (fun y x => R x y) ys xs n := by
  obtain ⟨i, j, hi, hj, hR⟩ := h
  exact ⟨j, i, hj, hi, hR⟩

end HasCommon

/-- If the last elements do not correspond, one of them is left out. -/
theorem hasCommon_concat_iff {x : α} {y : β} (hxy : ¬ R x y) :
    HasCommon R (xs ++ [x]) (ys ++ [y]) n ↔
      HasCommon R (xs ++ [x]) ys n ∨ HasCommon R xs (ys ++ [y]) n := by
  constructor
  · intro h
    obtain ⟨us, vs, hus, hvs, hlength, hR⟩ := hasCommon_iff.mp h
    rcases sublist_concat_cases hus with hus' | ⟨us', rfl, -⟩
    · exact Or.inr (hasCommon_iff.mpr ⟨us, vs, hus', hvs, hlength, hR⟩)
    rcases sublist_concat_cases hvs with hvs' | ⟨vs', rfl, -⟩
    · exact Or.inl (hasCommon_iff.mpr ⟨_, vs, hus, hvs', hlength, hR⟩)
    · have hlast := List.rel_reverse hR
      rw [List.reverse_concat, List.reverse_concat, List.forall₂_cons] at hlast
      exact absurd hlast.1 hxy
  · rintro (h | h)
    · exact h.mono (.refl _) (ys.sublist_append_left [y])
    · exact h.mono (xs.sublist_append_left [x]) (.refl _)

/-! ## Longest ones -/

/-- The greatest length of a common subsequence. -/
def IsLongest (R : α → β → Prop) (xs : List α) (ys : List β) (n : Nat) : Prop :=
  IsGreatest {n | HasCommon R xs ys n} n

theorem isLongest_nil_left : IsLongest R [] ys 0 :=
  ⟨hasCommon_zero, fun _ hn => (HasCommon.flip hn).le_length⟩

theorem isLongest_nil_right : IsLongest R xs [] 0 :=
  ⟨hasCommon_zero, fun _ hn => HasCommon.le_length hn⟩

namespace IsLongest

theorem hasCommon (h : IsLongest R xs ys n) : HasCommon R xs ys n := h.1

theorem le (h : IsLongest R xs ys n) {k : Nat} (hk : HasCommon R xs ys k) : k ≤ n := h.2 hk

/-- Only the elements of the two lists matter. -/
theorem congr {S : α → β → Prop} (h : IsLongest R xs ys n)
    (hS : ∀ x ∈ xs, ∀ y ∈ ys, R x y ↔ S x y) : IsLongest S xs ys n := by
  refine ⟨h.hasCommon.congr fun x hx y hy => (hS x hx y hy).mp, fun k hk => h.le ?_⟩
  exact HasCommon.congr hk fun x hx y hy => (hS x hx y hy).mpr

theorem flip (h : IsLongest R xs ys n) : IsLongest (fun y x => R x y) ys xs n :=
  ⟨h.hasCommon.flip, fun k (hk : HasCommon _ ys xs k) => h.le hk.flip⟩

variable {x : α} {y : β} {diagonal left up : Nat}

/-- The diagonal neighbour alone counts where the new elements correspond. -/
theorem concat_of_rel (h : IsLongest R xs ys diagonal) (hxy : R x y) :
    IsLongest R (xs ++ [x]) (ys ++ [y]) (diagonal + 1) := by
  refine ⟨h.hasCommon.concat hxy, fun n hn => ?_⟩
  cases n with
  | zero => exact Nat.zero_le _
  | succ n => exact Nat.succ_le_succ (h.le (HasCommon.dropLast hn))

/-- The greater one of the other neighbours counts where they do not. -/
theorem concat_of_not_rel (hleft : IsLongest R (xs ++ [x]) ys left)
    (hup : IsLongest R xs (ys ++ [y]) up) (hxy : ¬ R x y) :
    IsLongest R (xs ++ [x]) (ys ++ [y]) (max left up) := by
  have hsets : {n | HasCommon R (xs ++ [x]) (ys ++ [y]) n} =
      {n | HasCommon R (xs ++ [x]) ys n} ∪ {n | HasCommon R xs (ys ++ [y]) n} :=
    Set.ext fun n => hasCommon_concat_iff hxy
  rw [IsLongest, hsets]
  exact hleft.union hup

end IsLongest

/-! ## Rows of the table -/

/-- **What a row holds**: for the elements `xs` of the longer list that have been gone through, the
greatest lengths for the beginning `ys` of the shorter list and for all longer ones, up to the one
that the elements `rest` complete. -/
inductive RowFrom (R : α → β → Prop) (xs : List α) : List β → List β → List Nat → Prop
  | last {ys : List β} {n : Nat} (h : IsLongest R xs ys n) : RowFrom R xs ys [] [n]
  | cons {ys rest : List β} {y : β} {n : Nat} {row : List Nat} (h : IsLongest R xs ys n)
      (hrow : RowFrom R xs (ys ++ [y]) rest row) : RowFrom R xs ys (y :: rest) (n :: row)

namespace RowFrom

variable {rest : List β} {row : List Nat}

theorem exists_cons (h : RowFrom R xs ys rest row) :
    ∃ n row', row = n :: row' ∧ IsLongest R xs ys n := by
  cases h with
  | last h | cons h _ => exact ⟨_, _, rfl, h⟩

/-- Before any element there is nothing in common. -/
theorem zero (ys rest : List β) : RowFrom R [] ys rest (List.replicate (rest.length + 1) 0) := by
  induction rest generalizing ys with
  | nil => exact .last isLongest_nil_left
  | cons y rest ih => exact .cons isLongest_nil_left (ih (ys ++ [y]))

/-- The last entry of a row is the length for both whole sequences. -/
theorem exists_getLast? (h : RowFrom R xs ys rest row) :
    ∃ n, row.getLast? = some n ∧ IsLongest R xs (ys ++ rest) n := by
  induction h with
  | @last ys n h =>
    rw [List.append_nil]
    exact ⟨n, rfl, h⟩
  | @cons ys rest y n row h hrow ih =>
    obtain ⟨m, hm, hlongest⟩ := ih
    obtain ⟨n', row', rfl, -⟩ := hrow.exists_cons
    rw [← List.append_cons] at hlongest
    exact ⟨m, hm, hlongest⟩

variable {rel : α → β → Bool}

/-- **One step of a row.** The entries that follow `left` in the row of the new element `x`. -/
theorem extend {above : List Nat} (h : RowFrom (fun x y => rel x y = true) xs ys rest above) {x : α}
    {left : Nat} (hleft : IsLongest (fun x y => rel x y = true) (xs ++ [x]) ys left) :
    RowFrom (fun x y => rel x y = true) (xs ++ [x]) ys rest
      (left :: extendRow left above (rest.map (rel x))) := by
  induction h generalizing left with
  | last _ => exact .last hleft
  | @cons ys rest y diagonal above hdiagonal habove ih =>
    obtain ⟨up, above', rfl, hup⟩ := habove.exists_cons
    refine .cons hleft (ih ?_)
    by_cases hxy : rel x y = true
    · rw [if_pos hxy]
      exact hdiagonal.concat_of_rel hxy
    · rw [if_neg hxy]
      exact hleft.concat_of_not_rel hup hxy

/-- **All rows.** Each element of the longer list adds one row. -/
theorem foldl_nextRow {short : List β}
    (h : RowFrom (fun x y => rel x y = true) xs [] short row) (long : List α) :
    RowFrom (fun x y => rel x y = true) (xs ++ long) [] short
      ((long.map fun x => short.map (rel x)).foldl nextRow row) := by
  induction long generalizing xs row with
  | nil =>
    rw [List.append_nil]
    exact h
  | cons x long ih =>
    rw [List.append_cons, List.map_cons, List.foldl_cons]
    exact ih (h.extend isLongest_nil_right)

end RowFrom

/-- **The table computes the greatest length** of a common subsequence. -/
theorem isLongest_lengthOfTable (rel : α → β → Bool) (long : List α) (short : List β) :
    IsLongest (fun x y => rel x y = true) long short
      (lengthOfTable short.length (long.map fun x => short.map (rel x))) := by
  have hrow := (RowFrom.zero (R := fun x y => rel x y = true) [] short).foldl_nextRow long
  obtain ⟨n, hn, hlongest⟩ := hrow.exists_getLast?
  rw [lengthOfTable, hn]
  exact hlongest

/-- A list as a whole has something in common with another one if it can be embedded into it. -/
theorem hasCommon_length_iff : HasCommon R xs ys ys.length ↔
    ∃ i : Fin ys.length → Fin xs.length, StrictMono i ∧ ∀ k, R (xs.get (i k)) (ys.get k) := by
  constructor
  · intro h
    obtain ⟨us, vs, hus, hvs, hlength, hR⟩ := hasCommon_iff.mp h
    obtain rfl := hvs.eq_of_length (hR.length_eq.symm.trans hlength)
    obtain ⟨f, hf⟩ := List.sublist_iff_exists_fin_orderEmbedding_get_eq.mp hus
    refine ⟨fun k => f (k.cast hlength.symm), fun a b hab => f.strictMono hab, fun k => ?_⟩
    rw [← hf]
    exact hR.get _ _
  · rintro ⟨i, hi, hR⟩
    exact ⟨i, id, hi, strictMono_id, hR⟩

/-- **The length is that of the longest common subsequence**, under any relation, whose left
arguments are taken from the longer list, and from the first one if both are equally long. It is the
length of the shorter list exactly when this list can be embedded into the longer one. -/
theorem length_isGreatest (rel : α → α → Bool) (a b : List α) :
    ∃ long short, (long, short) = (if a.length < b.length then (b, a) else (a, b)) ∧
      IsGreatest {n | ∃ (i : Fin n → Fin long.length) (j : Fin n → Fin short.length),
        StrictMono i ∧ StrictMono j ∧ ∀ k, rel (long.get (i k)) (short.get (j k)) = true}
        (length rel a b) ∧
      (length rel a b = short.length ↔ ∃ i : Fin short.length → Fin long.length,
        StrictMono i ∧ ∀ k, rel (long.get (i k)) (short.get k) = true) := by
  obtain ⟨long, short, harrange⟩ : ∃ long short, arrange a b = (long, short) := ⟨_, _, rfl⟩
  have hlongest : IsLongest (fun x y => rel x y = true) long short (length rel a b) := by
    rw [length, harrange]
    exact isLongest_lengthOfTable rel long short
  refine ⟨long, short, harrange.symm, hlongest, ?_⟩
  rw [← hasCommon_length_iff (R := fun x y => rel x y = true)]
  constructor
  · intro h
    exact h ▸ hlongest.hasCommon
  · intro h
    exact Nat.le_antisymm hlongest.hasCommon.le_length (hlongest.le h)

end ErrorReturns.CommonSubsequence
