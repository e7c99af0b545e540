import ErrorReturns.Histogram
import ErrorReturns.Proofs.Meets
import ErrorReturns.Proofs.RangeSet.Canonical
import ErrorReturns.Proofs.Table.Keys
import ErrorReturns.Proofs.Table.Lookup

/-!
# Counts of observations

A histogram is in form if its sets are canonical and its counts are words. The counts of a list of
entries are added up by `Histogram.total`, and this module says how the sum changes with the list:
entry by entry, under appending, and when entries are overwritten, reordered or left out. Of the
entries whose sets a map takes to one set, `Histogram.countInto` adds up the counts.
-/

namespace ErrorReturns

open Checked (Meets meets_ok)

namespace Count

variable {n m : Nat}

theorem add_eq_ok (h : n + m < Word.count 32) : add n m = .ok (n + m) := if_pos h

theorem add_eq_error (h : Word.count 32 ≤ n + m) : add n m = .error .countOverflow :=
  if_neg (Nat.not_lt.mpr h)

/-- **A sum of two counts** is their sum, unless it is no word. -/
theorem meets_add {F : Fault → Prop} (hF : Word.count 32 ≤ n + m → F .countOverflow) :
    Meets F (· = n + m) (add n m) := by
  rcases Nat.lt_or_ge (n + m) (Word.count 32) with h | h
  · rw [add_eq_ok h]
    exact meets_ok rfl
  · rw [add_eq_error h]
    exact hF h

end Count

namespace Histogram

/-- **A histogram in form**: its sets are canonical, and its counts are words. -/
def Proper (h : Histogram) : Prop := Table.All RangeSet.Canonical (· < Word.count 32) h

instance (h : Histogram) : Decidable h.Proper :=
  inferInstanceAs (Decidable (∀ e ∈ h.entries, e.1.Canonical ∧ e.2 < Word.count 32))

/-- Two entries for one set are one entry. -/
theorem getElem?_inj {es : List (RangeSet × Nat)} (hes : (es.map (·.1)).Nodup) {s : RangeSet}
    {i j n m : Nat} (hi : es[i]? = some (s, n)) (hj : es[j]? = some (s, m)) : i = j := by
  refine (List.getElem?_inj ?_ hes).mp ?_
  · rw [List.length_map]
    exact (List.getElem?_eq_some_iff.mp hi).1
  · rw [List.getElem?_map, List.getElem?_map, hi, hj]
    rfl

/-- How often any set was observed. -/
def total (es : List (RangeSet × Nat)) : Nat := es.foldr (fun e n => e.2 + n) 0

@[simp] theorem total_cons (e : RangeSet × Nat) (es : List (RangeSet × Nat)) :
    total (e :: es) = e.2 + total es := rfl

@[simp] theorem total_append (es es' : List (RangeSet × Nat)) :
    total (es ++ es') = total es + total es' := by
  induction es with
  | nil => exact (Nat.zero_add _).symm
  | cons e rest ih => rw [List.cons_append, total_cons, total_cons, ih, Nat.add_assoc]

theorem total_perm {es es' : List (RangeSet × Nat)} (h : es.Perm es') : total es = total es' := by
  induction h with
  | nil => rfl
  | cons e _ ih => rw [total_cons, total_cons, ih]
  | swap e e' rest =>
    simp only [total_cons]
    omega
  | trans _ _ ih ih' => exact ih.trans ih'

/-- No count is greater than the sum. -/
theorem le_total {es : List (RangeSet × Nat)} {e : RangeSet × Nat} (he : e ∈ es) :
    e.2 ≤ total es := by
  induction es with
  | nil => cases he
  | cons x rest ih =>
    rw [total_cons]
    rcases List.mem_cons.mp he with rfl | he
    · omega
    · have := ih he
      omega

theorem getD_get?_le_total (h : Histogram) (s : RangeSet) :
    (h.get? s).getD 0 ≤ total h.entries := by
  cases hs : h.get? s with
  | none => exact Nat.zero_le _
  | some n => exact le_total (Table.get?_eq_some_iff.mp hs)

/-- **Adding to a count** adds as much to the sum. -/
theorem total_add (h : Histogram) (s : RangeSet) (n : Nat) :
    total (h.add s n).entries = total h.entries + n := by
  show total (Table.place s (fun m => m.getD 0 + n) h.entries) = _
  induction h.entries with
  | nil => simp [Table.place, total]
  | cons e rest ih =>
    unfold Table.place
    simp only [total_cons]
    split <;> simp only [total_cons, Option.getD_none, Option.getD_some] <;> omega

/-- The count of a set is overwritten with one to which something has been added. -/
theorem insert_getD_add (h : Histogram) (s : RangeSet) (n : Nat) :
    h.insert s ((h.get? s).getD 0 + n) = h.add s n := by
  refine Table.ext fun t => ?_
  rw [add, Table.insert, Table.get?_update, Table.get?_update]

/-- Overwriting an entry puts its new count in the place of the old one. -/
theorem total_set {es : List (RangeSet × Nat)} {k : Nat} {e : RangeSet × Nat}
    (h : es[k]? = some e) (e' : RangeSet × Nat) :
    total (es.set k e') + e.2 = total es + e'.2 := by
  induction es generalizing k with
  | nil => cases h
  | cons x rest ih =>
    cases k with
    | zero =>
      obtain rfl := Option.some.inj h
      rw [List.set_cons_zero, total_cons, total_cons]
      omega
    | succ k =>
      have := ih h
      rw [List.set_cons_succ, total_cons, total_cons]
      omega

/-- Two counts are at most all counts together. -/
theorem add_le_total {es : List (RangeSet × Nat)} {i j : Nat} {e e' : RangeSet × Nat}
    (hi : es[i]? = some e) (hj : es[j]? = some e') (hne : i ≠ j) : e.2 + e'.2 ≤ total es := by
  have hi' := total_set hi (e.1, 0)
  have hkept : (es.set i (e.1, 0))[j]? = some e' := (List.getElem?_set_ne hne).trans hj
  have hj' := total_set hkept (e'.1, 0)
  omega

theorem total_le_of_prefix {es es' : List (RangeSet × Nat)} (h : es <+: es') :
    total es ≤ total es' := by
  obtain ⟨rest, rfl⟩ := h
  rw [total_append]
  exact Nat.le_add_right _ _

/-- Leaving entries out does not increase the sum. -/
theorem total_filter_le (p : RangeSet × Nat → Bool) (es : List (RangeSet × Nat)) :
    total (es.filter p) ≤ total es := by
  induction es with
  | nil => exact Nat.le_refl 0
  | cons e rest ih =>
    rw [List.filter_cons, total_cons]
    split
    · rw [total_cons]
      omega
    · omega

/-- Leaving more entries out makes the sum no greater. -/
theorem total_filter_le_of_imp {p q : RangeSet × Nat → Bool} {es : List (RangeSet × Nat)}
    (h : ∀ e ∈ es, p e = true → q e = true) : total (es.filter p) ≤ total (es.filter q) := by
  have hboth : es.filter p = (es.filter q).filter p := by
    rw [List.filter_filter]
    refine List.filter_congr fun e he => ?_
    rw [Bool.eq_iff_iff, Bool.and_eq_true, iff_self_and]
    exact h e he
  rw [hboth]
  exact total_filter_le _ _

/-- Counts that are limited each are limited together. -/
theorem total_le_total_map {g : RangeSet → Nat} {es : List (RangeSet × Nat)}
    (h : ∀ e ∈ es, e.2 ≤ g e.1) : total es ≤ total (es.map fun e => (e.1, g e.1)) := by
  induction es with
  | nil => exact Nat.le_refl 0
  | cons e rest ih =>
    rw [List.forall_mem_cons] at h
    rw [total_cons, List.map_cons, total_cons]
    exact Nat.add_le_add h.1 (ih h.2)

/-- The counts of entries of either of two kinds that exclude each other add up. -/
theorem total_filter_or {p q : RangeSet × Nat → Bool} {es : List (RangeSet × Nat)}
    (h : ∀ e ∈ es, p e = true → q e = false) :
    total (es.filter fun e => p e || q e) = total (es.filter p) + total (es.filter q) := by
  induction es with
  | nil => rfl
  | cons e rest ih =>
    obtain ⟨he, hrest⟩ := List.forall_mem_cons.mp h
    have hsum := ih hrest
    cases hp : p e with
    | true =>
      simp only [List.filter_cons, hp, he hp, Bool.or_false, if_true, Bool.false_eq_true, if_false,
        total_cons]
      omega
    | false =>
      cases hq : q e <;>
        simp only [List.filter_cons, hp, hq, Bool.or_false, Bool.or_true, if_true,
          Bool.false_eq_true, if_false, total_cons] <;>
        omega

/-! ## Counts of one set -/

/-- How often a set was observed that `g` takes to `t`. -/
def countInto (g : RangeSet → RangeSet) (t : RangeSet) (es : List (RangeSet × Nat)) : Nat :=
  total (es.filter fun e => g e.1 = t)

section Count

variable {g : RangeSet → RangeSet} {t : RangeSet} {es : List (RangeSet × Nat)}

@[simp] theorem countInto_append (es' : List (RangeSet × Nat)) :
    countInto g t (es ++ es') = countInto g t es + countInto g t es' := by
  rw [countInto, List.filter_append, total_append]
  rfl

@[simp] theorem countInto_singleton (e : RangeSet × Nat) :
    countInto g t [e] = if g e.1 = t then e.2 else 0 := by
  unfold countInto
  split <;> simp [total, *]

@[simp] theorem countInto_cons (e : RangeSet × Nat) :
    countInto g t (e :: es) = (if g e.1 = t then e.2 else 0) + countInto g t es := by
  rw [← List.singleton_append, countInto_append, countInto_singleton]

/-- All sets go to one. -/
@[simp] theorem countInto_const : countInto (fun _ => t) t es = total es := by
  simp [countInto]

/-- No set changes. -/
theorem countInto_self (h : Table.Increasing es) :
    countInto (fun s => s) t es = (Table.find t es).getD 0 := by
  induction es with
  | nil => rfl
  | cons e rest ih =>
    obtain ⟨hhead, hrest⟩ := List.pairwise_cons.mp h
    rw [countInto_cons, ih hrest]
    by_cases ht : t = e.1
    · rw [if_pos ht.symm, ht, Table.find_cons_self e.1 e.2, Table.find_eq_none_of_lt hhead]
      rfl
    · rw [if_neg (Ne.symm ht), Table.find_cons_of_ne ht, Nat.zero_add]

variable (g t es) in
theorem countInto_le : countInto g t es ≤ total es := total_filter_le _ es

theorem countInto_le_of_prefix {es' : List (RangeSet × Nat)} (h : es <+: es') :
    countInto g t es ≤ countInto g t es' :=
  total_le_of_prefix (h.filter _)

theorem countInto_eq_zero (h : t ∉ es.map (g ·.1)) : countInto g t es = 0 := by
  have hnone : es.filter (fun e => g e.1 = t) = [] :=
    List.filter_eq_nil_iff.mpr fun e he heq =>
      h (List.mem_map.mpr ⟨e, he, of_decide_eq_true heq⟩)
  rw [countInto, hnone]
  rfl

/-- What a histogram has, as what the map that changes no set makes of it. -/
theorem get?_eq_some_iff {h : Histogram} {n : Nat} :
    h.get? t = some n ↔
      t ∈ h.entries.map (·.1) ∧ n = countInto (fun s => s) t h.entries := by
  have hmem : t ∈ h.entries.map (·.1) ↔ h.get? t ≠ none := by
    rw [Table.get?, ne_eq, Table.find_eq_none_iff]
    simp [eq_comm]
  rw [countInto_self h.increasing, hmem]
  show h.get? t = some n ↔ h.get? t ≠ none ∧ n = (h.get? t).getD 0
  cases h.get? t <;> simp [eq_comm]

end Count

end Histogram

end ErrorReturns
