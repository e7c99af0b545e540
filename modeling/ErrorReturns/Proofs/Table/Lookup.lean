import ErrorReturns.SortedSet
import ErrorReturns.Table

/-!
# Looking up in tables

A table is seen through `Table.get?`. What an update does to that view is said once: it changes
the value at its own key, of which it gets to see the present one, and nothing else
(`get?_update`). Since the keys of a table increase, the view determines the table (`ext`). Two
tables that came about in different ways are therefore compared key by key.
-/

namespace ErrorReturns.Table

open Std

variable {κ ν μ : Type} [Ord κ]

@[simp] theorem entries_empty : (∅ : Table κ ν).entries = [] := rfl

@[simp] theorem get?_empty (k : κ) : (∅ : Table κ ν).get? k = none := rfl

/-! ## What all entries have in common -/

/-- Whether every entry has a key and a value of some kind. -/
def All (P : κ → Prop) (Q : ν → Prop) (t : Table κ ν) : Prop := ∀ e ∈ t.entries, P e.1 ∧ Q e.2

section All

variable {P : κ → Prop} {Q : ν → Prop} {t : Table κ ν}

theorem all_empty : (empty : Table κ ν).All P Q := fun _ he => absurd he List.not_mem_nil

/-- What holds of all entries holds of one that is found. -/
theorem All.get? (ht : t.All P Q) {k : κ} {v : ν} (h : t.get? k = some v) : Q v := by
  replace h : find k t.entries = some v := h
  unfold All at ht
  generalize t.entries = l at h ht
  induction l with
  | nil => cases h
  | cons e rest ih =>
    rw [List.forall_mem_cons] at ht
    unfold find at h
    split at h
    · exact Option.some.inj h ▸ ht.1.2
    · exact ih h ht.2

variable [TransOrd κ]

/-- An update keeps what it keeps of the one value that it changes. -/
theorem All.update (ht : t.All P Q) {k : κ} (hk : P k) {f : Option ν → ν}
    (hf : ∀ old : Option ν, (∀ v ∈ old, Q v) → Q (f old)) : (t.update k f).All P Q := by
  have hnone : Q (f none) := hf none fun _ hv => absurd hv (Option.not_mem_none _)
  show ∀ e ∈ place k f t.entries, P e.1 ∧ Q e.2
  unfold All at ht
  generalize t.entries = l at ht ⊢
  induction l with
  | nil => exact List.forall_mem_singleton.mpr ⟨hk, hnone⟩
  | cons e rest ih =>
    rw [List.forall_mem_cons] at ht
    unfold place
    split
    · exact List.forall_mem_cons.mpr ⟨⟨hk, hnone⟩, List.forall_mem_cons.mpr ht⟩
    · refine List.forall_mem_cons.mpr ⟨⟨ht.1.1, hf _ fun v hv => ?_⟩, ht.2⟩
      exact Option.some.inj hv ▸ ht.1.2
    · exact List.forall_mem_cons.mpr ⟨ht.1, ih ht.2⟩

theorem All.insert (ht : t.All P Q) {k : κ} (hk : P k) {v : ν} (hv : Q v) :
    (t.insert k v).All P Q :=
  ht.update hk fun _ _ => hv

/-- Many updates keep what each of them does. -/
theorem All.foldl_update (ht : t.All P Q) {es : List (κ × μ)} {g : μ → Option ν → ν}
    (h : ∀ e ∈ es, P e.1 ∧ ∀ old : Option ν, (∀ v ∈ old, Q v) → Q (g e.2 old)) :
    (es.foldl (fun t e => t.update e.1 (g e.2)) t).All P Q := by
  induction es generalizing t with
  | nil => exact ht
  | cons e rest ih =>
    rw [List.forall_mem_cons] at h
    exact ih (ht.update h.1.1 h.1.2) h.2

theorem all_ofList {es : List (κ × ν)} (h : ∀ e ∈ es, P e.1 ∧ Q e.2) : (ofList es).All P Q :=
  all_empty.foldl_update (g := fun v _ => v) fun e he => ⟨(h e he).1, fun _ _ => (h e he).2⟩

end All

/-! ## Lists of entries -/

section Lists

variable [LawfulEqOrd κ]

@[simp] theorem find_cons_self (k : κ) (v : ν) (rest : List (κ × ν)) :
    find k ((k, v) :: rest) = some v := by
  simp [find]

theorem find_cons_of_ne {k : κ} {e : κ × ν} (h : k ≠ e.1) (rest : List (κ × ν)) :
    find k (e :: rest) = find k rest := by
  simp [find, h]

/-- Nothing is found under a key that no entry has. -/
theorem find_eq_none_iff {k : κ} {l : List (κ × ν)} : find k l = none ↔ ∀ e ∈ l, k ≠ e.1 := by
  induction l with
  | nil => simp [find]
  | cons e rest ih =>
    obtain ⟨k', v⟩ := e
    by_cases h : k = k'
    · subst h
      simp [find_cons_self]
    · rw [find_cons_of_ne h, ih, List.forall_mem_cons]
      exact (and_iff_right h).symm

theorem find_eq_none_of_lt {k : κ} {l : List (κ × ν)} (h : ∀ e ∈ l, compare k e.1 = .lt) :
    find k l = none := by
  refine find_eq_none_iff.mpr fun e he heq => ?_
  have hlt := h e he
  rw [heq, ReflOrd.compare_self] at hlt
  cases hlt

/-- Placing an entry leaves all other keys alone. -/
theorem find_place_of_ne {k k' : κ} (h : k' ≠ k) (f : Option ν → ν) (l : List (κ × ν)) :
    find k' (place k f l) = find k' l := by
  induction l with
  | nil => exact find_cons_of_ne h []
  | cons e rest ih =>
    obtain ⟨k₀, v⟩ := e
    unfold place
    split
    · exact find_cons_of_ne h _
    · rename_i heq
      have hk : k = k₀ := LawfulEqOrd.compare_eq_iff_eq.mp heq
      rw [find_cons_of_ne (hk ▸ h), find_cons_of_ne (hk ▸ h)]
    · by_cases hk : k' = k₀
      · subst hk
        rw [find_cons_self, find_cons_self]
      · rw [find_cons_of_ne hk, find_cons_of_ne hk, ih]

namespace Increasing

variable {l : List (κ × ν)}

/-- In entries whose keys increase, the value at a key is that of its one entry. -/
theorem find_eq_some_iff (hl : Increasing l) {k : κ} {v : ν} :
    find k l = some v ↔ (k, v) ∈ l := by
  induction l with
  | nil => simp [find]
  | cons e rest ih =>
    obtain ⟨hhead, hrest⟩ := List.pairwise_cons.mp hl
    obtain ⟨k₀, v₀⟩ := e
    by_cases hk : k = k₀
    · subst hk
      -- the key does not come again
      have hnew : (k, v) ∉ rest := fun h => by
        have hlt := hhead (k, v) h
        rw [ReflOrd.compare_self] at hlt
        cases hlt
      rw [find_cons_self, Option.some.injEq, List.mem_cons, or_iff_left hnew, Prod.mk.injEq]
      exact ⟨fun h => ⟨rfl, h.symm⟩, fun h => h.2.symm⟩
    · rw [find_cons_of_ne hk, ih hrest, List.mem_cons]
      exact (or_iff_right fun h => hk (congrArg Prod.fst h)).symm

theorem nodup_keys (hl : Increasing l) : (l.map (·.1)).Nodup := by
  refine List.pairwise_map.mpr (hl.imp fun {a b} hlt heq => ?_)
  rw [heq, ReflOrd.compare_self] at hlt
  cases hlt

theorem nodup (hl : Increasing l) : l.Nodup :=
  (List.pairwise_map.mp hl.nodup_keys).imp fun hne heq => hne (congrArg Prod.fst heq)

/-- An update sees the present value. -/
theorem find_place_self [TransOrd κ] (hl : Increasing l) (k : κ) (f : Option ν → ν) :
    find k (Table.place k f l) = some (f (find k l)) := by
  induction l with
  | nil => exact find_cons_self k _ []
  | cons e rest ih =>
    obtain ⟨k₀, v⟩ := e
    obtain ⟨hhead, hrest⟩ := List.pairwise_cons.mp hl
    unfold Table.place
    split
    · rename_i hlt
      have hall : ∀ e ∈ (k₀, v) :: rest, compare k e.1 = .lt :=
        List.forall_mem_cons.mpr ⟨hlt, fun e he => TransCmp.lt_trans hlt (hhead e he)⟩
      rw [find_cons_self, find_eq_none_of_lt hall]
    · rename_i heq
      obtain rfl : k = k₀ := LawfulEqOrd.compare_eq_iff_eq.mp heq
      rw [find_cons_self, find_cons_self]
    · rename_i hgt
      have hk : k ≠ k₀ := fun heq => by simp [heq] at hgt
      rw [find_cons_of_ne hk, find_cons_of_ne hk, ih hrest]

end Increasing

end Lists

/-! ## The view of a table -/

variable [LawfulEqOrd κ]

/-- **The value at a key** is that of its entry. -/
theorem get?_eq_some_iff {t : Table κ ν} {k : κ} {v : ν} :
    t.get? k = some v ↔ (k, v) ∈ t.entries :=
  t.increasing.find_eq_some_iff

/-- Mapping the values maps what is found. -/
@[simp] theorem get?_mapValues (f : ν → μ) (t : Table κ ν) (k : κ) :
    (t.mapValues f).get? k = (t.get? k).map f := by
  change find k (t.entries.map fun e => (e.1, f e.2)) = (find k t.entries).map f
  induction t.entries with
  | nil => rfl
  | cons e rest ih =>
    obtain ⟨k', v⟩ := e
    by_cases hk : k = k'
    · rw [List.map_cons, hk, find_cons_self, find_cons_self]
      rfl
    · rw [find_cons_of_ne hk, ← ih]
      exact find_cons_of_ne (e := (k', f v)) hk _

theorem contains_iff {t : Table κ ν} {k : κ} : t.contains k = true ↔ ∃ e ∈ t.entries, k = e.1 := by
  rw [contains, get?, Option.isSome_iff_ne_none, ne_eq, find_eq_none_iff]
  simp

@[simp] theorem mem_keys_iff {t : Table κ ν} {k : κ} : k ∈ t.keys ↔ t.contains k = true := by
  rw [contains_iff, keys, List.mem_map]
  simp only [eq_comm]

theorem nodup_keys (t : Table κ ν) : t.keys.Nodup := t.increasing.nodup_keys

variable [TransOrd κ]

/-- **The view determines the table.** -/
theorem ext {t t' : Table κ ν} (h : ∀ k, t.get? k = t'.get? k) : t = t' := by
  have hmem : ∀ e, e ∈ t.entries ↔ e ∈ t'.entries := fun e => by
    rw [← get?_eq_some_iff (k := e.1), ← get?_eq_some_iff (k := e.1), h]
  have hperm : t.entries.Perm t'.entries :=
    (List.perm_ext_iff_of_nodup t.increasing.nodup t'.increasing.nodup).mpr hmem
  have hentries : t.entries = t'.entries := by
    refine List.Perm.eq_of_pairwise (fun a b _ _ hab hba => ?_) t.increasing t'.increasing hperm
    rw [OrientedCmp.gt_iff_lt.mpr hab] at hba
    cases hba
  cases t
  cases t'
  cases hentries
  rfl

/-- Tables with values at the same keys list the same keys. -/
theorem keys_eq {t t' : Table κ ν} (h : ∀ k, t.contains k = t'.contains k) : t.keys = t'.keys := by
  have hkeys : ∀ t : Table κ ν, (t.mapValues fun _ => ()).keys = t.keys := fun t => by
    simp [keys, Table.mapValues]
  have hget : ∀ (t : Table κ ν) k, (t.mapValues fun _ => ()).get? k =
      if t.contains k then some () else none := fun t k => by
    rw [get?_mapValues, contains]
    cases t.get? k <;> rfl
  have hsame : t.mapValues (fun _ => ()) = t'.mapValues fun _ => () :=
    ext fun k => by rw [hget, hget, h]
  rw [← hkeys t, hsame, hkeys]

/-! ## Updates -/

@[simp] theorem get?_update_self (t : Table κ ν) (k : κ) (f : Option ν → ν) :
    (t.update k f).get? k = some (f (t.get? k)) :=
  t.increasing.find_place_self k f

/-- An update leaves the other keys alone. -/
@[simp] theorem get?_update_of_ne {k k' : κ} (h : k' ≠ k) (t : Table κ ν) (f : Option ν → ν) :
    (t.update k f).get? k' = t.get? k' :=
  find_place_of_ne h f t.entries

/-- **What an update changes**: the value at its key. -/
theorem get?_update [DecidableEq κ] (t : Table κ ν) (k k' : κ) (f : Option ν → ν) :
    (t.update k f).get? k' = if k' = k then some (f (t.get? k)) else t.get? k' := by
  split
  · rename_i h
    rw [h, get?_update_self]
  · rename_i h
    exact get?_update_of_ne h t f

@[simp] theorem get?_insert_self (t : Table κ ν) (k : κ) (v : ν) :
    (t.insert k v).get? k = some v :=
  get?_update_self t k _

@[simp] theorem get?_insert_of_ne (t : Table κ ν) {k k' : κ} (h : k' ≠ k) (v : ν) :
    (t.insert k v).get? k' = t.get? k' :=
  get?_update_of_ne h t _

/-- What a table has after an insertion is what was inserted, or what it had. -/
theorem of_get?_insert {t : Table κ ν} {k k' : κ} {v v' : ν}
    (h : (t.insert k v).get? k' = some v') : (k' = k ∧ v' = v) ∨ t.get? k' = some v' := by
  by_cases hk : k' = k
  · subst hk
    rw [get?_insert_self] at h
    exact Or.inl ⟨rfl, (Option.some.inj h).symm⟩
  · exact Or.inr (get?_insert_of_ne t hk v ▸ h)

/-- After an update its key has a value. -/
@[simp] theorem contains_update_self (t : Table κ ν) (k : κ) (f : Option ν → ν) :
    (t.update k f).contains k = true := by
  rw [contains, get?_update_self]
  rfl

@[simp] theorem contains_update_iff {t : Table κ ν} {k k' : κ} {f : Option ν → ν} :
    (t.update k f).contains k' = true ↔ k' = k ∨ t.contains k' = true := by
  by_cases hk : k' = k
  · rw [hk, contains_update_self]
    simp
  · rw [contains, get?_update_of_ne hk, ← contains, or_iff_right hk]

/-! ## Many updates -/

/-- Updates at other keys leave a key alone. -/
theorem get?_foldl_update_of_ne {k : κ} {es : List (κ × μ)} (h : ∀ e ∈ es, k ≠ e.1) (t : Table κ ν)
    (g : μ → Option ν → ν) :
    (es.foldl (fun t e => t.update e.1 (g e.2)) t).get? k = t.get? k := by
  induction es generalizing t with
  | nil => rfl
  | cons e rest ih =>
    rw [List.forall_mem_cons] at h
    rw [List.foldl_cons, ih h.2, get?_update_of_ne h.1]

/-- After some updates there are the keys from before and those of the updates. -/
theorem contains_foldl_update_iff (t : Table κ ν) (es : List (κ × μ)) (g : μ → Option ν → ν)
    {k : κ} :
    (es.foldl (fun t e => t.update e.1 (g e.2)) t).contains k = true ↔
      t.contains k = true ∨ ∃ e ∈ es, k = e.1 := by
  induction es generalizing t with
  | nil => simp
  | cons e rest ih =>
    simp only [List.foldl_cons, ih, contains_update_iff, List.mem_cons, exists_eq_or_imp]
    rw [or_assoc, or_left_comm]

/-- Updates that put values of some kind keep a value of this kind at a key. -/
theorem exists_get?_foldl_update {k : κ} {Q : ν → Prop} {es : List (κ × μ)} {g : μ → Option ν → ν}
    (hg : ∀ e ∈ es, ∀ old, Q (g e.2 old)) {t : Table κ ν} (ht : ∃ v, t.get? k = some v ∧ Q v) :
    ∃ v, (es.foldl (fun t e => t.update e.1 (g e.2)) t).get? k = some v ∧ Q v := by
  induction es generalizing t with
  | nil => exact ht
  | cons e rest ih =>
    rw [List.forall_mem_cons] at hg
    refine ih hg.2 ?_
    by_cases hk : k = e.1
    · subst hk
      exact ⟨_, get?_update_self t e.1 _, hg.1 _⟩
    · rw [get?_update_of_ne hk]
      exact ht

/-- **What adding the entries of another table changes**: the values at its keys. -/
theorem get?_foldl_update [DecidableEq κ] (t : Table κ ν) (g : μ → Option ν → ν) (t' : Table κ μ)
    (k : κ) :
    (t'.entries.foldl (fun t e => t.update e.1 (g e.2)) t).get? k =
      (t'.get? k).elim (t.get? k) fun v => some (g v (t.get? k)) := by
  obtain ⟨es, hes⟩ := t'
  change (es.foldl _ t).get? k = (find k es).elim _ _
  induction es generalizing t with
  | nil => rfl
  | cons e rest ih =>
    obtain ⟨hhead, hrest⟩ := List.pairwise_cons.mp hes
    rw [List.foldl_cons, ih _ hrest, get?_update]
    by_cases hk : k = e.1
    · subst hk
      rw [find_eq_none_of_lt hhead, find_cons_self e.1 e.2, if_pos rfl]
      rfl
    · rw [find_cons_of_ne hk, if_neg hk]

/-- **Entries of two tables may be added in either order** if what they do to a common key can
be done in either order. -/
theorem foldl_update_right_comm [DecidableEq κ] (t : Table κ ν) (g : μ → Option ν → ν)
    {a b : Table κ μ}
    (hcomm : ∀ k x y, a.get? k = some x → b.get? k = some y →
      g y (some (g x (t.get? k))) = g x (some (g y (t.get? k)))) :
    b.entries.foldl (fun t e => t.update e.1 (g e.2))
        (a.entries.foldl (fun t e => t.update e.1 (g e.2)) t) =
      a.entries.foldl (fun t e => t.update e.1 (g e.2))
        (b.entries.foldl (fun t e => t.update e.1 (g e.2)) t) := by
  refine ext fun k => ?_
  rw [get?_foldl_update, get?_foldl_update, get?_foldl_update, get?_foldl_update]
  cases hx : a.get? k with
  | none => rfl
  | some x =>
    cases hy : b.get? k with
    | none => rfl
    | some y => exact congrArg some (hcomm k x y hx hy)

end ErrorReturns.Table

namespace ErrorReturns.SortedSet

open Std

variable {α : Type} [Ord α] [LawfulEqOrd α]

/-! ## Sets in order -/

omit [LawfulEqOrd α] in
theorem isEmpty_iff {s : SortedSet α} : s.isEmpty = true ↔ s = {} := by
  refine ⟨fun h => ?_, fun h => h ▸ rfl⟩
  obtain ⟨l, hl⟩ := s
  obtain rfl := List.isEmpty_iff.mp h
  rfl

theorem nodup_toList (s : SortedSet α) : s.toList.Nodup :=
  s.increasing.imp fun {a b} hlt heq => by
    rw [heq, ReflOrd.compare_self] at hlt
    cases hlt

theorem mem_place {a b : α} {l : List α} : a ∈ place b l ↔ a = b ∨ a ∈ l := by
  induction l with
  | nil => simp [place]
  | cons c rest ih =>
    unfold place
    split
    · exact List.mem_cons
    · rename_i heq
      obtain rfl : b = c := LawfulEqOrd.compare_eq_iff_eq.mp heq
      simp
    · rw [List.mem_cons, ih, List.mem_cons, or_left_comm]

variable [TransOrd α]

@[simp] theorem mem_insert {a b : α} {s : SortedSet α} : a ∈ s.insert b ↔ a = b ∨ a ∈ s := mem_place

@[simp] theorem mem_insertMany {a : α} {s : SortedSet α} {l : List α} :
    a ∈ s.insertMany l ↔ a ∈ l ∨ a ∈ s := by
  induction l generalizing s with
  | nil => exact (or_iff_right List.not_mem_nil).symm
  | cons b rest ih =>
    rw [insertMany, List.foldl_cons, ← insertMany, ih, mem_insert, List.mem_cons, or_left_comm,
      or_assoc]

@[simp] theorem mem_ofList {a : α} {l : List α} : a ∈ ofList l ↔ a ∈ l := by
  rw [ofList, mem_insertMany]
  exact or_iff_left List.not_mem_nil

/-- **Sets are equal if they have the same members.** -/
theorem ext {s s' : SortedSet α} (h : ∀ a, a ∈ s ↔ a ∈ s') : s = s' := by
  have hperm : s.toList.Perm s'.toList :=
    (List.perm_ext_iff_of_nodup s.nodup_toList s'.nodup_toList).mpr h
  have hlists : s.toList = s'.toList := by
    refine List.Perm.eq_of_pairwise (fun a b _ _ hab hba => ?_) s.increasing s'.increasing hperm
    rw [OrientedCmp.gt_iff_lt.mpr hab] at hba
    cases hba
  cases s
  cases s'
  cases hlists
  rfl

end ErrorReturns.SortedSet
