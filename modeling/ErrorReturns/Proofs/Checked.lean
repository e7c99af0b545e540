import ErrorReturns.Fault

/-!
# Computations that may meet a fault

A computation with a result is taken apart step by step: `Checked.bind_eq_ok_iff` says that a
sequence of two has a result exactly when both have one, and the lemmas after it say the same of
computations over lists. A closed computation is read off by running it: whether it has a result
with a property is decidable (`Checked.decidableExistsEqOk`), so that what a concrete program comes
to is stated as it is used later, and decided. Steps that can be exchanged give the same result in
any order (`Checked.toOption_foldlM_eq_of_perm`). The faults of a computation are followed in the
same way as far as depth is concerned: a `Checked.Shallow` computation, put together from shallow
ones, may meet faults but does not run out of depth.
-/

namespace ErrorReturns.Checked

variable {α β : Type}

@[simp] theorem ok_bind (x : α) (f : α → Checked β) : (Except.ok x : Checked α) >>= f = f x := rfl

/-- A computation of an open monad, with no other monad around it. -/
theorem liftM_ok_bind (x : α) (f : α → Checked β) :
    (liftM (Except.ok x : Checked α) : Checked α) >>= f = f x := rfl

@[simp] theorem error_bind (e : Fault) (f : α → Checked β) :
    (Except.error e : Checked α) >>= f = .error e := rfl

@[simp] theorem pure_eq_ok (x : α) : (pure x : Checked α) = .ok x := rfl

/-- **A sequence of two computations has a result** when both have one. -/
@[simp] theorem bind_eq_ok_iff {m : Checked α} {f : α → Checked β} {y : β} :
    m >>= f = .ok y ↔ ∃ x, m = .ok x ∧ f x = .ok y := by
  cases m with
  | error e =>
    constructor
    · intro h
      cases h
    · rintro ⟨x, h, -⟩
      cases h
  | ok x =>
    constructor
    · exact fun h => ⟨x, rfl, h⟩
    · rintro ⟨x', hx, h⟩
      rwa [← Except.ok.inj hx] at h

/-- **A run is read off** by running it. -/
instance (priority := high) decidableExistsEqOk (m : Checked α) (P : α → Prop)
    [∀ x, Decidable (P x)] :
    Decidable (∃ x, m = .ok x ∧ P x) :=
  match m with
  | .ok x => decidable_of_iff (P x) ⟨fun h => ⟨x, rfl, h⟩, fun ⟨_, hx, h⟩ => Except.ok.inj hx ▸ h⟩
  | .error _ => isFalse fun ⟨_, hx, _⟩ => nomatch hx

/-- A run with two results is read off in the same way. -/
instance (priority := high) decidableExistsEqOkPair (m : Checked (α × β)) (P : α → β → Prop)
    [∀ x y, Decidable (P x y)] : Decidable (∃ x y, m = .ok (x, y) ∧ P x y) :=
  decidable_of_iff (∃ z, m = .ok z ∧ P z.1 z.2)
    ⟨fun ⟨z, hz, h⟩ => ⟨z.1, z.2, hz, h⟩, fun ⟨x, y, hz, h⟩ => ⟨(x, y), hz, h⟩⟩

/-- If every element of a list has a result, the list has one, with these results. -/
theorem exists_mapM_eq_ok {f : α → Checked β} {l : List α} (h : ∀ x ∈ l, ∃ y, f x = .ok y) :
    ∃ ys, l.mapM f = .ok ys ∧ ∀ y, y ∈ ys ↔ ∃ x ∈ l, f x = .ok y := by
  induction l with
  | nil => exact ⟨[], rfl, by simp⟩
  | cons x rest ih =>
    rw [List.forall_mem_cons] at h
    obtain ⟨y, hy⟩ := h.1
    obtain ⟨ys, hys, hmem⟩ := ih h.2
    refine ⟨y :: ys, ?_, fun z => ?_⟩
    · rw [List.mapM_cons, hy, hys]
      rfl
    · simp only [List.mem_cons, hmem, exists_eq_or_imp, hy, Except.ok.injEq]
      exact or_congr_left eq_comm

/-- A list has results exactly when each of its elements has one. -/
theorem mapM_eq_ok_iff {f : α → Checked β} {l : List α} {ys : List β} :
    l.mapM f = .ok ys ↔ l.map f = ys.map Except.ok := by
  induction l generalizing ys with
  | nil => simp [eq_comm]
  | cons x rest ih =>
    rw [List.mapM_cons, bind_eq_ok_iff, List.map_cons]
    constructor
    · rintro ⟨y, hy, h⟩
      obtain ⟨rest', hrest, h⟩ := bind_eq_ok_iff.mp h
      rw [← Except.ok.inj h, List.map_cons, hy, ih.mp hrest]
    · intro h
      cases ys with
      | nil => cases h
      | cons y rest' =>
        obtain ⟨hy, hrest⟩ := List.cons.inj h
        exact ⟨y, hy, bind_eq_ok_iff.mpr ⟨rest', ih.mpr hrest, rfl⟩⟩

theorem exists_of_mem_mapM {f : α → Checked β} {l : List α} {ys : List β} (h : l.mapM f = .ok ys)
    {y : β} (hy : y ∈ ys) : ∃ x ∈ l, f x = .ok y := by
  have hmem : Except.ok y ∈ l.map f := mapM_eq_ok_iff.mp h ▸ List.mem_map_of_mem hy
  exact List.mem_map.mp hmem

theorem exists_mem_of_mapM {f : α → Checked β} {l : List α} {ys : List β} (h : l.mapM f = .ok ys)
    {x : α} (hx : x ∈ l) : ∃ y ∈ ys, f x = .ok y := by
  have hmem : f x ∈ ys.map Except.ok := mapM_eq_ok_iff.mp h ▸ List.mem_map_of_mem hx
  obtain ⟨y, hy, heq⟩ := List.mem_map.mp hmem
  exact ⟨y, hy, heq.symm⟩

theorem length_of_mapM {f : α → Checked β} {l : List α} {ys : List β} (h : l.mapM f = .ok ys) :
    ys.length = l.length := by
  have hlength := congrArg List.length (mapM_eq_ok_iff.mp h)
  rw [List.length_map, List.length_map] at hlength
  exact hlength.symm

/-- Results that tell what they were found for stand in the order of the list. -/
theorem map_eq_of_mapM {f : α → Checked β} {key : β → α} {l : List α} {ys : List β}
    (h : l.mapM f = .ok ys) (hkey : ∀ x y, f x = .ok y → key y = x) : ys.map key = l := by
  induction l generalizing ys with
  | nil =>
    obtain rfl := Except.ok.inj h
    rfl
  | cons x rest ih =>
    rw [List.mapM_cons] at h
    simp only [bind_eq_ok_iff, pure_eq_ok, Except.ok.injEq] at h
    obtain ⟨y, hy, ys, hys, rfl⟩ := h
    rw [List.map_cons, hkey x y hy, ih hys]

theorem mapM_congr {f g : α → Checked β} {l : List α} (h : ∀ x ∈ l, f x = g x) :
    l.mapM f = l.mapM g := by
  induction l with
  | nil => rfl
  | cons x rest ih =>
    rw [List.forall_mem_cons] at h
    rw [List.mapM_cons, List.mapM_cons, h.1, ih h.2]

/-- Every result that is kept is that of an element. -/
theorem exists_of_mem_filterMapM {f : α → Checked (Option β)} {l : List α} {ys : List β}
    (h : l.filterMapM f = .ok ys) {y : β} (hy : y ∈ ys) : ∃ x ∈ l, f x = .ok (some y) := by
  induction l generalizing ys with
  | nil =>
    obtain rfl := Except.ok.inj h
    cases hy
  | cons x rest ih =>
    rw [List.filterMapM_cons] at h
    obtain ⟨found, hfound, h⟩ := bind_eq_ok_iff.mp h
    cases found with
    | none =>
      obtain ⟨z, hz, hfz⟩ := ih h hy
      exact ⟨z, List.mem_cons_of_mem x hz, hfz⟩
    | some z =>
      simp only [bind_eq_ok_iff, pure_eq_ok, Except.ok.injEq] at h
      obtain ⟨rest', hrest, rfl⟩ := h
      rcases List.mem_cons.mp hy with rfl | hy
      · exact ⟨x, List.mem_cons_self, hfound⟩
      · obtain ⟨z, hz, hfz⟩ := ih hrest hy
        exact ⟨z, List.mem_cons_of_mem x hz, hfz⟩

/-- Each element has been looked at, and what it gave is kept. -/
theorem exists_mem_of_filterMapM {f : α → Checked (Option β)} {l : List α} {ys : List β}
    (h : l.filterMapM f = .ok ys) {x : α} (hx : x ∈ l) : ∃ y?, f x = .ok y? ∧ ∀ y ∈ y?, y ∈ ys := by
  induction l generalizing ys with
  | nil => cases hx
  | cons x' rest ih =>
    rw [List.filterMapM_cons] at h
    obtain ⟨found, hfound, h⟩ := bind_eq_ok_iff.mp h
    cases found with
    | none =>
      rcases List.mem_cons.mp hx with rfl | hx
      · exact ⟨none, hfound, nofun⟩
      · exact ih h hx
    | some z =>
      simp only [bind_eq_ok_iff, pure_eq_ok, Except.ok.injEq] at h
      obtain ⟨rest', hrest, rfl⟩ := h
      rcases List.mem_cons.mp hx with rfl | hx
      · exact ⟨some z, hfound, fun y hy => Option.mem_some.mp hy ▸ List.mem_cons_self⟩
      · obtain ⟨y?, hy?, hys⟩ := ih hrest hx
        exact ⟨y?, hy?, fun y hy => List.mem_cons_of_mem z (hys y hy)⟩

/-- If a question is answered for a list, it is answered by its elements. -/
theorem anyM_eq_true_iff {f : α → Checked Bool} {l : List α} {found : Bool}
    (h : l.anyM f = .ok found) : found = true ↔ ∃ x ∈ l, f x = .ok true := by
  induction l with
  | nil =>
    obtain rfl := Except.ok.inj h
    exact iff_of_false Bool.false_ne_true fun ⟨_, hx, _⟩ => List.not_mem_nil hx
  | cons x rest ih =>
    rw [List.anyM] at h
    obtain ⟨here, hhere, h⟩ := bind_eq_ok_iff.mp h
    cases here with
    | true =>
      obtain rfl := Except.ok.inj h
      exact iff_of_true rfl ⟨x, List.mem_cons_self, hhere⟩
    | false =>
      simp only [ih h, List.mem_cons, exists_eq_or_imp]
      exact (or_iff_right fun hx => Bool.false_ne_true (Except.ok.inj (hhere.symm.trans hx))).symm

/-- **What every step keeps, a run keeps.** -/
theorem foldlM_induction {σ : Type} {step : σ → α → Checked σ} {P : σ → Prop} {l : List α}
    (hstep : ∀ s, P s → ∀ x ∈ l, ∀ s', step s x = .ok s' → P s') {s s' : σ} (hs : P s)
    (h : l.foldlM step s = .ok s') : P s' := by
  induction l generalizing s with
  | nil => exact Except.ok.inj h ▸ hs
  | cons x rest ih =>
    rw [List.foldlM_cons] at h
    obtain ⟨t, ht, h⟩ := bind_eq_ok_iff.mp h
    have hrest : ∀ s, P s → ∀ y ∈ rest, ∀ s', step s y = .ok s' → P s' :=
      fun s hs y hy => hstep s hs y (List.mem_cons_of_mem x hy)
    exact ih hrest (hstep s hs x List.mem_cons_self t ht) h

/-- **What each step brings about and later steps keep** holds at the end. -/
theorem foldlM_forall_mem {σ : Type} {step : σ → α → Checked σ} {P : σ → Prop} {Q : α → σ → Prop}
    {l : List α} (hstep : ∀ s, P s → ∀ x ∈ l, ∀ s', step s x = .ok s' →
      P s' ∧ Q x s' ∧ ∀ y, Q y s → Q y s') {s s' : σ} (hs : P s)
    (h : l.foldlM step s = .ok s') : P s' ∧ ∀ x ∈ l, Q x s' := by
  induction l generalizing s with
  | nil => exact ⟨Except.ok.inj h ▸ hs, nofun⟩
  | cons x rest ih =>
    rw [List.foldlM_cons] at h
    obtain ⟨t, ht, h⟩ := bind_eq_ok_iff.mp h
    obtain ⟨hPt, hQt, -⟩ := hstep s hs x List.mem_cons_self t ht
    have hrest : ∀ s, P s → ∀ y ∈ rest, ∀ s', step s y = .ok s' →
        P s' ∧ Q y s' ∧ ∀ z, Q z s → Q z s' :=
      fun s hs y hy => hstep s hs y (List.mem_cons_of_mem x hy)
    obtain ⟨hP, hQ⟩ := ih hrest hPt h
    have hx : P s' ∧ Q x s' := by
      refine foldlM_induction (P := fun s => P s ∧ Q x s) (fun s hs y hy s' h => ?_) ⟨hPt, hQt⟩ h
      obtain ⟨hP, -, hkeep⟩ := hrest s hs.1 y hy s' h
      exact ⟨hP, hkeep x hs.2⟩
    exact ⟨hP, List.forall_mem_cons.mpr ⟨hx.2, hQ⟩⟩

/-- A search that finds nothing has asked every element. -/
theorem eq_none_of_findSomeM? {f : α → Checked (Option β)} {l : List α}
    (h : l.findSomeM? f = .ok none) {x : α} (hx : x ∈ l) : f x = .ok none := by
  induction l with
  | nil => cases hx
  | cons y rest ih =>
    rw [List.findSomeM?_cons] at h
    obtain ⟨found?, hfound, h⟩ := bind_eq_ok_iff.mp h
    cases found? with
    | some found => cases h
    | none =>
      rcases List.mem_cons.mp hx with rfl | hx
      · exact hfound
      · exact ih h hx

/-- What is found is found at some element, and nothing at those before it. -/
theorem exists_split_of_findSomeM? {f : α → Checked (Option β)} {l : List α} {y : β}
    (h : l.findSomeM? f = .ok (some y)) :
    ∃ before x after, l = before ++ x :: after ∧ f x = .ok (some y) ∧
      ∀ z ∈ before, f z = .ok none := by
  induction l with
  | nil => cases h
  | cons x rest ih =>
    rw [List.findSomeM?_cons] at h
    obtain ⟨found?, hfound, h⟩ := bind_eq_ok_iff.mp h
    cases found? with
    | some found =>
      obtain rfl := Option.some.inj (Except.ok.inj h)
      exact ⟨[], x, rest, rfl, hfound, nofun⟩
    | none =>
      obtain ⟨before, z, after, rfl, hz, hbefore⟩ := ih h
      exact ⟨x :: before, z, after, rfl, hz, List.forall_mem_cons.mpr ⟨hfound, hbefore⟩⟩

/-- A search goes on in the second list if the first has nothing. -/
theorem findSomeM?_append (f : α → Checked (Option β)) (l l' : List α) :
    (l ++ l').findSomeM? f =
      l.findSomeM? f >>= fun found? => found?.elim (l'.findSomeM? f) fun y => pure (some y) := by
  induction l with
  | nil => rfl
  | cons x rest ih =>
    rw [List.cons_append, List.findSomeM?_cons, List.findSomeM?_cons, bind_assoc]
    refine bind_congr fun found? => ?_
    cases found? with
    | some y => rfl
    | none => exact ih

/-- Looking through lists one after another is looking through all of them. -/
theorem findSomeM?_flatten {γ : Type} (f : α → Checked (Option β)) {g : γ → Checked (List α)}
    {l : List γ} {lists : List (List α)} (h : l.mapM g = .ok lists) :
    (l.findSomeM? fun x => do (← g x).findSomeM? f) = lists.flatten.findSomeM? f := by
  induction l generalizing lists with
  | nil =>
    obtain rfl := Except.ok.inj h
    rfl
  | cons x rest ih =>
    rw [List.mapM_cons] at h
    simp only [bind_eq_ok_iff, pure_eq_ok, Except.ok.injEq] at h
    obtain ⟨first, hfirst, others, hothers, rfl⟩ := h
    rw [List.findSomeM?_cons, hfirst, ok_bind, List.flatten_cons, findSomeM?_append]
    refine bind_congr fun found? => ?_
    cases found? with
    | some y => rfl
    | none => exact ih hothers

/-- A search for an element that finds none has asked every element. -/
theorem eq_false_of_findM? {f : α → Checked Bool} {l : List α} (h : l.findM? f = .ok none) {x : α}
    (hx : x ∈ l) : f x = .ok false := by
  induction l with
  | nil => cases hx
  | cons y rest ih =>
    rw [List.findM?] at h
    obtain ⟨found, hfound, h⟩ := bind_eq_ok_iff.mp h
    cases found with
    | true => cases h
    | false =>
      rcases List.mem_cons.mp hx with rfl | hx
      · exact hfound
      · exact ih h hx

/-- An element that passes the test is kept. -/
theorem mem_filterM {f : α → Checked Bool} {l ys : List α} (h : l.filterM f = .ok ys) {x : α}
    (hx : x ∈ l) (hf : f x = .ok true) : x ∈ ys := by
  have haux : ∀ acc zs, l.filterAuxM f acc = .ok zs → x ∈ acc ∨ x ∈ l → x ∈ zs := by
    clear h hx
    induction l with
    | nil => exact fun acc zs h hx => Except.ok.inj h ▸ hx.resolve_right List.not_mem_nil
    | cons y rest ih =>
      intro acc zs h hx
      obtain ⟨keep, hkeep, h⟩ := bind_eq_ok_iff.mp h
      refine ih _ _ h ?_
      rw [List.mem_cons] at hx
      rcases hx with hx | rfl | hx
      · cases keep <;> simp [hx]
      · obtain rfl := Except.ok.inj (hf.symm.trans hkeep)
        exact Or.inl List.mem_cons_self
      · exact Or.inr hx
  obtain ⟨zs, hzs, h⟩ := bind_eq_ok_iff.mp h
  obtain rfl := Except.ok.inj h
  exact List.mem_reverse.mpr (haux [] zs hzs (Or.inr hx))

/-- What is kept is an element that passes the test. -/
theorem of_mem_filterM {f : α → Checked Bool} {l ys : List α} (h : l.filterM f = .ok ys) {x : α}
    (hx : x ∈ ys) : x ∈ l ∧ f x = .ok true := by
  have haux : ∀ acc zs, l.filterAuxM f acc = .ok zs → x ∈ zs →
      x ∈ acc ∨ x ∈ l ∧ f x = .ok true := by
    clear h hx
    induction l with
    | nil => exact fun acc zs h hx => Or.inl (Except.ok.inj h ▸ hx)
    | cons y rest ih =>
      intro acc zs h hx
      obtain ⟨keep, hkeep, h⟩ := bind_eq_ok_iff.mp h
      rcases ih _ _ h hx with hx | ⟨hx, hf⟩
      · cases keep with
        | false => exact Or.inl hx
        | true =>
          rcases List.mem_cons.mp hx with rfl | hx
          · exact Or.inr ⟨List.mem_cons_self, hkeep⟩
          · exact Or.inl hx
      · exact Or.inr ⟨List.mem_cons_of_mem y hx, hf⟩
  obtain ⟨zs, hzs, h⟩ := bind_eq_ok_iff.mp h
  obtain rfl := Except.ok.inj h
  exact (haux [] zs hzs (List.mem_reverse.mp hx)).resolve_left List.not_mem_nil

/-- What is kept stays in order. -/
theorem sublist_of_filterM {f : α → Checked Bool} {l ys : List α} (h : l.filterM f = .ok ys) :
    ys.Sublist l := by
  have haux : ∀ acc zs, l.filterAuxM f acc = .ok zs →
      ∃ kept : List α, kept.Sublist l ∧ zs = kept.reverse ++ acc := by
    clear h
    induction l with
    | nil => exact fun acc zs h => ⟨[], List.nil_sublist [], (Except.ok.inj h).symm⟩
    | cons y rest ih =>
      intro acc zs h
      obtain ⟨keep, -, h⟩ := bind_eq_ok_iff.mp h
      obtain ⟨kept, hkept, rfl⟩ := ih _ _ h
      cases keep with
      | false => exact ⟨kept, hkept.cons y, rfl⟩
      | true => exact ⟨y :: kept, hkept.cons_cons y, by simp⟩
  obtain ⟨zs, hzs, h⟩ := bind_eq_ok_iff.mp h
  obtain rfl := Except.ok.inj h
  obtain ⟨kept, hkept, rfl⟩ := haux [] zs hzs
  simpa using hkept

theorem foldlM_congr {σ : Type} {step step' : σ → α → Checked σ} {l : List α}
    (h : ∀ s, ∀ x ∈ l, step s x = step' s x) (s : σ) : l.foldlM step s = l.foldlM step' s := by
  induction l generalizing s with
  | nil => rfl
  | cons x rest ih =>
    rw [List.foldlM_cons, List.foldlM_cons, h s x List.mem_cons_self]
    exact congrArg (_ >>= ·) (funext (ih fun s y hy => h s y (List.mem_cons_of_mem x hy)))

/-- A run whose steps differ only in what they are given can find all of it first. -/
theorem foldlM_eq_mapM {σ : Type} (g : α → Checked β) (h : σ → β → σ) (l : List α) (s : σ) :
    l.foldlM (fun s x => return h s (← g x)) s = l.mapM g >>= fun ys => .ok (ys.foldl h s) := by
  induction l generalizing s with
  | nil => rfl
  | cons x rest ih =>
    rw [List.foldlM_cons, List.mapM_cons]
    cases g x with
    | error e => rfl
    | ok y =>
      simp only [ok_bind, pure_eq_ok, bind_assoc]
      exact ih (h s y)

/-! ## Orders

The fault that a run meets first depends on the order of its steps, but not whether it meets
one. Runs are therefore compared by their results, as options. -/

@[simp] theorem toOption_bind (m : Checked α) (f : α → Checked β) :
    (m >>= f).toOption = m.toOption.bind fun x => (f x).toOption := by
  cases m <;> rfl

theorem eq_ok_of_toOption_eq {m m' : Checked α} (h : m.toOption = m'.toOption) {x : α}
    (hm : m = .ok x) : m' = .ok x := by
  subst hm
  cases m' with
  | error e => cases h
  | ok y => exact congrArg Except.ok (Option.some.inj h).symm

/-- If a list has results, so has every permutation of it, and they are permuted in the same way. -/
theorem exists_mapM_of_perm {f : α → Checked β} {l l' : List α} (hperm : l.Perm l') {ys : List β}
    (h : l.mapM f = .ok ys) : ∃ ys', l'.mapM f = .ok ys' ∧ ys.Perm ys' := by
  induction hperm generalizing ys with
  | nil => exact ⟨ys, h, .rfl⟩
  | cons x _ ih =>
    rw [List.mapM_cons] at h ⊢
    simp only [bind_eq_ok_iff, pure_eq_ok, Except.ok.injEq] at h
    obtain ⟨y, hy, rest, hrest, rfl⟩ := h
    obtain ⟨rest', hrest', hperm'⟩ := ih hrest
    exact ⟨y :: rest', by simp [hy, hrest'], hperm'.cons y⟩
  | swap x y rest =>
    simp only [List.mapM_cons] at h ⊢
    obtain ⟨y', hy', h⟩ := bind_eq_ok_iff.mp h
    obtain ⟨ys', hys', h⟩ := bind_eq_ok_iff.mp h
    obtain rfl := Except.ok.inj h
    simp only [bind_eq_ok_iff, pure_eq_ok, Except.ok.injEq] at hys'
    obtain ⟨x', hx', rest', hrest', rfl⟩ := hys'
    exact ⟨x' :: y' :: rest', by simp [hx', hy', hrest'], .swap x' y' rest'⟩
  | trans _ _ ih ih' =>
    obtain ⟨ys', hys', hperm'⟩ := ih h
    obtain ⟨ys'', hys'', hperm''⟩ := ih' hys'
    exact ⟨ys'', hys'', hperm'.trans hperm''⟩

/-- **Steps that can be exchanged may be taken in any order.** -/
theorem toOption_foldlM_eq_of_perm {σ : Type} {step : σ → α → Checked σ} {l l' : List α}
    (h : l.Perm l') (hswap : ∀ s, ∀ x ∈ l, ∀ y ∈ l, x ≠ y →
      (step s x >>= fun s' => step s' y).toOption = (step s y >>= fun s' => step s' x).toOption)
    (s : σ) : (l.foldlM step s).toOption = (l'.foldlM step s).toOption := by
  induction h generalizing s with
  | nil => rfl
  | cons x _ ih =>
    rw [List.foldlM_cons, List.foldlM_cons]
    cases step s x with
    | error e => rfl
    | ok s' =>
      exact ih (fun s y hy z hz =>
        hswap s y (List.mem_cons_of_mem x hy) z (List.mem_cons_of_mem x hz)) s'
  -- two neighbours that are equal need no hypothesis, as changing places changes nothing
  | swap x y rest =>
    have hxy : (step s y >>= fun s' => step s' x).toOption =
        (step s x >>= fun s' => step s' y).toOption := by
      by_cases heq : y = x
      · rw [heq]
      · exact hswap s y List.mem_cons_self x (List.mem_cons_of_mem y List.mem_cons_self) heq
    simp only [List.foldlM_cons, ← bind_assoc]
    rw [toOption_bind, hxy, ← toOption_bind]
  | trans hperm _ ih ih' =>
    refine (ih hswap s).trans (ih' (fun s x hx y hy => ?_) s)
    exact hswap s x (hperm.mem_iff.mpr hx) y (hperm.mem_iff.mpr hy)

/-! ## Depth -/

/-- A computation that does not run out of depth. -/
def Shallow (x : Checked α) : Prop := x ≠ .error .tooDeep

theorem shallow_ok (x : α) : Shallow (.ok x) := nofun

theorem Shallow.bind {x : Checked α} {f : α → Checked β} (hx : x.Shallow)
    (hf : ∀ a, x = .ok a → (f a).Shallow) : (x >>= f).Shallow := by
  cases x with
  | error e => exact fun h => hx (congrArg _ (Except.error.inj h))
  | ok a => exact hf a rfl

/-- A search that asks shallow questions is shallow. -/
theorem shallow_findSomeM? {f : α → Checked (Option β)} {l : List α}
    (h : ∀ x ∈ l, (f x).Shallow) : (l.findSomeM? f).Shallow := by
  induction l with
  | nil => exact shallow_ok _
  | cons x rest ih =>
    rw [List.forall_mem_cons] at h
    rw [List.findSomeM?_cons]
    refine h.1.bind fun found _ => ?_
    cases found with
    | some y => exact shallow_ok _
    | none => exact ih h.2

theorem shallow_mapM {f : α → Checked β} {l : List α} (h : ∀ x ∈ l, (f x).Shallow) :
    (l.mapM f).Shallow := by
  induction l with
  | nil => exact shallow_ok _
  | cons x rest ih =>
    rw [List.forall_mem_cons] at h
    rw [List.mapM_cons]
    exact h.1.bind fun _ _ => (ih h.2).bind fun _ _ => shallow_ok _

theorem shallow_filterM {f : α → Checked Bool} {l : List α} (h : ∀ x ∈ l, (f x).Shallow) :
    (l.filterM f).Shallow := by
  have haux : ∀ acc, (l.filterAuxM f acc).Shallow := by
    induction l with
    | nil => exact fun acc => shallow_ok _
    | cons x rest ih =>
      rw [List.forall_mem_cons] at h
      exact fun acc => h.1.bind fun _ _ => ih h.2 _
  exact (haux []).bind fun _ _ => shallow_ok _

theorem shallow_filterMapM {f : α → Checked (Option β)} {l : List α}
    (h : ∀ x ∈ l, (f x).Shallow) : (l.filterMapM f).Shallow := by
  induction l with
  | nil => exact shallow_ok _
  | cons x rest ih =>
    rw [List.forall_mem_cons] at h
    rw [List.filterMapM_cons]
    refine h.1.bind fun found _ => ?_
    cases found with
    | none => exact ih h.2
    | some y => exact (ih h.2).bind fun _ _ => shallow_ok _

theorem shallow_anyM {f : α → Checked Bool} {l : List α} (h : ∀ x ∈ l, (f x).Shallow) :
    (l.anyM f).Shallow := by
  induction l with
  | nil => exact shallow_ok _
  | cons x rest ih =>
    rw [List.forall_mem_cons] at h
    rw [List.anyM]
    refine h.1.bind fun found _ => ?_
    cases found with
    | true => exact shallow_ok _
    | false => exact ih h.2

end ErrorReturns.Checked
