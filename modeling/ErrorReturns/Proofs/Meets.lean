import ErrorReturns.Proofs.Checked

/-!
# Contracts of computations

A computation that may meet a fault is described by a contract of two halves: what holds of its
result, and which faults it may meet instead (`Checked.Meets`). Contracts follow the way in which
computations are put together. A sequence meets a contract if its parts do, one after the other,
and a computation over a list does if each of its steps does. A computation that may meet no
fault at all has a result (`Checked.Meets.exists_eq_ok`).

Two computations are compared in the same way: they are `Checked.Alike` if their results are related
or both meet the same fault.
-/

namespace ErrorReturns.Checked

variable {α β σ : Type} {F : Fault → Prop} {P : α → Prop} {Q : β → Prop}

/-- **A contract**: what holds of the result, and which faults are allowed. -/
def Meets (F : Fault → Prop) (P : α → Prop) : Checked α → Prop
  | .ok x => P x
  | .error e => F e

theorem meets_ok {x : α} (h : P x) : Meets F P (.ok x) := h

theorem meets_pure {x : α} (h : P x) : Meets F P (pure x) := h

/-- Nothing is required of an option without a value. -/
theorem meets_none : Meets F (fun y? : Option β => ∀ y ∈ y?, Q y) (pure none) :=
  meets_pure fun _ h => absurd h (Option.not_mem_none _)

theorem meets_some {x : β} (h : Q x) :
    Meets F (fun y? : Option β => ∀ y ∈ y?, Q y) (pure (some x)) :=
  meets_pure fun _ hy => Option.some.inj hy ▸ h

/-- Nothing is required of a list without elements. -/
theorem meets_nil : Meets F (fun ys : List β => ∀ y ∈ ys, Q y) (pure []) :=
  meets_pure fun _ h => absurd h List.not_mem_nil

theorem meets_of_eq_ok {m : Checked α} {x : α} (hm : m = .ok x) (h : P x) : Meets F P m := hm ▸ h

namespace Meets

variable {m : Checked α}

theorem of_eq_ok (h : Meets F P m) {x : α} (hm : m = .ok x) : P x := by
  subst hm
  exact h

theorem exists_eq_ok (h : Meets (fun _ => False) P m) : ∃ x, m = .ok x ∧ P x := by
  cases m with
  | ok x => exact ⟨x, rfl, h⟩
  | error e => exact h.elim

/-- Either there is a result, or an allowed fault. -/
theorem ok_or_error (h : Meets F P m) : (∃ x, m = .ok x ∧ P x) ∨ ∃ e, m = .error e ∧ F e := by
  cases m with
  | ok x => exact Or.inl ⟨x, rfl, h⟩
  | error e => exact Or.inr ⟨e, rfl, h⟩

theorem imp {P' : α → Prop} (h : Meets F P m) (hP : ∀ x, P x → P' x) : Meets F P' m := by
  cases m with
  | ok x => exact hP x h
  | error e => exact h

theorem imp_fault {F' : Fault → Prop} (h : Meets F P m) (hF : ∀ e, F e → F' e) : Meets F' P m := by
  cases m with
  | ok x => exact h
  | error e => exact hF e h

/-- Of a result it is also known that it is the result. -/
theorem and_eq (h : Meets F P m) : Meets F (fun x => P x ∧ m = .ok x) m := by
  cases m with
  | ok x => exact ⟨h, rfl⟩
  | error e => exact h

theorem trivial (h : Meets F P m) : Meets F (fun _ => True) m := h.imp fun _ _ => True.intro

/-- **One after the other.** -/
theorem bind {f : α → Checked β} (h : Meets F P m) (hf : ∀ x, P x → Meets F Q (f x)) :
    Meets F Q (m >>= f) := by
  cases m with
  | ok x => exact hf x h
  | error e => exact h

/-- A sequence whose second half only arranges the result. -/
theorem map {f : α → β} (h : Meets F P m) (hf : ∀ x, P x → Q (f x)) :
    Meets F Q (do return f (← m)) :=
  h.bind fun x hx => meets_pure (hf x hx)

end Meets

/-- **What holds of the result**, if there is one. -/
abbrev Ensures (P : α → Prop) (m : Checked α) : Prop := Meets (fun _ => True) P m

/-- The least that can be said of a result. -/
theorem ensures_eq (m : Checked α) : Ensures (m = .ok ·) m := by
  cases m with
  | ok x => rfl
  | error e => trivial

/-- One contract tells the faults, and what holds of the result may be known without it. -/
theorem Meets.ensuring {m : Checked α} {P' : α → Prop} (h : Meets F P m) (h' : Ensures P' m) :
    Meets F P' m := by
  cases m with
  | ok x => exact h'
  | error e => exact h

/-- A computation with one possible fault that it does not meet has a result. -/
theorem Meets.of_ne {m : Checked α} {e : Fault} (h : Meets (· = e) P m) (hne : m ≠ .error e) :
    Meets F P m := by
  cases m with
  | ok x => exact h
  | error e' => exact absurd (congrArg _ h) hne

/-- A computation that does not run out of depth, and its result. -/
theorem Shallow.meets {m : Checked α} (h : m.Shallow) : Meets (· ≠ .tooDeep) (m = .ok ·) m := by
  cases m with
  | ok x => rfl
  | error e => exact fun he => h (congrArg _ he)

/-- The fault that a computation meets. -/
def fault? : Checked α → Option Fault
  | .ok _ => none
  | .error e => some e

theorem eq_error_of_fault? {m : Checked α} {e : Fault} (h : m.fault? = some e) : m = .error e := by
  cases m with
  | ok x => cases h
  | error e' => exact congrArg _ (Option.some.inj h)

/-! ## Lists -/

/-- What holds of every result holds of the list of results. -/
theorem meets_mapM {f : α → Checked β} {l : List α} (h : ∀ x ∈ l, Meets F Q (f x)) :
    Meets F (fun ys => ∀ y ∈ ys, Q y) (l.mapM f) := by
  induction l with
  | nil => exact meets_nil
  | cons x rest ih =>
    rw [List.forall_mem_cons] at h
    rw [List.mapM_cons]
    refine h.1.bind fun y hy => (ih h.2).bind fun ys hys => ?_
    exact meets_pure (List.forall_mem_cons.mpr ⟨hy, hys⟩)

/-- What holds of every element of each list holds of the lists together. -/
theorem meets_mapM_flatten {f : α → Checked (List β)} {l : List α}
    (h : ∀ x ∈ l, Meets F (fun ys => ∀ y ∈ ys, Q y) (f x)) :
    Meets F (fun yss => ∀ y ∈ yss.flatten, Q y) (l.mapM f) := by
  refine (meets_mapM h).imp fun yss hyss y hy => ?_
  obtain ⟨ys, hys, hy⟩ := List.mem_flatten.mp hy
  exact hyss ys hys y hy

/-- A filter has a result if every test has one, and keeps elements of the list. -/
theorem meets_filterM {f : α → Checked Bool} {l : List α}
    (h : ∀ x ∈ l, Meets F (fun _ => True) (f x)) :
    Meets F (fun ys => ∀ y ∈ ys, y ∈ l) (l.filterM f) := by
  have haux : ∀ acc, Meets F (fun ys => ∀ y ∈ ys, y ∈ acc ∨ y ∈ l) (l.filterAuxM f acc) := by
    induction l with
    | nil => exact fun acc => meets_ok fun y hy => Or.inl hy
    | cons x rest ih =>
      rw [List.forall_mem_cons] at h
      refine fun acc => h.1.bind fun keep _ => (ih h.2 _).imp fun ys hys y hy => ?_
      cases keep <;> grind
  refine (haux []).bind fun ys hys => meets_pure fun y hy => ?_
  exact (hys y (List.mem_reverse.mp hy)).resolve_left List.not_mem_nil

/-- The same if results are kept in place of elements. -/
theorem meets_filterMapM {f : α → Checked (Option β)} {l : List α}
    (h : ∀ x ∈ l, Meets F (fun y? => ∀ y ∈ y?, Q y) (f x)) :
    Meets F (fun ys => ∀ y ∈ ys, Q y) (l.filterMapM f) := by
  induction l with
  | nil => exact meets_nil
  | cons x rest ih =>
    rw [List.forall_mem_cons] at h
    rw [List.filterMapM_cons]
    refine h.1.bind fun y? hy => ?_
    cases y? with
    | none => exact ih h.2
    | some y =>
      refine (ih h.2).bind fun ys hys => ?_
      exact meets_pure (List.forall_mem_cons.mpr ⟨hy y rfl, hys⟩)

/-- A search has a result if every question has one. -/
theorem meets_findSomeM? {f : α → Checked (Option β)} {l : List α}
    (h : ∀ x ∈ l, Meets F (fun y? => ∀ y ∈ y?, Q y) (f x)) :
    Meets F (fun y? => ∀ y ∈ y?, Q y) (l.findSomeM? f) := by
  induction l with
  | nil => exact meets_none
  | cons x rest ih =>
    rw [List.forall_mem_cons] at h
    rw [List.findSomeM?_cons]
    refine h.1.bind fun y? hy => ?_
    cases y? with
    | some y => exact meets_pure hy
    | none => exact ih h.2

theorem meets_anyM {f : α → Checked Bool} {l : List α}
    (h : ∀ x ∈ l, Meets F (fun _ => True) (f x)) : Meets F (fun _ => True) (l.anyM f) := by
  induction l with
  | nil => exact meets_ok True.intro
  | cons x rest ih =>
    rw [List.forall_mem_cons] at h
    rw [List.anyM]
    refine h.1.bind fun found _ => ?_
    cases found with
    | true => exact meets_pure True.intro
    | false => exact ih h.2

theorem meets_findM? {f : α → Checked Bool} {l : List α}
    (h : ∀ x ∈ l, Meets F (fun _ => True) (f x)) : Meets F (fun _ => True) (l.findM? f) := by
  induction l with
  | nil => exact meets_ok True.intro
  | cons x rest ih =>
    rw [List.forall_mem_cons] at h
    rw [List.findM?]
    refine h.1.bind fun found _ => ?_
    cases found with
    | true => exact meets_pure True.intro
    | false => exact ih h.2

/-- **A run keeps what each of its steps keeps.** -/
theorem meets_foldlM {step : σ → α → Checked σ} {I : σ → Prop} {l : List α}
    (h : ∀ s, I s → ∀ x ∈ l, Meets F I (step s x)) {s : σ} (hs : I s) :
    Meets F I (l.foldlM step s) := by
  induction l generalizing s with
  | nil => exact meets_ok hs
  | cons x rest ih =>
    rw [List.foldlM_cons]
    refine (h s hs x List.mem_cons_self).bind fun s' hs' => ?_
    exact ih (fun s hs y hy => h s hs y (List.mem_cons_of_mem x hy)) hs'

/-- **A run adds up what each of its steps adds** to the past ones. -/
theorem meets_foldlM_prefix {step : σ → α → Checked σ} {I : List α → σ → Prop} {l : List α}
    (h : ∀ past x s, past ++ [x] <+: l → I past s → Meets F (I (past ++ [x])) (step s x)) {s : σ}
    (hs : I [] s) : Meets F (I l) (l.foldlM step s) := by
  have hrun : ∀ rest past s, past ++ rest = l → I past s →
      Meets F (I (past ++ rest)) (rest.foldlM step s) := by
    intro rest
    induction rest with
    | nil =>
      intro past s _ hs
      rw [List.append_nil]
      exact meets_ok hs
    | cons x rest ih =>
      intro past s hl hs
      rw [List.append_cons] at hl ⊢
      rw [List.foldlM_cons]
      refine (h past x s ⟨rest, hl⟩ hs).bind fun s' hs' => ?_
      exact ih (past ++ [x]) s' hl hs'
  exact hrun l [] s rfl hs

theorem meets_foldlM_append {step : σ → α → Checked σ} {I : List α → σ → Prop} {l : List α}
    (h : ∀ past s, I past s → ∀ x ∈ l, Meets F (I (past ++ [x])) (step s x)) {s : σ} (hs : I [] s) :
    Meets F (I l) (l.foldlM step s) :=
  meets_foldlM_prefix (fun past x s hpast hs => h past s hs x
    (hpast.subset (List.mem_append_right past List.mem_cons_self))) hs

/-- **What each step brings about and later steps keep** holds at the end. -/
theorem meets_foldlM_forall_mem {step : σ → α → Checked σ} {I : σ → Prop} {R : α → σ → Prop}
    {l : List α} (h : ∀ s, I s → ∀ x ∈ l,
      Meets F (fun s' => I s' ∧ R x s' ∧ ∀ y, R y s → R y s') (step s x)) {s : σ} (hs : I s) :
    Meets F (fun s' => I s' ∧ ∀ x ∈ l, R x s') (l.foldlM step s) := by
  refine meets_foldlM_append (I := fun past s' => I s' ∧ ∀ x ∈ past, R x s')
    (fun past s hs x hx => ?_) ⟨hs, nofun⟩
  refine (h s hs.1 x hx).imp fun s' ⟨hI, hx, hkeep⟩ => ⟨hI, fun y hy => ?_⟩
  rcases List.mem_append.mp hy with hy | hy
  · exact hkeep y (hs.2 y hy)
  · exact List.mem_singleton.mp hy ▸ hx

/-- **A run through the numbers below a bound** follows an invariant that counts along. -/
theorem meets_foldlM_range {step : σ → Nat → Checked σ} {I : Nat → σ → Prop} {n : Nat}
    (h : ∀ k < n, ∀ s, I k s → Meets F (I (k + 1)) (step s k)) {s : σ} (hs : I 0 s) :
    Meets F (I n) ((List.range n).foldlM step s) := by
  induction n with
  | zero => exact meets_ok hs
  | succ n ih =>
    rw [List.range_succ, List.foldlM_append]
    refine (ih fun k hk => h k (Nat.lt_succ_of_lt hk)).bind fun s' hs' => ?_
    rw [List.foldlM_cons]
    exact (h n (Nat.lt_succ_self n) s' hs').bind fun _ => meets_pure

/-! ## Two computations -/

/-- **Alike computations**: their results are related, or both meet the same fault. -/
def Alike (Q : α → β → Prop) : Checked α → Checked β → Prop
  | .ok x, .ok y => Q x y
  | .error e, .error e' => e = e'
  | _, _ => False

section Alike

variable {α' β' γ : Type} {R : α → β → Prop} {R' : α' → β' → Prop}

theorem alike_pure {x : α} {y : β} (h : R x y) : Alike R (pure x) (pure y) := h

namespace Alike

variable {m : Checked α} {m' : Checked β}

theorem refl {R : α → α → Prop} (h : ∀ x, m = .ok x → R x x) : Alike R m m := by
  cases m with
  | ok x => exact h x rfl
  | error e => rfl

theorem imp {S : α → β → Prop} (h : Alike R m m')
    (hS : ∀ x y, m = .ok x → m' = .ok y → R x y → S x y) : Alike S m m' := by
  match m, m', h with
  | .ok x, .ok y, h => exact hS x y rfl rfl h
  | .error _, .error _, h => exact h

theorem bind {f : α → Checked α'} {f' : β → Checked β'} (h : Alike R m m')
    (hf : ∀ x y, R x y → Alike R' (f x) (f' y)) : Alike R' (m >>= f) (m' >>= f') := by
  match m, m', h with
  | .ok x, .ok y, h => exact hf x y h
  | .error _, .error _, h => exact h

theorem eq {R : α → α → Prop} {m m' : Checked α} (h : Alike R m m') (hR : ∀ x y, R x y → x = y) :
    m = m' := by
  match m, m', h with
  | .ok x, .ok y, h => exact congrArg _ (hR x y h)
  | .error _, .error _, h => exact congrArg _ h

/-- Two computations that are like a third one are alike. -/
theorem through {S : α' → β → Prop} {m'' : Checked α'} (h : Alike R m m') (h' : Alike S m'' m') :
    Alike (fun x z => ∃ y, R x y ∧ S z y) m m'' := by
  match m, m', m'', h, h' with
  | .ok x, .ok y, .ok z, h, h' => exact ⟨y, h, h'⟩
  | .error _, .error _, .error _, h, h' => exact h.trans h'.symm

end Alike

end Alike

end ErrorReturns.Checked
