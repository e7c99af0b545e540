import ErrorReturns.Proofs.Meets
import Mathlib.Data.Set.Finite.Lattice
import Mathlib.Logic.Relation

/-!
# Recursions that may go too deep

A recursive computation is described by a *plan*: for each of its arguments, the questions that
it asks of itself, one after another, and what it does with the answers. `Plan.eval` carries out
a plan with questions nested at most to a given depth, and using up that depth is a fault.

Which questions an argument asks (`Plan.Calls`) depends on the answers to the questions before,
and an answer is one that is found at some depth. If some depth is enough, every chain of nested
questions ends (`Plan.acc_calls_of_eval_ne_tooDeep`). If a depth is not enough, and no plan uses
up the depth by itself, there is a chain of nested questions as long as the depth
(`Plan.exists_chain_of_eval_eq_tooDeep`).

A recursion whose nested questions are always smaller needs no more depth than the size of its
question (`Plan.Descends.eval_ne_tooDeep`). Since each answer decides what is asked next, it asks
finitely many questions in all (`Plan.finite_asked`).
-/

namespace ErrorReturns

/-- **A plan** for a result: the result itself, or a question and what follows its answer. -/
inductive Plan (κ ρ α : Type) where
  | done (outcome : Checked α)
  | ask (question : κ) (next : ρ → Plan κ ρ α)

namespace Plan

open Relation

variable {κ ρ α β : Type}

/-- One plan after another. -/
protected def bind : Plan κ ρ α → (α → Plan κ ρ β) → Plan κ ρ β
  | done (.ok x), k => k x
  | done (.error e), _ => done (.error e)
  | ask c next, k => ask c fun a => (next a).bind k

instance : Monad (Plan κ ρ) where
  pure x := done (.ok x)
  bind := Plan.bind

instance : MonadLift Checked (Plan κ ρ) := ⟨done⟩

@[simp] theorem lift_ok_bind (x : α) (k : α → Plan κ ρ β) :
    (liftM (.ok x : Checked α) : Plan κ ρ α) >>= k = k x := rfl

@[simp] theorem lift_error_bind (e : Fault) (k : α → Plan κ ρ β) :
    (liftM (.error e : Checked α) : Plan κ ρ α) >>= k = done (.error e) := rfl

/-- Ask a question for its answer. -/
def request (c : κ) : Plan κ ρ ρ := ask c pure

/-- Carry out a plan, with a way to answer its questions. -/
def run (f : κ → Checked ρ) : Plan κ ρ α → Checked α
  | done x => x
  | ask c next => f c >>= fun a => (next a).run f

section Run

variable (f : κ → Checked ρ)

@[simp] theorem run_lift (x : Checked α) : (liftM x : Plan κ ρ α).run f = x := rfl

@[simp] theorem run_request (c : κ) : (request c).run f = f c := by
  show f c >>= pure = f c
  exact bind_pure (f c)

@[simp] theorem run_bind (x : Plan κ ρ α) (k : α → Plan κ ρ β) :
    (x >>= k).run f = x.run f >>= fun a => (k a).run f := by
  induction x with
  | done outcome => cases outcome <;> rfl
  | ask c next ih =>
    show (f c >>= fun a => (next a >>= k).run f) = (f c >>= fun a => (next a).run f) >>= _
    rw [bind_assoc]
    exact bind_congr fun a => ih a

@[simp] theorem run_foldlM {σ : Type} (step : σ → β → Plan κ ρ σ) (l : List β) (s : σ) :
    (l.foldlM step s).run f = l.foldlM (fun s x => (step s x).run f) s := by
  induction l generalizing s with
  | nil => rfl
  | cons x rest ih =>
    rw [List.foldlM_cons, List.foldlM_cons, run_bind]
    exact bind_congr fun t => ih t

end Run

/-! ## What holds all along a plan -/

section All

variable (asked : κ → Prop) (answered : κ → ρ → Prop)

/-- Every question of a plan is as asked and every outcome as said, as long as the answers are
as promised. -/
def All (ends : Checked α → Prop) : Plan κ ρ α → Prop
  | done x => ends x
  | ask c next => asked c ∧ ∀ a, answered c a → (next a).All ends

variable {asked answered}

theorem All.imp {ends ends' : Checked α → Prop} {asked' : κ → Prop} {x : Plan κ ρ α}
    (h : x.All asked answered ends) (hasked : ∀ c, asked c → asked' c)
    (hends : ∀ y, ends y → ends' y) : x.All asked' answered ends' := by
  induction x with
  | done outcome => exact hends outcome h
  | ask c next ih => exact ⟨hasked c h.1, fun a ha => ih a (h.2 a ha)⟩

/-- What is asked in a sequence is asked in its first part or in its second. -/
theorem All.bind {ends : Checked α → Prop} {ends' : Checked β → Prop} {x : Plan κ ρ α}
    {k : α → Plan κ ρ β} (h : x.All asked answered ends)
    (hok : ∀ a, ends (.ok a) → (k a).All asked answered ends')
    (herror : ∀ e, ends (.error e) → ends' (.error e)) :
    (x >>= k).All asked answered ends' := by
  induction x with
  | done outcome =>
    cases outcome with
    | ok a => exact hok a h
    | error e => exact herror e h
  | ask c next ih => exact ⟨h.1, fun a ha => ih a (h.2 a ha)⟩

/-- The outcome of a plan is as said. -/
theorem All.run_eq_ok {ends : Checked α → Prop} {x : Plan κ ρ α} {f : κ → Checked ρ}
    (h : x.All asked answered ends) (hf : ∀ c a, f c = .ok a → answered c a) {y : α}
    (hy : x.run f = .ok y) : ends (.ok y) := by
  induction x with
  | done outcome => exact hy ▸ h
  | ask c next ih =>
    obtain ⟨a, ha, hnext⟩ := Checked.bind_eq_ok_iff.mp hy
    exact ih a (h.2 a (hf c a ha)) hnext

/-! Where the outcome is described by a contract, plans are put together like computations. -/

variable {F : Fault → Prop} {P : α → Prop} {Q : β → Prop}

theorem all_pure {x : α} (h : P x) :
    (pure x : Plan κ ρ α).All asked answered (Checked.Meets F P) := h

theorem all_request {P : ρ → Prop} {c : κ} (hasked : asked c) (h : ∀ a, answered c a → P a) :
    (request c).All asked answered (Checked.Meets F P) :=
  ⟨hasked, h⟩

theorem All.andThen {x : Plan κ ρ α} {k : α → Plan κ ρ β}
    (h : x.All asked answered (Checked.Meets F P))
    (hk : ∀ a, P a → (k a).All asked answered (Checked.Meets F Q)) :
    (x >>= k).All asked answered (Checked.Meets F Q) :=
  h.bind hk fun _ he => he

theorem All.weaken {P' : α → Prop} {x : Plan κ ρ α}
    (h : x.All asked answered (Checked.Meets F P)) (hP : ∀ a, P a → P' a) :
    x.All asked answered (Checked.Meets F P') :=
  h.imp (fun _ hc => hc) fun _ hy => hy.imp hP

theorem all_lift_bind {x : Checked α} {k : α → Plan κ ρ β} (h : Checked.Meets F P x)
    (hk : ∀ a, P a → (k a).All asked answered (Checked.Meets F Q)) :
    ((liftM x : Plan κ ρ α) >>= k).All asked answered (Checked.Meets F Q) :=
  All.andThen (x := done x) h hk

/-- What every step keeps, a run keeps. -/
theorem all_foldlM {σ : Type} {step : σ → β → Plan κ ρ σ} {I : σ → Prop} {l : List β}
    (h : ∀ s, I s → ∀ x ∈ l, (step s x).All asked answered (Checked.Meets F I)) {s : σ}
    (hs : I s) : (l.foldlM step s).All asked answered (Checked.Meets F I) := by
  induction l generalizing s with
  | nil => exact all_pure hs
  | cons x rest ih =>
    rw [List.foldlM_cons]
    refine (h s hs x List.mem_cons_self).andThen fun s' hs' => ?_
    exact ih (fun s hs y hy => h s hs y (List.mem_cons_of_mem x hy)) hs'

end All

/-! ## Depth -/

/-- The plan of each question, carried out to a depth. -/
def eval (plan : κ → Plan κ ρ ρ) : Nat → κ → Checked ρ
  | 0, _ => .error .tooDeep
  | depth + 1, c => (plan c).run (eval plan depth)

/-- The second computation does what the first one does, unless that goes too deep. -/
def Refines (x y : Checked α) : Prop := x = .error .tooDeep ∨ x = y

theorem Refines.bind {x y : Checked α} {k l : α → Checked β} (h : Refines x y)
    (hk : ∀ a, Refines (k a) (l a)) : Refines (x >>= k) (y >>= l) := by
  rcases h with rfl | rfl
  · exact Or.inl rfl
  · cases x with
    | error e => exact Or.inr rfl
    | ok a => exact hk a

theorem run_refines {f g : κ → Checked ρ} (h : ∀ c, Refines (f c) (g c)) (x : Plan κ ρ α) :
    Refines (x.run f) (x.run g) := by
  induction x with
  | done outcome => exact Or.inr rfl
  | ask c next ih => exact (h c).bind ih

section Eval

variable {plan : κ → Plan κ ρ ρ}

theorem eval_succ_refines (depth : Nat) (c : κ) :
    Refines (eval plan depth c) (eval plan (depth + 1) c) := by
  induction depth generalizing c with
  | zero => exact Or.inl rfl
  | succ depth ih => exact run_refines ih (plan c)

/-- **More depth changes nothing** once there is enough. -/
theorem eval_eq_of_le {depth depth' : Nat} {c : κ} (hle : depth ≤ depth')
    (h : eval plan depth c ≠ .error .tooDeep) : eval plan depth' c = eval plan depth c := by
  induction hle with
  | refl => rfl
  | @step m hle ih => rw [← ih, ← (eval_succ_refines m c).resolve_left (ih ▸ h)]

/-- An answer that is found at some depth. -/
def Yields (plan : κ → Plan κ ρ ρ) (c : κ) (a : ρ) : Prop := ∃ depth, eval plan depth c = .ok a

theorem Yields.eval_eq_ok {c : κ} {a : ρ} {depth : Nat} (h : Yields plan c a)
    (hdepth : eval plan depth c ≠ .error .tooDeep) : eval plan depth c = .ok a := by
  obtain ⟨depth', h'⟩ := h
  have hne : eval plan depth' c ≠ .error .tooDeep := by simp [h']
  rcases Nat.le_total depth depth' with hle | hle
  · rw [← eval_eq_of_le hle hdepth, h']
  · rw [eval_eq_of_le hle hne, h']

end Eval

/-! ## Nested questions -/

/-- The questions of a plan, each after answers to those before it. -/
inductive Asks (answer : κ → ρ → Prop) : Plan κ ρ α → κ → Prop
  | here {c : κ} {next : ρ → Plan κ ρ α} : Asks answer (ask c next) c
  | later {c c' : κ} {a : ρ} {next : ρ → Plan κ ρ α} (ha : answer c a)
      (h : Asks answer (next a) c') : Asks answer (ask c next) c'

/-- What holds along a plan holds of each question. -/
theorem All.of_asks {asked : κ → Prop} {answered answer : κ → ρ → Prop}
    {ends : Checked α → Prop} {x : Plan κ ρ α} (h : x.All asked answered ends)
    (hanswer : ∀ c a, answer c a → answered c a) {c : κ} (hc : Asks answer x c) : asked c := by
  induction hc with
  | here => exact h.1
  | later ha _ ih => exact ih (h.2 _ (hanswer _ _ ha))

section Calls

variable {plan : κ → Plan κ ρ ρ}

/-- **Nested questions**: what answering one question asks next. -/
def Calls (plan : κ → Plan κ ρ ρ) (c c' : κ) : Prop := Asks (Yields plan) (plan c) c'

/-- The questions of a plan that is carried out without going too deep do not go too deep. -/
theorem Asks.eval_ne_tooDeep {x : Plan κ ρ α} {c : κ} {depth : Nat}
    (h : Asks (Yields plan) x c) (hx : x.run (eval plan depth) ≠ .error .tooDeep) :
    eval plan depth c ≠ .error .tooDeep := by
  induction h with
  | here =>
    intro hdeep
    rw [run, hdeep, Checked.error_bind] at hx
    exact hx rfl
  | @later c₀ _ a next ha _ ih =>
    -- the answer to the earlier question, found at some depth, is the one found at this depth
    by_cases hdeep : eval plan depth c₀ = .error .tooDeep
    · rw [run, hdeep, Checked.error_bind] at hx
      exact absurd rfl hx
    · rw [run, ha.eval_eq_ok hdeep, Checked.ok_bind] at hx
      exact ih hx

/-- A plan that goes too deep asks a question that does. -/
theorem exists_asks_of_run_eq_tooDeep {asked : κ → Prop} {answered : κ → ρ → Prop}
    {ends : Checked α → Prop} {x : Plan κ ρ α} (h : x.All asked answered ends)
    (hends : ¬ ends (.error .tooDeep)) (hyields : ∀ c a, Yields plan c a → answered c a)
    {depth : Nat} (hx : x.run (eval plan depth) = .error .tooDeep) :
    ∃ c, Asks (Yields plan) x c ∧ eval plan depth c = .error .tooDeep := by
  induction x with
  | done outcome => exact absurd (hx ▸ h) hends
  | ask c next ih =>
    cases hc : eval plan depth c with
    | error e =>
      rw [run, hc, Checked.error_bind] at hx
      exact ⟨c, .here, hc.trans (congrArg _ (Except.error.inj hx))⟩
    | ok a =>
      rw [run, hc, Checked.ok_bind] at hx
      obtain ⟨c', hc', hdeep⟩ := ih a (h.2 a (hyields c a ⟨depth, hc⟩)) hx
      exact ⟨c', .later ⟨depth, hc⟩ hc', hdeep⟩

/-- If some depth is enough for a question, its nested questions end. -/
theorem acc_calls_of_eval_ne_tooDeep {depth : Nat} {c : κ}
    (h : eval plan depth c ≠ .error .tooDeep) : Acc (fun c' c => Calls plan c c') c := by
  induction depth generalizing c with
  | zero => exact absurd rfl h
  | succ depth ih => exact ⟨c, fun c' hc' => ih (Asks.eval_ne_tooDeep hc' h)⟩

/-- A question whose nested questions end does not lead back to a question that leads to
itself. -/
theorem not_transGen_calls_of_acc {c c' : κ} (h : Acc (fun c' c => Calls plan c c') c)
    (hreach : ReflTransGen (Calls plan) c c') : ¬ TransGen (Calls plan) c' c' := by
  have hacc : Acc (fun c' c => Calls plan c c') c' := by
    induction hreach with
    | refl => exact h
    | tail _ hstep ih => exact ih.inv hstep
  intro hcycle
  have hself : TransGen (fun c' c => Calls plan c c') c' c' := hcycle.swap
  exact hacc.transGen.rec (fun x _ ih hx => ih x hx hx) hself

/-- **Too deep means a long chain**: an evaluation that uses up its depth has nested as many
questions. -/
theorem exists_chain_of_eval_eq_tooDeep
    (hstep : ∀ depth c, eval plan (depth + 1) c = .error .tooDeep →
      ∃ c', Calls plan c c' ∧ eval plan depth c' = .error .tooDeep)
    {depth : Nat} {c : κ} (h : eval plan depth c = .error .tooDeep) :
    ∃ l : List κ, l.length = depth ∧ l.Pairwise (TransGen (Calls plan)) ∧
      ∀ x ∈ l, ReflTransGen (Calls plan) c x ∧ ∃ y, Calls plan x y := by
  induction depth generalizing c with
  | zero => exact ⟨[], rfl, .nil, by simp⟩
  | succ depth ih =>
    obtain ⟨c', hc', hdeep⟩ := hstep depth c h
    obtain ⟨l, hlen, hpair, hl⟩ := ih hdeep
    refine ⟨c :: l, by rw [List.length_cons, hlen], List.pairwise_cons.mpr ⟨?_, hpair⟩, ?_⟩
    · exact fun x hx => TransGen.head' hc' (hl x hx).1
    · rw [List.forall_mem_cons]
      exact ⟨⟨.refl, c', hc'⟩, fun x hx => ⟨.head hc' (hl x hx).1, (hl x hx).2⟩⟩

/-! ## All that is asked -/

theorem Yields.unique {c : κ} {a a' : ρ} (h : Yields plan c a) (h' : Yields plan c a') :
    a = a' := by
  obtain ⟨depth, ha⟩ := h
  have hne : eval plan depth c ≠ .error .tooDeep := by simp [ha]
  exact Except.ok.inj (ha.symm.trans (h'.eval_eq_ok hne))

/-- A plan asks finitely many questions, since each answer decides how it goes on. -/
theorem finite_asks (x : Plan κ ρ α) : {c | Asks (Yields plan) x c}.Finite := by
  induction x with
  | done outcome => exact Set.finite_empty.subset fun c hc => by cases hc
  | ask c next ih =>
    by_cases hyields : ∃ a, Yields plan c a
    · obtain ⟨a, ha⟩ := hyields
      refine ((ih a).insert c).subset fun c' hc' => ?_
      cases hc' with
      | here => exact Set.mem_insert c _
      | later ha' hlater =>
        obtain rfl := ha.unique ha'
        exact Set.mem_insert_of_mem c hlater
    · refine (Set.finite_singleton c).subset fun c' hc' => ?_
      cases hc' with
      | here => rfl
      | later ha _ => exact absurd ⟨_, ha⟩ hyields

/-- **All that a plan asks**: its questions, and those nested in them. -/
def Asked (plan : κ → Plan κ ρ ρ) (x : Plan κ ρ α) (c : κ) : Prop :=
  ∃ first, Asks (Yields plan) x first ∧ ReflTransGen (Calls plan) first c

/-- **A plan asks finitely many questions in all**, if every chain of nested questions ends. -/
theorem finite_asked (hwf : WellFounded fun c' c => Calls plan c c') (x : Plan κ ρ α) :
    {c | Asked plan x c}.Finite := by
  have hnested : ∀ c, {c' | ReflTransGen (Calls plan) c c'}.Finite := by
    intro c
    induction c using hwf.induction with
    | _ c ih =>
      have hsub : {c' | ReflTransGen (Calls plan) c c'} ⊆
          insert c (⋃ d ∈ {d | Calls plan c d}, {c' | ReflTransGen (Calls plan) d c'}) := by
        intro c' hc'
        rcases hc'.cases_head with rfl | ⟨d, hd, hc'⟩
        · exact Set.mem_insert c _
        · exact Set.mem_insert_of_mem c (Set.mem_biUnion hd hc')
      exact (((finite_asks (plan c)).biUnion ih).insert c).subset hsub
  have hfirst : {c | Asks (Yields plan) x c}.Finite := finite_asks x
  refine (hfirst.biUnion fun first _ => hnested first).subset ?_
  rintro c ⟨first, hasks, hc⟩
  exact Set.mem_biUnion hasks hc

end Calls

/-! ## Recursions that descend -/

section Descends

variable {plan : κ → Plan κ ρ ρ} {size : κ → Nat} {answered : κ → ρ → Prop}

/-- **A recursion that descends**: nested questions are smaller, as long as answers are as promised,
and no plan breaks the promise or goes too deep by itself. -/
def Descends (plan : κ → Plan κ ρ ρ) (size : κ → Nat) (answered : κ → ρ → Prop) : Prop :=
  ∀ c, (plan c).All (fun c' => size c' < size c) answered
    (Checked.Meets (· ≠ .tooDeep) (answered c))

namespace Descends

theorem answered_of_yields (h : Descends plan size answered) {c : κ} {a : ρ}
    (ha : Yields plan c a) : answered c a := by
  obtain ⟨depth, ha⟩ := ha
  induction depth generalizing c a with
  | zero => cases ha
  | succ depth ih => exact (h c).run_eq_ok (fun _ _ hc => ih hc) ha

theorem lt_of_calls (h : Descends plan size answered) {c c' : κ} (hcall : Calls plan c c') :
    size c' < size c :=
  (h c).of_asks (fun _ _ => h.answered_of_yields) hcall

/-- Every chain of nested questions ends. -/
theorem wellFounded (h : Descends plan size answered) :
    WellFounded fun c' c => Calls plan c c' :=
  Subrelation.wf h.lt_of_calls (measure size).wf

/-- **Depth beyond the size is enough.** -/
theorem eval_ne_tooDeep (h : Descends plan size answered) {depth : Nat} {c : κ}
    (hdepth : size c < depth) : eval plan depth c ≠ .error .tooDeep := by
  intro hdeep
  induction depth generalizing c with
  | zero => exact Nat.not_lt_zero _ hdepth
  | succ depth ih =>
    obtain ⟨c', hcall, hdeep⟩ := exists_asks_of_run_eq_tooDeep (h c) (fun hends => hends rfl)
      (fun _ _ => h.answered_of_yields) hdeep
    exact ih (Nat.lt_of_lt_of_le (h.lt_of_calls hcall) (Nat.le_of_lt_succ hdepth)) hdeep

end Descends

end Descends

end Plan

end ErrorReturns
