import ErrorReturns.Program.Draft
import ErrorReturns.Program.Defect
import ErrorReturns.Proofs.Plan
import ErrorReturns.Proofs.Program.Writing
import ErrorReturns.Proofs.Trace.Lookup
import Mathlib.Data.List.Nodup
import Mathlib.Data.List.Perm.Subperm
import Mathlib.Data.List.Permutation
import Mathlib.Data.List.ProdSigma
import Mathlib.Tactic.TFAE

/-!
# When resolution along a slice ends

A resolution is a recursion with a plan: `Resolver.plan` is one level of it with its questions
left open, and carrying out the plan to a depth is resolving to that depth
(`Resolver.resolve_eq_eval`). The nested resolutions (`Resolver.Calls`) are those that the plan
asks for.

The seen values only grow from one nested resolution to the next (`Resolver.Grows`), and what is
added to them are results of instructions or left operands of comparisons, so at most twice as many
values as there are instructions. A chain of nested resolutions that is longer than the places it
can be at meets one of them again with the same values seen (`Resolver.length_le_of_acyclic`), and
from there it goes round for ever. This gives both halves of `Resolver.resolution_ends_tfae`: a
resolution ends exactly when no nested resolution comes back to itself, and if it ends, the depth
that it is given is enough.

Around a loop of phis this is so, since a phi that has been seen is not entered again
(`Resolver.loopCarried_resolution_ends`). Nothing of the kind is noted of a load: a loop that
stores back what it has loaded has a resolution that does not end
(`Resolver.storedBack_resolution_too_deep`).
-/

namespace ErrorReturns

open Checked Relation

namespace Resolver

variable (r : Resolver)

/-! ## Resolution as a plan -/

/-- **The plan of a resolution**: what resolving a value asks, having seen some values. -/
def plan (c : Value × List Value) : Plan (Value × List Value) Resolution Resolution :=
  r.step (fun v seen => Plan.request (v, seen)) c.1 c.2

/-- **Nested resolutions**: which values are resolved in order to resolve one, and what has been
seen by then. -/
def Calls : Value × List Value → Value × List Value → Prop := Plan.Calls r.plan

section Run

variable (f : Value × List Value → Checked Resolution)

/-- What a branch answers is the same whether its questions are asked or written down. The lemmas
below say so of all parts of a resolution. -/
@[simp] theorem run_answerOfBranch (q : Question) (cond : Value) (taken : Bool)
    (seen : List Value) :
    (r.answerOfBranch (fun v seen => Plan.request (v, seen)) q cond taken seen).run f =
      r.answerOfBranch (fun v seen => f (v, seen)) q cond taken seen := by
  unfold answerOfBranch
  rw [Plan.run_bind, Plan.run_lift]
  refine bind_congr fun op => ?_
  split
  · split
    · rfl
    · rw [Plan.run_bind, Plan.run_request]
      refine bind_congr fun lhs => ?_
      dsimp only
      split
      · rfl
      · rw [Plan.run_bind, Plan.run_request]
        refine bind_congr fun rhs => ?_
        split <;> rfl
  · rfl

@[simp] theorem run_answerOfSwitch (q : Question) (cond : Value) (cases : List (Constant × BlockId))
    (next : BlockId) (seen : List Value) :
    (answerOfSwitch (fun v seen => Plan.request (v, seen)) q cond cases next seen).run f =
      answerOfSwitch (fun v seen => f (v, seen)) q cond cases next seen := by
  unfold answerOfSwitch
  rw [Plan.run_bind, Plan.run_request]
  refine bind_congr fun x => ?_
  dsimp only
  split
  · rfl
  · split <;> rfl

@[simp] theorem run_answerAt (q : Question) (n : Nat) (seen : List Value) :
    (r.answerAt (fun v seen => Plan.request (v, seen)) q n seen).run f =
      r.answerAt (fun v seen => f (v, seen)) q n seen := by
  unfold answerAt
  rw [Plan.run_bind, Plan.run_lift]
  refine bind_congr fun block => ?_
  rw [Plan.run_bind, Plan.run_lift]
  refine bind_congr fun next => ?_
  rw [Plan.run_bind, Plan.run_lift]
  refine bind_congr fun op => ?_
  split
  · exact r.run_answerOfBranch f _ _ _ _
  · exact run_answerOfSwitch f _ _ _ _ _
  · rfl

@[simp] theorem run_answer (q : Question) (ns : List Nat) (seen : List Value) :
    (r.answer (fun v seen => Plan.request (v, seen)) q ns seen).run f =
      r.answer (fun v seen => f (v, seen)) q ns seen := by
  induction ns generalizing seen with
  | nil => rfl
  | cons n rest ih =>
    unfold answer
    rw [Plan.run_bind, r.run_answerAt]
    refine bind_congr fun x => ?_
    split
    · rfl
    · exact ih _

@[simp] theorem run_resolveCmp (cmp : InstId) (pred : Predicate) (lhs rhs : Value)
    (seen : List Value) :
    (r.resolveCmp (fun v seen => Plan.request (v, seen)) cmp pred lhs rhs seen).run f =
      r.resolveCmp (fun v seen => f (v, seen)) cmp pred lhs rhs seen := by
  unfold resolveCmp
  rw [Plan.run_bind, Plan.run_request]
  refine bind_congr fun x => ?_
  split
  · rfl
  · rw [Plan.run_bind, Plan.run_request]
    refine bind_congr fun y => ?_
    split
    · rfl
    · rw [Plan.run_bind, Plan.run_lift]
      exact bind_congr fun ns => r.run_answer f _ ns _

/-- Carrying out the plan is one level of the resolution. -/
@[simp] theorem run_plan (c : Value × List Value) :
    (r.plan c).run f = r.step (fun v seen => f (v, seen)) c.1 c.2 := by
  obtain ⟨v, seen⟩ := c
  -- the plan names the recursive calls that the step makes in place, so both are opened together,
  -- one case per operation, and `bind_congr` passes over what they share
  unfold plan step
  cases v with
  | inst id =>
    dsimp only
    rw [Plan.run_bind, Plan.run_lift]
    refine bind_congr fun op => ?_
    cases op with
    | load ptr =>
      dsimp only
      rw [Plan.run_bind, Plan.run_lift]
      refine bind_congr fun stored => ?_
      cases stored with
      | some v => exact Plan.run_request f _
      | none =>
        dsimp only
        rw [Plan.run_bind, Plan.run_lift]
        refine bind_congr fun op => ?_
        split
        · exact Plan.run_request f _
        · rfl
        · rfl
    | cast kind inner => exact Plan.run_request f _
    | freeze inner => exact Plan.run_request f _
    | select cond ifTrue ifFalse =>
      dsimp only
      rw [Plan.run_bind, Plan.run_request]
      refine bind_congr fun x => ?_
      split
      · exact Plan.run_request f _
      · rfl
    | cmp pred lhs rhs => exact r.run_resolveCmp f id pred lhs rhs seen
    | phi incoming =>
      dsimp only
      split
      · rfl
      · rw [Plan.run_bind, Plan.run_lift]
        refine bind_congr fun own => ?_
        split
        · exact Plan.run_request f _
        · rfl
    | _ => rfl
  | _ => rfl

end Run

/-- **A resolution carries out its plan.** -/
theorem resolve_eq_eval (depth : Nat) (v : Value) (seen : List Value) :
    r.resolve depth v seen = Plan.eval r.plan depth (v, seen) := by
  induction depth generalizing v seen with
  | zero => rfl
  | succ depth ih =>
    show r.step (r.resolve depth) v seen = (r.plan (v, seen)).run (Plan.eval r.plan depth)
    rw [run_plan, show r.resolve depth = fun v seen => Plan.eval r.plan depth (v, seen) from
      funext fun v => funext fun seen => ih v seen]

/-! ## The values that come to be seen -/

/-- The left operand of a comparison. -/
def comparand? : Operation → Option Value
  | .cmp _ lhs _ => some lhs
  | _ => none

/-- The results of the instructions. -/
def results : List Value := (List.range r.program.insts.size).map fun i => .inst ⟨i⟩

/-- The values that a resolution may note as seen: the results of instructions and the left
operands of comparisons. -/
def tracked : List Value :=
  r.results ++ r.program.insts.toList.filterMap fun i => comparand? i.op

@[simp] theorem length_results : r.results.length = r.program.insts.size := by
  rw [results, List.length_map, List.length_range]

theorem length_tracked_le : r.tracked.length ≤ 2 * r.program.insts.size := by
  have hlhs := List.length_filterMap_le (fun i : Inst => comparand? i.op) r.program.insts.toList
  rw [tracked, List.length_append, length_results, Nat.two_mul]
  exact Nat.add_le_add_left hlhs _

variable {r}

theorem inst_mem_results {id : InstId} {op : Operation} (h : r.program.op id = .ok op) :
    Value.inst id ∈ r.results := by
  obtain ⟨i, hi, -⟩ := bind_eq_ok_iff.mp h
  have hlt := (Array.getElem?_eq_some_iff.mp (Arena.inst_eq_ok_iff.mp hi)).1
  exact List.mem_map.mpr ⟨id.index, List.mem_range.mpr hlt, rfl⟩

/-- The left side of a comparison is among the values that may be noted. -/
theorem lhs_mem_tracked {cond lhs rhs : Value} {pred : Predicate}
    (h : r.program.opOf? cond = .ok (some (.cmp pred lhs rhs))) : lhs ∈ r.tracked := by
  cases cond with
  | inst id =>
    obtain ⟨op, hop, hsome⟩ := bind_eq_ok_iff.mp h
    obtain ⟨i, hi, hok⟩ := bind_eq_ok_iff.mp hop
    have hcmp : comparand? i.op = some lhs := by
      rw [Except.ok.inj hok, Option.some.inj (Except.ok.inj hsome)]
      rfl
    refine List.mem_append_right _ (List.mem_filterMap.mpr ⟨i, ?_, hcmp⟩)
    exact Array.mem_toList_iff.mpr (Array.mem_of_getElem? (Arena.inst_eq_ok_iff.mp hi))
  | _ => simp [Arena.opOf?] at h

variable (r)

/-- **The seen values grow** by one new value at a time. -/
def Grows : List Value → List Value → Prop :=
  ReflTransGen fun seen seen' => ∃ v ∈ r.tracked, v ∉ seen ∧ seen' = v :: seen

variable {r}

theorem grows_cons {v : Value} {seen : List Value} (hv : v ∈ r.tracked) (hnew : v ∉ seen) :
    r.Grows seen (v :: seen) :=
  .single ⟨v, hv, hnew, rfl⟩

theorem Grows.suffix {seen seen' : List Value} (h : r.Grows seen seen') : seen <:+ seen' := by
  induction h with
  | refl => exact List.suffix_refl seen
  | tail _ hstep ih =>
    obtain ⟨v, -, -, rfl⟩ := hstep
    exact ih.trans (List.suffix_cons v _)

/-- No more values come to be seen than are tracked, whatever has been seen before. -/
theorem Grows.length_le {seen seen' : List Value} (h : r.Grows seen seen') :
    seen'.length ≤ seen.length + 2 * r.program.insts.size := by
  have hnew : ∃ new, seen' = new ++ seen ∧ new.Nodup ∧ new ⊆ r.tracked := by
    induction h with
    | refl => exact ⟨[], rfl, List.nodup_nil, List.nil_subset _⟩
    | tail _ hstep ih =>
      obtain ⟨v, hv, hfresh, rfl⟩ := hstep
      obtain ⟨new, rfl, hnodup, hsub⟩ := ih
      refine ⟨v :: new, rfl, List.nodup_cons.mpr ⟨?_, hnodup⟩, List.cons_subset.mpr ⟨hv, hsub⟩⟩
      exact fun hmem => hfresh (List.mem_append_left seen hmem)
  obtain ⟨new, rfl, hnodup, hsub⟩ := hnew
  have hle := Nat.le_trans (hnodup.subperm hsub).length_le r.length_tracked_le
  rw [List.length_append]
  omega

/-! ## What a plan keeps -/

section Keeps

variable {α β : Type}

variable (r) in
/-- How a plan may end, having started with some values seen: with more of them seen, or with a
fault other than being too deep. -/
def Leaves (seen : List Value) : Checked (α × List Value) → Prop
  | .ok x => r.Grows seen x.2
  | .error e => e ≠ .tooDeep

variable (r) in
/-- **A plan that only adds to the seen values**, and does not run out of depth by itself. -/
def Keeps (seen : List Value) (x : Plan (Value × List Value) Resolution (α × List Value)) : Prop :=
  x.All (fun c => r.Grows seen c.2) (fun c a => r.Grows c.2 a.2) (r.Leaves seen)

theorem Keeps.of_grows {seen seen' : List Value}
    {x : Plan (Value × List Value) Resolution (α × List Value)} (h : r.Keeps seen' x)
    (hgrows : r.Grows seen seen') : r.Keeps seen x := by
  refine h.imp (fun c hc => hgrows.trans hc) fun y hy => ?_
  cases y with
  | ok y => exact hgrows.trans hy
  | error e => exact hy

theorem keeps_pure (a : α) (seen : List Value) : r.Keeps seen (pure (a, seen)) :=
  ReflTransGen.refl

theorem keeps_request (v : Value) (seen : List Value) :
    r.Keeps seen (Plan.request (v, seen)) :=
  ⟨.refl, fun _ ha => ha⟩

theorem keeps_lift_bind {seen : List Value} {x : Checked β}
    {k : β → Plan (Value × List Value) Resolution (α × List Value)} (hx : x.Shallow)
    (hk : ∀ b, x = .ok b → r.Keeps seen (k b)) :
    r.Keeps seen ((liftM x : Plan (Value × List Value) Resolution β) >>= k) := by
  cases x with
  | ok b => exact hk b rfl
  | error e => exact fun h => hx (congrArg _ h)

theorem Keeps.bind {seen : List Value}
    {x : Plan (Value × List Value) Resolution (β × List Value)}
    {k : β × List Value → Plan (Value × List Value) Resolution (α × List Value)}
    (hx : r.Keeps seen x) (hk : ∀ b seen', r.Grows seen seen' → r.Keeps seen' (k (b, seen'))) :
    r.Keeps seen (x >>= k) :=
  Plan.All.bind hx (fun y hy => (hk y.1 y.2 hy).of_grows hy) fun _ he => he

end Keeps

section Plans

variable (r)

/-- A branch only adds to the seen values. -/
theorem keeps_answerOfBranch (q : Question) (cond : Value) (taken : Bool) (seen : List Value) :
    r.Keeps seen
      (r.answerOfBranch (fun v seen => Plan.request (v, seen)) q cond taken seen) := by
  refine keeps_lift_bind (r.program.shallow_opOf? cond) fun op hop => ?_
  split
  · rename_i pred lhs rhs
    split
    · exact keeps_pure _ _
    · rename_i hnew
      -- the left operand is noted before it is resolved, and only if it is new
      have hgrows := grows_cons (lhs_mem_tracked hop) fun h => hnew (Or.inr h)
      refine Keeps.of_grows (Keeps.bind (keeps_request lhs _) fun lhs? seen _ => ?_) hgrows
      dsimp only
      split
      · exact keeps_pure _ _
      · refine Keeps.bind (keeps_request rhs _) fun rhs? seen _ => ?_
        dsimp only
        split <;> exact keeps_pure _ _
  · exact keeps_pure _ _

theorem keeps_answerOfSwitch (q : Question) (cond : Value) (cases : List (Constant × BlockId))
    (next : BlockId) (seen : List Value) :
    r.Keeps seen
      (answerOfSwitch (fun v seen => Plan.request (v, seen)) q cond cases next seen) := by
  refine Keeps.bind (keeps_request cond _) fun cond? seen _ => ?_
  dsimp only
  split
  · exact keeps_pure _ _
  · split <;> exact keeps_pure _ _

theorem keeps_answerAt (q : Question) (n : Nat) (seen : List Value) :
    r.Keeps seen (r.answerAt (fun v seen => Plan.request (v, seen)) q n seen) := by
  refine keeps_lift_bind (r.slice.shallow_get n) fun block _ => ?_
  refine keeps_lift_bind (r.slice.shallow_get (n + 1)) fun next _ => ?_
  refine keeps_lift_bind (r.program.shallow_terminatorOp? block) fun op _ => ?_
  split
  · exact r.keeps_answerOfBranch _ _ _ _
  · exact r.keeps_answerOfSwitch _ _ _ _ _
  · exact keeps_pure _ _

theorem keeps_answer (q : Question) (ns : List Nat) (seen : List Value) :
    r.Keeps seen (r.answer (fun v seen => Plan.request (v, seen)) q ns seen) := by
  induction ns generalizing seen with
  | nil => exact keeps_pure _ _
  | cons n rest ih =>
    refine Keeps.bind (r.keeps_answerAt q n seen) fun answer? seen _ => ?_
    cases answer? with
    | some b => exact keeps_pure _ _
    | none => exact ih seen

/-- So does a comparison. -/
theorem keeps_resolveCmp (cmp : InstId) (pred : Predicate) (lhs rhs : Value)
    (seen : List Value) :
    r.Keeps seen
      (r.resolveCmp (fun v seen => Plan.request (v, seen)) cmp pred lhs rhs seen) := by
  refine Keeps.bind (keeps_request lhs _) fun lhs? seen _ => ?_
  cases lhs? with
  | none => exact keeps_pure _ _
  | some l =>
    refine Keeps.bind (keeps_request rhs _) fun rhs? seen _ => ?_
    cases rhs? with
    | none => exact keeps_pure _ _
    | some d => exact keeps_lift_bind (r.shallow_earlierPositions cmp) fun ns _ =>
        r.keeps_answer _ ns seen

end Plans

/-- **The plan of a resolution** only adds to the seen values. -/
theorem keeps_plan (hr : r.mayAlias.Shallow) (c : Value × List Value) :
    r.Keeps c.2 (r.plan c) := by
  obtain ⟨v, seen⟩ := c
  cases v with
  | inst id =>
    refine keeps_lift_bind (r.program.shallow_op id) fun op hop => ?_
    cases op with
    | load ptr =>
      refine keeps_lift_bind (shallow_storedValue? hr id ptr) fun stored _ => ?_
      cases stored with
      | some v => exact keeps_request _ _
      | none =>
        refine keeps_lift_bind (r.program.shallow_opOf? ptr) fun op _ => ?_
        split
        · exact keeps_request _ _
        · exact keeps_pure _ _
        · exact keeps_pure _ _
    | cast kind inner => exact keeps_request _ _
    | freeze inner => exact keeps_request _ _
    | select cond ifTrue ifFalse =>
      refine Keeps.bind (keeps_request cond _) fun cond? seen _ => ?_
      dsimp only
      split
      · exact keeps_request _ _
      · exact keeps_pure _ _
    | cmp pred lhs rhs => exact r.keeps_resolveCmp id pred lhs rhs seen
    | phi incoming =>
      dsimp only
      split
      · exact keeps_pure _ _
      · -- the phi is noted before its incoming value is resolved
        rename_i hnew
        refine Keeps.of_grows ?_ (grows_cons (List.mem_append_left _ (inst_mem_results hop)) hnew)
        refine keeps_lift_bind (r.program.shallow_blockOf id) fun own _ => ?_
        split
        · exact keeps_request _ _
        · exact keeps_pure _ _
    | _ => exact keeps_pure _ _
  | _ => exact keeps_pure _ _

/-- A resolution only adds to the seen values. -/
theorem grows_of_yields (hr : r.mayAlias.Shallow) {c : Value × List Value} {a : Resolution}
    (h : Plan.Yields r.plan c a) : r.Grows c.2 a.2 := by
  obtain ⟨depth, h⟩ := h
  induction depth generalizing c a with
  | zero => simp [Plan.eval] at h
  | succ depth ih => exact (keeps_plan hr c).run_eq_ok (fun _ _ hc => ih hc) h

/-- Nested resolutions have seen at least as much. -/
theorem grows_of_reflTransGen (hr : r.mayAlias.Shallow) {c c' : Value × List Value}
    (h : ReflTransGen r.Calls c c') : r.Grows c.2 c'.2 := by
  induction h with
  | refl => exact .refl
  | @tail b c' _ hcall ih =>
    exact ih.trans ((keeps_plan hr b).of_asks (fun _ _ ha => grows_of_yields hr ha) hcall)

/-- Only the result of an instruction is resolved through other values. -/
theorem mem_results_of_calls {c c' : Value × List Value} (h : r.Calls c c') :
    c.1 ∈ r.results := by
  obtain ⟨v, seen⟩ := c
  cases v with
  | inst id =>
    cases hop : r.program.op id with
    | ok op => exact inst_mem_results hop
    | error e =>
      have hplan : r.plan (.inst id, seen) = .done (.error e) := by
        unfold plan step
        dsimp only
        rw [hop, Plan.lift_error_bind]
      rw [Calls, Plan.Calls, hplan] at h
      cases h
  | _ => cases h

/-! ## Chains of nested resolutions -/

/-- A resolution that goes too deep has nested one that does. -/
theorem exists_calls_of_eval_eq_tooDeep (hr : r.mayAlias.Shallow) (depth : Nat)
    (c : Value × List Value) (h : Plan.eval r.plan (depth + 1) c = .error .tooDeep) :
    ∃ c', r.Calls c c' ∧ Plan.eval r.plan depth c' = .error .tooDeep :=
  Plan.exists_asks_of_run_eq_tooDeep (keeps_plan hr c) (fun hends => hends rfl)
    (fun _ _ ha => grows_of_yields hr ha) h

variable (r) in
/-- The places of a chain: a value that it resolves and how many values have come to be seen on the
way. -/
def places : List (Value × Nat) :=
  r.results ×ˢ List.range (2 * r.program.insts.size + 1)

/-- **A chain without repetition is short.** Along a chain the seen values grow, so that two of
its members which resolve the same value, with equally many values seen, are the same. -/
theorem length_le_of_acyclic (hr : r.mayAlias.Shallow) {v : Value} {seen : List Value}
    {l : List (Value × List Value)} (hpair : l.Pairwise (TransGen r.Calls))
    (hl : ∀ x ∈ l, ReflTransGen r.Calls (v, seen) x ∧ ∃ y, r.Calls x y)
    (hacyclic : ∀ c, ReflTransGen r.Calls (v, seen) c → ¬ TransGen r.Calls c c) :
    l.length ≤ r.program.insts.size * (2 * r.program.insts.size + 1) := by
  have hgrows : ∀ c ∈ l, r.Grows seen c.2 := fun c hc => grows_of_reflTransGen hr (hl c hc).1
  -- two members at one place have the same values seen, the earlier being a suffix of the later
  have hnodup : (l.map fun c => (c.1, c.2.length - seen.length)).Nodup := by
    refine List.pairwise_map.mpr (hpair.imp_of_mem fun {a b} ha hb hab heq => ?_)
    obtain ⟨hvalue, hlength⟩ := Prod.mk.inj heq
    have hlea := (hgrows a ha).suffix.length_le
    have hleb := (hgrows b hb).suffix.length_le
    have hseen := (grows_of_reflTransGen hr hab.to_reflTransGen).suffix.eq_of_length (by omega)
    have hsame : a = b := Prod.ext hvalue hseen
    exact hacyclic a (hl a ha).1 (hsame ▸ hab)
  have hsub : (l.map fun c => (c.1, c.2.length - seen.length)) ⊆ r.places := by
    intro place hplace
    obtain ⟨c, hc, rfl⟩ := List.mem_map.mp hplace
    obtain ⟨-, c', hcall⟩ := hl c hc
    have hlen := (hgrows c hc).length_le
    exact List.mem_product.mpr ⟨mem_results_of_calls hcall, List.mem_range.mpr (by omega)⟩
  have hle := (hnodup.subperm hsub).length_le
  rwa [List.length_map, places, List.length_product, length_results, List.length_range] at hle

/-- The depth that a resolution is given is more than any chain without repetition needs. -/
theorem resolveSeeing_ne_tooDeep_of_acyclic (hr : r.mayAlias.Shallow) {v : Value}
    {seen : List Value}
    (hacyclic : ∀ c, ReflTransGen r.Calls (v, seen) c → ¬ TransGen r.Calls c c) :
    r.resolveSeeing v seen ≠ .error .tooDeep := by
  intro hdeep
  rw [resolveSeeing, resolve_eq_eval] at hdeep
  obtain ⟨l, hlen, hpair, hl⟩ :=
    Plan.exists_chain_of_eval_eq_tooDeep (exists_calls_of_eval_eq_tooDeep hr) hdeep
  have hle := length_le_of_acyclic hr hpair hl hacyclic
  have hlt : r.program.insts.size * (2 * r.program.insts.size + 1) < r.enoughDepth :=
    Nat.mul_lt_mul_of_lt_of_lt (Nat.lt_succ_self _) (Nat.lt_succ_self _)
  omega

/-- **When a resolution ends.** These are the same for every program, slice and alias oracle, and
for every value, with nothing seen before: every chain of nested resolutions ends; some depth is
enough; the depth that a resolution is given is enough; and no nested resolution comes back to
its own value with the same values seen. -/
theorem resolution_ends_tfae (hr : r.mayAlias.Shallow) (v : Value) :
    List.TFAE [Acc (fun c' c => r.Calls c c') (v, []),
      ∃ depth, r.resolve depth v [] ≠ .error .tooDeep,
      r.resolveSeeing v [] ≠ .error .tooDeep,
      ∀ c, ReflTransGen r.Calls (v, []) c → ¬ TransGen r.Calls c c] := by
  tfae_have 1 → 4 := fun hacc c hreach => Plan.not_transGen_calls_of_acc hacc hreach
  tfae_have 4 → 3 := resolveSeeing_ne_tooDeep_of_acyclic hr
  tfae_have 3 → 2 := fun hends => ⟨r.enoughDepth, hends⟩
  tfae_have 2 → 1 := by
    rintro ⟨depth, hends⟩
    rw [resolve_eq_eval] at hends
    exact Plan.acc_calls_of_eval_ne_tooDeep hends
  tfae_finish

/-- Two phis that carry a value around a loop. -/
def loopCarried : List Directive :=
  [.module "m", .declare ⟨0⟩ "f" [] (.int 32),
    .define ⟨0⟩ [.block, .block, .block, .block,
      .moveTo ⟨0⟩, .jump ⟨1⟩,
      .moveTo ⟨1⟩, .phi (.int 32) [], .cmp .slt (.inst ⟨1⟩) .null,
      .branch (.inst ⟨2⟩) ⟨2⟩ ⟨3⟩,
      .moveTo ⟨2⟩, .phi (.int 32) [(⟨1⟩, .inst ⟨1⟩)], .jump ⟨1⟩,
      .moveTo ⟨3⟩, .ret (some (.inst ⟨1⟩)),
      .setPhi (.inst ⟨1⟩) [(⟨0⟩, .undef), (⟨2⟩, .inst ⟨4⟩)]]]

/-- Around a loop of phis the nested resolutions end, since a phi that has been seen is not
entered again. -/
theorem loopCarried_resolution_ends :
    AliasOracle.basic.Shallow ∧ ∃ p, Program.build loopCarried = .ok p ∧
      let r : Resolver := ⟨p, .basic, .forward [⟨0⟩, ⟨1⟩, ⟨2⟩, ⟨1⟩]⟩
      r.resolve 3 (.inst ⟨1⟩) [] = .ok (none, [.inst ⟨4⟩, .inst ⟨1⟩]) ∧
        Acc (fun c' c => r.Calls c c') (.inst ⟨1⟩, []) := by
  obtain ⟨p, hp, hends⟩ : ∃ p, Program.build loopCarried = .ok p ∧
      resolve ⟨p, .basic, .forward [⟨0⟩, ⟨1⟩, ⟨2⟩, ⟨1⟩]⟩ 3 (.inst ⟨1⟩) [] =
        .ok (none, [.inst ⟨4⟩, .inst ⟨1⟩]) := by decide +kernel
  have henough : ∃ depth, resolve ⟨p, .basic, .forward [⟨0⟩, ⟨1⟩, ⟨2⟩, ⟨1⟩]⟩ depth (.inst ⟨1⟩) [] ≠
      .error .tooDeep := ⟨3, by simp [hends]⟩
  refine ⟨AliasOracle.shallow_basic, p, hp, hends, ?_⟩
  exact ((resolution_ends_tfae AliasOracle.shallow_basic _).out 1 0).mp henough

/-! ## A resolution that does not end -/

/-- A load asks for the value that the nearest earlier store wrote, having seen nothing more. -/
theorem calls_of_storedValue?_eq_some {id : InstId} {ptr v : Value} {seen : List Value}
    (hop : r.program.op id = .ok (.load ptr)) (hstored : r.storedValue? id ptr = .ok (some v)) :
    r.Calls (.inst id, seen) (v, seen) := by
  have hplan : r.plan (.inst id, seen) = .ask (v, seen) pure := by
    unfold plan step
    dsimp only
    rw [hop, Plan.lift_ok_bind]
    dsimp only
    rw [hstored, Plan.lift_ok_bind]
    rfl
  rw [Calls, Plan.Calls, hplan]
  exact .here

/-- A nested resolution that comes back to its own value uses up every depth. -/
theorem resolve_eq_tooDeep_of_transGen {v : Value} {seen : List Value}
    (h : TransGen r.Calls (v, seen) (v, seen)) (depth : Nat) :
    r.resolve depth v seen = .error .tooDeep := by
  rw [resolve_eq_eval]
  by_contra hends
  exact Plan.not_transGen_calls_of_acc (Plan.acc_calls_of_eval_ne_tooDeep hends) .refl h

/-- A variable that a loop loads and stores back unchanged. -/
def storedBack : List Directive :=
  [.module "m", .declare ⟨0⟩ "f" [] (.int 32),
    .define ⟨0⟩ [.block, .block, .block,
      .moveTo ⟨0⟩, .alloca, .jump ⟨1⟩,
      .moveTo ⟨1⟩, .load (.inst ⟨0⟩) (.int 32), .store (.inst ⟨0⟩) (.inst ⟨2⟩),
      .branch .undef ⟨1⟩ ⟨2⟩,
      .moveTo ⟨2⟩, .ret none]]

/-- **Not every resolution ends.** Twice around a loop that stores back what it has loaded, the
function has no defect and every block of the slice is its own, but the load asks for the store
before it, which asks for the load. -/
theorem storedBack_resolution_too_deep :
    ∃ p f, Program.build storedBack = .ok p ∧ p.defect? ⟨0⟩ = .ok none ∧
      p.function ⟨0⟩ = .ok f ∧ (∀ b ∈ [⟨0⟩, ⟨1⟩, ⟨1⟩], b ∈ f.blocks) ∧
      ∀ depth, resolve ⟨p, .basic, .forward [⟨0⟩, ⟨1⟩, ⟨1⟩]⟩ depth (.inst ⟨2⟩) [] =
        .error .tooDeep := by
  obtain ⟨p, hp, hdefect, f, hf, hop, hstored, hblocks⟩ : ∃ p, Program.build storedBack = .ok p ∧
      p.defect? ⟨0⟩ = .ok none ∧ ∃ f, p.function ⟨0⟩ = .ok f ∧ p.op ⟨2⟩ = .ok (.load (.inst ⟨0⟩)) ∧
      storedValue? ⟨p, .basic, .forward [⟨0⟩, ⟨1⟩, ⟨1⟩]⟩ ⟨2⟩ (.inst ⟨0⟩) = .ok (some (.inst ⟨2⟩)) ∧
      f.blocks = [⟨0⟩, ⟨1⟩, ⟨2⟩] := by decide +kernel
  refine ⟨p, f, hp, hdefect, hf, ?_, fun depth => ?_⟩
  · rw [hblocks]
    decide
  · exact resolve_eq_tooDeep_of_transGen (.single (calls_of_storedValue?_eq_some hop hstored)) depth

end Resolver

end ErrorReturns
