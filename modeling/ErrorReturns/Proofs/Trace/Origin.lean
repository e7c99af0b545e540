import ErrorReturns.Proofs.Plan
import ErrorReturns.Proofs.Program.Inside
import ErrorReturns.Proofs.Table.Keys
import ErrorReturns.Proofs.Table.Lookup
import ErrorReturns.Proofs.Trace.Lookup
import ErrorReturns.Trace.Origin

/-!
# Where values come from

Casts, freezes, phis and selects pass a value on (`Program.PassesOn`), and a value may come from
whatever is reached by such steps (`Program.ComesFrom`). The search for the calls that a value comes
from marks every instruction before it follows its operands, so that it also ends where values go
around in a loop: nested searches have ever fewer instructions to mark
(`Program.descends_originPlan`). It finds nothing else (`Program.searchOrigins_induction`), and it
misses nothing: an instruction that has been marked is followed up before the search that marked it
ends (`OriginSearch.Extends`).
Together this is `Program.collectCalls_exact`.
-/

namespace ErrorReturns

open Checked
open Relation (ReflTransGen)

namespace Program

variable (p : Program)

/-- **A value is passed on**: from the result of a cast, a freeze, a phi or a select to an operand
that it may be. -/
inductive PassesOn : Value → Value → Prop
  | cast {i : InstId} {kind : Cast} {v : Value} (hop : p.op i = .ok (.cast kind v)) :
      PassesOn (.inst i) v
  | freeze {i : InstId} {v : Value} (hop : p.op i = .ok (.freeze v)) : PassesOn (.inst i) v
  | phi {i : InstId} {incoming : List (BlockId × Value)} {b : BlockId} {v : Value}
      (hop : p.op i = .ok (.phi incoming)) (hv : (b, v) ∈ incoming) : PassesOn (.inst i) v
  | ifTrue {i : InstId} {cond v w : Value} (hop : p.op i = .ok (.select cond v w)) :
      PassesOn (.inst i) v
  | ifFalse {i : InstId} {cond v w : Value} (hop : p.op i = .ok (.select cond v w)) :
      PassesOn (.inst i) w

/-- **What a value may come from**, itself included. -/
def ComesFrom : Value → Value → Prop := ReflTransGen p.PassesOn

variable {p}

theorem exists_mem_passedOn {v w : Value} (h : p.PassesOn v w) :
    ∃ i op, v = .inst i ∧ p.op i = .ok op ∧ op.isCall = false ∧ w ∈ passedOn op := by
  cases h with
  | cast hop => exact ⟨_, _, rfl, hop, rfl, List.mem_singleton_self w⟩
  | freeze hop => exact ⟨_, _, rfl, hop, rfl, List.mem_singleton_self w⟩
  | phi hop hv => exact ⟨_, _, rfl, hop, rfl, List.mem_map.mpr ⟨_, hv, rfl⟩⟩
  | ifTrue hop => exact ⟨_, _, rfl, hop, rfl, List.mem_cons_self⟩
  | ifFalse hop => exact ⟨_, _, rfl, hop, rfl, List.mem_cons_of_mem _ (List.mem_singleton_self w)⟩

/-- What an operation passes on is passed on by its result. -/
theorem passesOn_of_mem {i : InstId} {op : Operation} (hop : p.op i = .ok op) {w : Value}
    (hw : w ∈ passedOn op) : p.PassesOn (.inst i) w := by
  cases op with
  | cast kind v => exact List.mem_singleton.mp hw ▸ .cast hop
  | freeze v => exact List.mem_singleton.mp hw ▸ .freeze hop
  | phi incoming =>
    obtain ⟨⟨b, w⟩, hmem, rfl⟩ := List.mem_map.mp hw
    exact .phi hop hmem
  | select cond ifTrue ifFalse =>
    rcases List.mem_cons.mp hw with rfl | hw
    · exact .ifTrue hop
    · exact List.mem_singleton.mp hw ▸ .ifFalse hop
  | _ => cases hw

/-! ## The search ends -/

variable (p) in
/-- **The plan of a search**: which searches it needs, one after another. -/
def originPlan (c : OriginSearch × Value) : Plan (OriginSearch × Value) OriginSearch OriginSearch :=
  p.originStep (fun s v => Plan.request (s, v)) c.1 c.2

/-- One step of the search is the same whether its questions are asked or written down. -/
theorem run_originPlan (f : OriginSearch × Value → Checked OriginSearch)
    (c : OriginSearch × Value) :
    (p.originPlan c).run f = p.originStep (fun s v => f (s, v)) c.1 c.2 := by
  obtain ⟨s, v⟩ := c
  unfold originPlan originStep
  cases v with
  | inst id =>
    dsimp only
    rw [Plan.run_bind, Plan.run_lift]
    refine bind_congr fun op => ?_
    split
    · rfl
    · split
      · rfl
      · rw [Plan.run_foldlM]
        exact foldlM_congr (fun t w _ => Plan.run_request f (t, w)) _
  | _ => rfl

/-- A search carries out its plan. -/
theorem searchOrigins_eq_eval (depth : Nat) (s : OriginSearch) (v : Value) :
    p.searchOrigins depth s v = Plan.eval p.originPlan depth (s, v) := by
  induction depth generalizing s v with
  | zero => rfl
  | succ depth ih =>
    have hnested : p.searchOrigins depth = fun s v => Plan.eval p.originPlan depth (s, v) :=
      funext fun s => funext (ih s)
    rw [searchOrigins, Plan.eval, run_originPlan, hnested]

/-- **Nested searches have fewer instructions to mark**, since no mark is taken away. -/
theorem descends_originPlan : Plan.Descends p.originPlan (fun c => p.unmet (· ∈ c.1.visited))
    fun c s => c.1.visited ⊆ s.visited := by
  rintro ⟨s, v⟩
  cases v with
  | inst id =>
    refine Plan.all_lift_bind (p.shallow_op id).meets fun op hop => ?_
    split
    · exact Plan.all_pure (List.Subset.refl _)
    · split
      · exact Plan.all_pure (List.Subset.refl _)
      · rename_i hnew
        -- the new mark is there in all that follows
        refine Plan.All.weaken (P := fun t => id :: s.visited ⊆ t.visited) ?_ fun t =>
          List.Subset.trans (List.subset_cons_self id _)
        refine Plan.all_foldlM (fun t ht w _ => Plan.all_request ?_ fun t' ht' => ?_)
          (List.Subset.refl _)
        · exact unmet_lt (fun i hi => ht (List.mem_cons_of_mem id hi)) (hasInst_of_op_eq_ok hop)
            hnew (ht List.mem_cons_self)
        · exact List.Subset.trans ht ht'
  | _ => exact Plan.all_pure (List.Subset.refl _)

theorem searchOrigins_ne_tooDeep {depth : Nat} {s : OriginSearch} (hdepth : p.insts.size < depth)
    (v : Value) : p.searchOrigins depth s v ≠ .error .tooDeep := by
  rw [searchOrigins_eq_eval]
  exact descends_originPlan.eval_ne_tooDeep (Nat.lt_of_le_of_lt unmet_le_size hdepth)

/-! ## Only calls that a value comes from are found -/

/-- **What adding a found call keeps, a search keeps.** -/
theorem searchOrigins_induction {P : SortedSet InstId → Prop} {depth : Nat} {s s' : OriginSearch}
    {v : Value} (hadd : ∀ calls i op, P calls → p.ComesFrom v (.inst i) → p.op i = .ok op →
      op.isCall = true → P (calls.insert i))
    (hs : P s.calls) (h : p.searchOrigins depth s v = .ok s') : P s'.calls := by
  induction depth generalizing s s' v with
  | zero => cases h
  | succ depth ih =>
    cases v with
    | inst id =>
      obtain ⟨op, hop, h⟩ := bind_eq_ok_iff.mp h
      split at h
      case isTrue hcall =>
        obtain rfl := Except.ok.inj h
        exact hadd _ id op hs .refl hop hcall
      case isFalse =>
        split at h
        · exact Except.ok.inj h ▸ hs
        · refine foldlM_induction (P := fun t => P t.calls) (fun t ht w hw t' h => ?_) hs h
          refine ih (fun calls i op' hcalls hfrom => hadd calls i op' hcalls ?_) ht h
          exact .head (passesOn_of_mem hop hw) hfrom
    | _ => exact Except.ok.inj h ▸ hs

end Program

/-! ## No call is missed -/

namespace OriginSearch

variable {p : Program} {s s' s'' : OriginSearch}

/-- A value that has been looked at: a call is found, and any other instruction is marked. -/
structure Covers (p : Program) (s : OriginSearch) (v : Value) : Prop where
  call : ∀ i op, v = .inst i → p.op i = .ok op → op.isCall = true → i ∈ s.calls
  other : ∀ i op, v = .inst i → p.op i = .ok op → op.isCall = false → i ∈ s.visited

/-- **A search that goes on**: nothing is forgotten, and whatever has been marked meanwhile has been
followed up. -/
structure Extends (p : Program) (s s' : OriginSearch) : Prop where
  visited : ∀ i ∈ s.visited, i ∈ s'.visited
  calls : ∀ i ∈ s.calls, i ∈ s'.calls
  followed : ∀ i ∈ s'.visited, i ∉ s.visited →
    ∀ op, p.op i = .ok op → ∀ v ∈ Program.passedOn op, Covers p s' v

theorem Extends.refl (s : OriginSearch) : Extends p s s :=
  ⟨fun _ hi => hi, fun _ hi => hi, fun _ hi hnew => absurd hi hnew⟩

theorem Covers.extend {v : Value} (h : Covers p s v) (hs : Extends p s s') : Covers p s' v where
  call i op hv hop hcall := hs.calls i (h.call i op hv hop hcall)
  other i op hv hop hcall := hs.visited i (h.other i op hv hop hcall)

theorem Extends.trans (h : Extends p s s') (h' : Extends p s' s'') : Extends p s s'' where
  visited i hi := h'.visited i (h.visited i hi)
  calls i hi := h'.calls i (h.calls i hi)
  followed i hi hnew op hop v hv := by
    by_cases hmarked : i ∈ s'.visited
    · exact (h.followed i hmarked hnew op hop v hv).extend h'
    · exact h'.followed i hi hmarked op hop v hv

/-- Marking an instruction, and then looking at all that it passes on, goes on with a search. -/
theorem Extends.mark {id : InstId} {op : Operation} (hop : p.op id = .ok op)
    (h : Extends p { s with visited := id :: s.visited } s')
    (hcovers : ∀ v ∈ Program.passedOn op, Covers p s' v) : Extends p s s' where
  visited i hi := h.visited i (List.mem_cons_of_mem id hi)
  calls := h.calls
  followed i hi hnew op' hop' v hv := by
    by_cases heq : i = id
    · subst heq
      obtain rfl := Except.ok.inj (hop.symm.trans hop')
      exact hcovers v hv
    · exact h.followed i hi (List.not_mem_cons_of_ne_of_not_mem heq hnew) op' hop' v hv

end OriginSearch

namespace Program

open OriginSearch

variable {p : Program}

/-- **A search looks at what it is given**, and follows up whatever it marks on the way. -/
theorem searchOrigins_extends {depth : Nat} {s s' : OriginSearch} {v : Value}
    (h : p.searchOrigins depth s v = .ok s') : Extends p s s' ∧ Covers p s' v := by
  induction depth generalizing s s' v with
  | zero => cases h
  | succ depth ih =>
    cases v with
    | inst id =>
      obtain ⟨op, hop, h⟩ := bind_eq_ok_iff.mp h
      split at h
      case isTrue hcall =>
        obtain rfl := Except.ok.inj h
        refine ⟨⟨fun i hi => hi, fun i hi => ?_, fun i hi => absurd hi⟩, ?_⟩
        · exact SortedSet.mem_insert.mpr (Or.inr hi)
        · refine ⟨fun i op' hi _ _ => ?_, fun i op' hi hop' hother => ?_⟩
          · exact SortedSet.mem_insert.mpr (Or.inl (Value.inst.inj hi).symm)
          · obtain rfl := Value.inst.inj hi
            obtain rfl := Except.ok.inj (hop.symm.trans hop')
            rw [hcall] at hother
            cases hother
      case isFalse hother =>
        have hcovers : ∀ t : OriginSearch, id ∈ t.visited → Covers p t (.inst id) := by
          refine fun t ht => ⟨fun i op' hi hop' hcall => ?_, fun i op' hi _ _ => ?_⟩
          · obtain rfl := Value.inst.inj hi
            obtain rfl := Except.ok.inj (hop.symm.trans hop')
            exact absurd hcall hother
          · exact Value.inst.inj hi ▸ ht
        split at h
        case isTrue hmarked =>
          obtain rfl := Except.ok.inj h
          exact ⟨.refl s, hcovers s hmarked⟩
        case isFalse hnew =>
          -- the operands are looked at in turn; each search goes on from the one before
          obtain ⟨hextends, hall⟩ := foldlM_forall_mem
            (P := Extends p { s with visited := id :: s.visited })
            (Q := fun v t => Covers p t v)
            (fun t ht w _ t' h => by
              obtain ⟨hextends, hw⟩ := ih h
              exact ⟨ht.trans hextends, hw, fun v hv => hv.extend hextends⟩)
            (.refl _) h
          exact ⟨hextends.mark hop hall, hcovers s' (hextends.visited id List.mem_cons_self)⟩
    | _ =>
      obtain rfl := Except.ok.inj h
      exact ⟨.refl s, ⟨fun _ _ hi => (by cases hi), fun _ _ hi => (by cases hi)⟩⟩

/-- **The calls that a value comes from are collected**, beside those that have been before. -/
theorem mem_of_collectCalls {v : Value} {calls calls' : SortedSet InstId}
    (h : p.collectCalls v calls = .ok calls') :
    (∀ i ∈ calls, i ∈ calls') ∧ ∀ call op, p.ComesFrom v (.inst call) → p.op call = .ok op →
      op.isCall = true → call ∈ calls' := by
  simp only [collectCalls, bind_eq_ok_iff, pure_eq_ok, Except.ok.injEq] at h
  obtain ⟨s, hs, rfl⟩ := h
  obtain ⟨hextends, hv⟩ := searchOrigins_extends hs
  refine ⟨hextends.calls, fun call op hfrom hop hcall => ?_⟩
  -- at the end everything marked has been followed up, so looking at a value reaches all it is from
  have hall : Covers p s (.inst call) := by
    refine ReflTransGen.head_induction_on
      (motive := fun w _ => Covers p s w → Covers p s (.inst call)) hfrom id ?_ hv
    intro w w' hstep _ ih hw
    obtain ⟨i, op, rfl, hop, hother, hmem⟩ := exists_mem_passedOn hstep
    have hmarked := hw.other i op rfl hop hother
    exact ih (hextends.followed i hmarked List.not_mem_nil op hop w' hmem)
  exact hall.call call op rfl hop hcall

/-! ## Existing values -/

theorem has_passedOn (hp : p.Inside) {op : Operation} (hop : p.Performs op) {v : Value}
    (hv : v ∈ passedOn op) : p.Has v := by
  refine hp.has hop ?_
  unfold passedOn at hv
  split at hv <;> simp_all [Operation.operands]

/-- A search for origins meets no fault but depth. -/
theorem meets_searchOrigins (hp : p.Inside) (depth : Nat) (s : OriginSearch) {v : Value}
    (hv : p.Has v) : Meets (· = .tooDeep) (fun _ => True) (p.searchOrigins depth s v) := by
  induction depth generalizing s v with
  | zero => exact (rfl : Fault.tooDeep = .tooDeep)
  | succ depth ih =>
    cases v with
    | inst id =>
      refine (meets_op hv).bind fun op hop => ?_
      split
      · exact meets_pure trivial
      · split
        · exact meets_pure trivial
        · exact meets_foldlM (fun s _ v hv => ih s (has_passedOn hp hop hv)) trivial
    | _ => exact meets_pure trivial

/-- The calls that an existing value comes from can be collected. -/
theorem exists_collectCalls_eq_ok (hp : p.Inside) {v : Value} (hv : p.Has v)
    (calls : SortedSet InstId) : ∃ calls', p.collectCalls v calls = .ok calls' := by
  have hmeets := (meets_searchOrigins hp (p.insts.size + 1) ⟨[], calls⟩ hv).of_ne
    (F := fun _ => False) (searchOrigins_ne_tooDeep (Nat.lt_succ_self _) v)
  obtain ⟨s, hs, -⟩ := hmeets.exists_eq_ok
  exact ⟨s.calls, bind_eq_ok_iff.mpr ⟨s, hs, rfl⟩⟩

/-- What adding a found call keeps, collecting calls keeps. -/
theorem collectCalls_induction {P : SortedSet InstId → Prop} {v : Value}
    {calls calls' : SortedSet InstId} (hadd : ∀ calls i op, P calls → p.ComesFrom v (.inst i) →
      p.op i = .ok op → op.isCall = true → P (calls.insert i))
    (hcalls : P calls) (h : p.collectCalls v calls = .ok calls') : P calls' := by
  obtain ⟨s, hs, h⟩ := bind_eq_ok_iff.mp h
  exact Except.ok.inj h ▸ searchOrigins_induction hadd hcalls hs

theorem isCall_eq_true_iff {op : Operation} :
    op.isCall = true ↔ ∃ callee args, op = .call callee args := by
  cases op <;> simp [Operation.isCall]

/-- A call is not looked through. -/
theorem not_passesOn_call {i : InstId} {callee : Callee} {args : List Value}
    (hop : p.op i = .ok (.call callee args)) (w : Value) : ¬p.PassesOn (.inst i) w := by
  intro h
  obtain ⟨j, op, hj, hop', hother, -⟩ := exists_mem_passedOn h
  obtain rfl := Value.inst.inj hj
  obtain rfl := Except.ok.inj (hop.symm.trans hop')
  cases hother

/-- **The calls that a value comes from, exactly.** From every value of a program, and whatever
calls have been found before, every chain of nested searches ends, and there are finitely many of
them in all. The search has a result, which more depth does not change: the calls found before, and
the calls that are reached through casts and freezes, the incoming values of phis and the arms of
selects. -/
theorem collectCalls_exact {ds : List Directive} (hbuild : build ds = .ok p) {v : Value}
    (hv : p.Has v) (calls : SortedSet InstId) :
    Acc (fun c' c => Plan.Calls p.originPlan c c') (⟨[], calls⟩, v) ∧
    {c | Plan.Asked p.originPlan (p.originPlan (⟨[], calls⟩, v)) c}.Finite ∧
    (∀ depth, p.insts.size < depth → p.searchOrigins depth ⟨[], calls⟩ v =
      p.searchOrigins (p.insts.size + 1) ⟨[], calls⟩ v) ∧
    (∀ i callee args w, p.op i = .ok (.call callee args) → ¬p.PassesOn (.inst i) w) ∧
    ∃ calls', p.collectCalls v calls = .ok calls' ∧
      ∀ i, i ∈ calls' ↔ i ∈ calls ∨
        p.ComesFrom v (.inst i) ∧ ∃ callee args, p.op i = .ok (.call callee args) := by
  have hends := descends_originPlan (p := p).wellFounded
  obtain ⟨calls', h⟩ := exists_collectCalls_eq_ok (inside_of_build hbuild) hv calls
  refine ⟨hends.apply _, Plan.finite_asked hends _, fun depth hdepth => ?_,
    fun i callee args w hop => not_passesOn_call hop w, calls', h, fun i => ⟨fun hi => ?_, ?_⟩⟩
  · rw [searchOrigins_eq_eval, searchOrigins_eq_eval]
    refine Plan.eval_eq_of_le hdepth ?_
    rw [← searchOrigins_eq_eval]
    exact searchOrigins_ne_tooDeep (Nat.lt_succ_self _) v
  · refine collectCalls_induction (P := fun found => ∀ i ∈ found, i ∈ calls ∨
      p.ComesFrom v (.inst i) ∧ ∃ callee args, p.op i = .ok (.call callee args))
      (fun found j op hfound hfrom hop hcall i hi => ?_) (fun i hi => Or.inl hi) h i hi
    rcases SortedSet.mem_insert.mp hi with rfl | hi
    · obtain ⟨callee, args, rfl⟩ := isCall_eq_true_iff.mp hcall
      exact Or.inr ⟨hfrom, callee, args, hop⟩
    · exact hfound i hi
  · obtain ⟨hkept, hfound⟩ := mem_of_collectCalls h
    rintro (hi | ⟨hfrom, callee, args, hop⟩)
    · exact hkept i hi
    · exact hfound i _ hfrom hop rfl

/-- A phi and a select that pass each other on, also through a freeze. The phi may be the result of
a call whose argument is one as well, and so is the condition of the select. -/
def passedAround : List Directive :=
  [.module "m", .declare ⟨0⟩ "f" [] (.int 32), .declare ⟨0⟩ "g" [.int 32] (.int 32),
    .define ⟨0⟩ [.call ⟨1⟩ [.null], .call ⟨1⟩ [.null], .call ⟨1⟩ [.inst ⟨0⟩], .phi (.int 32) [],
      .freeze (.inst ⟨3⟩), .select (.inst ⟨1⟩) (.inst ⟨3⟩) (.inst ⟨4⟩), .call ⟨1⟩ [.null],
      .setPhi (.inst ⟨3⟩) [(⟨0⟩, .inst ⟨5⟩), (⟨0⟩, .inst ⟨2⟩)], .ret (some (.inst ⟨5⟩))]]

/-- The call whose result goes around is found; the one that a select is decided by is left out. -/
theorem passedAround_collectCalls :
    ∃ p, build passedAround = .ok p ∧ p.Has (.inst ⟨5⟩) ∧
      p.collectCalls (.inst ⟨5⟩) (.ofList [⟨6⟩]) = .ok (.ofList [⟨2⟩, ⟨6⟩]) ∧
      p.ComesFrom (.inst ⟨5⟩) (.inst ⟨2⟩) ∧
      ∀ callee args, p.op ⟨1⟩ = .ok (.call callee args) → ¬p.ComesFrom (.inst ⟨5⟩) (.inst ⟨1⟩) := by
  obtain ⟨p, hp, hcalls, hsize⟩ : ∃ p, build passedAround = .ok p ∧
      p.collectCalls (.inst ⟨5⟩) (.ofList [⟨6⟩]) = .ok (.ofList [⟨2⟩, ⟨6⟩]) ∧ p.insts.size = 8 := by
    decide +kernel
  have hv : p.Has (.inst ⟨5⟩) := by
    show 5 < p.insts.size
    omega
  obtain ⟨-, -, -, -, found, hfound, hiff⟩ := collectCalls_exact hp hv (.ofList [⟨6⟩])
  obtain rfl := Except.ok.inj (hcalls.symm.trans hfound)
  refine ⟨p, hp, hv, hcalls, ?_, fun callee args hop hfrom => ?_⟩
  · exact (((hiff ⟨2⟩).mp (by decide)).resolve_left (by decide)).1
  · exact absurd ((hiff ⟨1⟩).mpr (Or.inr ⟨hfrom, callee, args, hop⟩)) (by decide)

end Program

end ErrorReturns
