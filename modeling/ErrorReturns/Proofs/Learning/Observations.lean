import ErrorReturns.Proofs.Learning.Inside
import ErrorReturns.Proofs.Learning.Merging
import Mathlib.Data.List.Count

/-!
# One observation for each checked call

A decided condition that compares the result of a call with a constant tells the values that the
call has on the error side (`Condition.Reveals`). The values that all decided conditions of one
checked call tell are put together (`Context.Collects`), and the set of these is counted once for
each function that the call may reach, unless the targets of the call are only coarsely known. No
other count changes (`Context.observations_exact`).
-/

namespace ErrorReturns

open Checked

/-! ## What a decided condition tells -/

namespace Condition

/-- The error side that a match names is the false side of the branch at the end of a condition's
block. -/
def FailsWhenFalse (p : Program) (origin : InstId) (m : Match) : Prop :=
  ∃ block cond ifTrue ifFalse, p.blockOf origin = .ok block ∧
    p.terminatorOp? block = .ok (some (.branch cond ifTrue ifFalse)) ∧ m.errorBlock = some ifFalse

/-- **What a decided condition tells about a checked call**: on the error side its result satisfies
a comparison with a constant. The condition decides a branch, and the comparison is inverted if the
error side is the false one. -/
def Reveals (p : Program) (cond : Condition) (m : Match) (x : CheckedCall) (pred : Predicate)
    (rhs : Int) : Prop :=
  ∃ lhs q v origin, cond = .comparison lhs q v origin true ∧
    p.callOf? lhs.value = .ok (some x.call) ∧ lhs.slot = x.slot ∧ v.word32? = some rhs ∧
    (FailsWhenFalse p origin m ∧ pred = q.inverse ∨ ¬ FailsWhenFalse p origin m ∧ pred = q)

variable {p : Program} {cond : Condition} {m : Match}

/-- A comparison of the result of a call with a constant tells one thing, about this call. -/
theorem reveals_iff {lhs : CheckedValue} {q pred : Predicate} {v : Value} {origin call : InstId}
    {rhs : Int} (hcall : p.callOf? lhs.value = .ok (some call)) (hrhs : v.word32? = some rhs)
    (hpred : FailsWhenFalse p origin m ∧ pred = q.inverse ∨
      ¬ FailsWhenFalse p origin m ∧ pred = q) (x : CheckedCall) (pred' : Predicate) (rhs' : Int) :
    (comparison lhs q v origin true).Reveals p m x pred' rhs' ↔
      x = ⟨call, lhs.slot⟩ ∧ pred' = pred ∧ rhs' = rhs := by
  constructor
  · rintro ⟨lhs', q', v', origin', heq, hcall', hslot, hrhs', hpred'⟩
    cases heq
    obtain ⟨call', slot⟩ := x
    obtain rfl := Option.some.inj (Except.ok.inj (hcall.symm.trans hcall'))
    obtain rfl := Option.some.inj (hrhs.symm.trans hrhs')
    obtain rfl : lhs.slot = slot := hslot
    refine ⟨rfl, ?_, rfl⟩
    rcases hpred with ⟨hfalse, rfl⟩ | ⟨hfalse, rfl⟩
    · exact (hpred'.resolve_right fun h => h.1 hfalse).2
    · exact (hpred'.resolve_left fun h => hfalse h.1).2
  · rintro ⟨rfl, rfl, rfl⟩
    exact ⟨lhs, q, v, origin, rfl, hcall, rfl, hrhs, hpred⟩

/-- **The values on the error side are those that the condition tells**, if it tells anything. -/
theorem reveals_of_errorValues? {out : Option (CheckedCall × RangeSet)}
    (h : p.errorValues? cond m = .ok out) :
    (out = none ∧ ∀ x pred rhs, ¬ cond.Reveals p m x pred rhs) ∨
      ∃ x pred rhs, Word.Fits 32 rhs ∧ out = some (x, RangeSet.full.narrow pred rhs) ∧
        ∀ x' pred' rhs', cond.Reveals p m x' pred' rhs' ↔ x' = x ∧ pred' = pred ∧ rhs' = rhs := by
  unfold Program.errorValues? at h
  split at h
  case h_2 hother =>
    refine Or.inl ⟨(Except.ok.inj h).symm, ?_⟩
    rintro x pred rhs ⟨lhs, q, v, origin, rfl, -⟩
    exact hother lhs q v origin rfl
  case h_1 lhs q v origin =>
    obtain ⟨call?, hcall, h⟩ := bind_eq_ok_iff.mp h
    cases call? with
    | none =>
      refine Or.inl ⟨(Except.ok.inj h).symm, ?_⟩
      rintro x pred rhs ⟨lhs', q', v', origin', heq, hcall', -⟩
      cases heq
      cases hcall.symm.trans hcall'
    | some call =>
      simp only [bind_eq_ok_iff] at h
      obtain ⟨block, hblock, op?, hop, h⟩ := h
      -- what `FailsWhenFalse` says of the program, read off the block and the terminator just found
      have hfails : FailsWhenFalse p origin m ↔ ∃ flag ifTrue ifFalse,
          op? = some (.branch flag ifTrue ifFalse) ∧ m.errorBlock = some ifFalse := by
        constructor
        · rintro ⟨block', flag, ifTrue, ifFalse, hblock', hop', hside⟩
          obtain rfl := Except.ok.inj (hblock.symm.trans hblock')
          exact ⟨flag, ifTrue, ifFalse, Except.ok.inj (hop.symm.trans hop'), hside⟩
        · rintro ⟨flag, ifTrue, ifFalse, rfl, hside⟩
          exact ⟨block, flag, ifTrue, ifFalse, hblock, hop, hside⟩
      cases hrhs : v.word32? with
      | none =>
        simp only [hrhs] at h
        refine Or.inl ⟨?_, ?_⟩
        · split at h <;> exact (Except.ok.inj h).symm
        · rintro x pred rhs ⟨lhs', q', v', origin', heq, -, -, hrhs', -⟩
          cases heq
          cases hrhs.symm.trans hrhs'
      | some rhs =>
        simp only [hrhs] at h
        split at h
        -- a branch: the predicate is turned round exactly when the error block is its false side
        case h_1 flag ifTrue ifFalse =>
          refine Or.inr ⟨_, _, rhs, Value.fits_word32? hrhs, (Except.ok.inj h).symm,
            reveals_iff hcall hrhs ?_⟩
          split
          case isTrue hside => exact Or.inl ⟨hfails.mpr ⟨flag, ifTrue, ifFalse, rfl, hside⟩, rfl⟩
          case isFalse hside =>
            refine Or.inr ⟨fun hfalse => ?_, rfl⟩
            obtain ⟨_, _, _, heq, hside'⟩ := hfails.mp hfalse
            cases heq
            exact hside hside'
        case h_2 hother =>
          -- no branch ends the block, so the condition does not fail by being false and keeps its
          -- predicate
          refine Or.inr ⟨_, q, rhs, Value.fits_word32? hrhs, (Except.ok.inj h).symm,
            reveals_iff hcall hrhs (Or.inr ⟨fun hfalse => ?_, rfl⟩)⟩
          obtain ⟨_, _, _, heq, -⟩ := hfails.mp hfalse
          exact hother _ _ _ heq

end Condition

namespace Context

variable {c : Context}

variable (c) in
/-- **What some decided conditions tell about a checked call.** -/
def Reveals (es : List (CheckId × Match)) (x : CheckedCall) (pred : Predicate) (rhs : Int) : Prop :=
  ∃ e ∈ es, ∃ cond, c.condition? e.1 = some cond ∧ cond.Reveals c.program e.2 x pred rhs

variable (c) in
/-- **The values collected from decided conditions**: of every checked call about which one of them
tells something, the words that satisfy what some condition tells. -/
structure Collects (es : List (CheckId × Match)) (values : Table CheckedCall RangeSet) : Prop where
  contains_iff : ∀ x, values.contains x = true ↔ ∃ pred rhs, c.Reveals es x pred rhs
  canonical : ∀ x s, values.get? x = some s → s.Canonical
  mem_iff : ∀ x s, values.get? x = some s → ∀ v, v ∈ s ↔
    Word.Fits 32 v ∧ ∃ pred rhs, c.Reveals es x pred rhs ∧ pred.onInts v rhs = true

theorem collects_nil : c.Collects [] {} where
  contains_iff _ := iff_of_false Bool.false_ne_true fun ⟨_, _, _, he, _⟩ =>
    absurd he List.not_mem_nil
  canonical _ _ := nofun
  mem_iff _ _ := nofun

theorem reveals_append_iff {es : List (CheckId × Match)} {e : CheckId × Match} {x : CheckedCall}
    {pred : Predicate} {rhs : Int} : c.Reveals (es ++ [e]) x pred rhs ↔
      c.Reveals es x pred rhs ∨
        ∃ cond, c.condition? e.1 = some cond ∧ cond.Reveals c.program e.2 x pred rhs := by
  simp only [Reveals, List.mem_append, List.mem_singleton, or_and_right, exists_or, exists_eq_left]

variable {es : List (CheckId × Match)} {values : Table CheckedCall RangeSet} {e : CheckId × Match}

/-- A condition that tells nothing leaves the values as they are. -/
theorem Collects.skip (h : c.Collects es values) (he : ∀ x pred rhs,
    ¬ ∃ cond, c.condition? e.1 = some cond ∧ cond.Reveals c.program e.2 x pred rhs) :
    c.Collects (es ++ [e]) values := by
  have hsame : ∀ x pred rhs, c.Reveals (es ++ [e]) x pred rhs ↔ c.Reveals es x pred rhs :=
    fun x pred rhs => reveals_append_iff.trans (or_iff_left (he x pred rhs))
  exact
    { contains_iff := fun x => (h.contains_iff x).trans (by simp only [hsame])
      canonical := h.canonical
      mem_iff := fun x s hs v => (h.mem_iff x s hs v).trans (by simp only [hsame]) }

/-- A condition that tells something about a call adds the words that satisfy it. -/
theorem Collects.add (h : c.Collects es values) {x : CheckedCall} {pred : Predicate} {rhs : Int}
    (hrhs : Word.Fits 32 rhs) (he : ∀ x' pred' rhs',
      (∃ cond, c.condition? e.1 = some cond ∧ cond.Reveals c.program e.2 x' pred' rhs') ↔
        x' = x ∧ pred' = pred ∧ rhs' = rhs) :
    c.Collects (es ++ [e])
      (values.update x fun old => old.getD .empty ∪ RangeSet.full.narrow pred rhs) := by
  have hmore : ∀ x' pred' rhs', c.Reveals (es ++ [e]) x' pred' rhs' ↔
      c.Reveals es x' pred' rhs' ∨ x' = x ∧ pred' = pred ∧ rhs' = rhs :=
    fun x' pred' rhs' => reveals_append_iff.trans (or_congr_right (he x' pred' rhs'))
  -- what was collected about the call before, if anything was
  have hold : ((values.get? x).getD .empty).Canonical ∧ ∀ v, v ∈ (values.get? x).getD .empty ↔
      Word.Fits 32 v ∧ ∃ pred rhs, c.Reveals es x pred rhs ∧ pred.onInts v rhs = true := by
    cases hx : values.get? x with
    | some s => exact ⟨h.canonical x s hx, h.mem_iff x s hx⟩
    | none =>
      refine ⟨RangeSet.Canonical.nil, fun v => iff_of_false RangeSet.not_mem_nil ?_⟩
      rintro ⟨-, pred, rhs, hreveals, -⟩
      have hcontains := (h.contains_iff x).mpr ⟨pred, rhs, hreveals⟩
      rw [Table.contains, hx] at hcontains
      cases hcontains
  refine ⟨fun x' => ?_, fun x' s hs => ?_, fun x' s hs v => ?_⟩
  · rw [Table.contains_update_iff, h.contains_iff]
    simp only [hmore, exists_or, exists_and_left, exists_eq, and_true]
    exact or_comm
  · rw [Table.get?_update] at hs
    split at hs
    · obtain rfl := Option.some.inj hs
      exact hold.1.union (RangeSet.canonical_full.narrow pred hrhs)
    · exact h.canonical x' s hs
  · rw [Table.get?_update] at hs
    split at hs
    case isTrue heq =>
      subst heq
      obtain rfl := Option.some.inj hs
      rw [RangeSet.mem_union, hold.2, RangeSet.mem_narrow_full, ← and_or_left]
      refine and_congr_right fun _ => ?_
      simp only [hmore, true_and, or_and_right, exists_or, and_assoc, exists_and_left,
        exists_eq_left]
    case isFalse hne =>
      rw [h.mem_iff x' s hs v]
      simp only [hmore, hne, false_and, or_false]

/-- **The values by call are collected from all decided conditions.** -/
theorem ensures_errorValuesByCall_collects (matched : Table CheckId Match) :
    Ensures (c.Collects matched.entries) (c.errorValuesByCall matched) := by
  refine meets_foldlM_append (I := c.Collects) (fun past t ht e _ => ?_) collects_nil
  obtain ⟨id, m⟩ := e
  dsimp only
  split
  case h_2 hnone =>
    refine meets_pure (ht.skip ?_)
    rintro x pred rhs ⟨cond, hcond, -⟩
    exact hnone cond hcond
  case h_1 cond hcond =>
    have hone : ∀ x pred rhs, (∃ cond', c.condition? id = some cond' ∧
        cond'.Reveals c.program m x pred rhs) ↔ cond.Reveals c.program m x pred rhs := by
      simp only [hcond, Option.some.injEq, exists_eq_left', implies_true]
    refine (ensures_eq _).bind fun out hout => ?_
    rcases Condition.reveals_of_errorValues? hout with
      ⟨rfl, hnone⟩ | ⟨x, pred, rhs, hrhs, rfl, htells⟩
    · exact meets_pure (ht.skip fun x pred rhs h => hnone x pred rhs ((hone x pred rhs).mp h))
    · exact meets_pure (ht.add hrhs fun x' pred' rhs' =>
        (hone x' pred' rhs').trans (htells x' pred' rhs'))

end Context

/-! ## Counting -/

namespace Histograms

/-- How often a set has been observed for a slot, if it has. -/
def count? (hs : Histograms) (slot : ReturnSlot) (s : RangeSet) : Option Nat :=
  (hs.get? slot).bind fun h => Table.get? h s

/-- A count after some more observations. -/
def raise (count : Option Nat) (more : Nat) : Option Nat :=
  if more = 0 then count else some (count.getD 0 + more)

@[simp] theorem raise_some (n more : Nat) : raise (some n) more = some (n + more) := by
  unfold raise
  split <;> simp [*]

@[simp] theorem raise_raise (count : Option Nat) (m n : Nat) :
    raise (raise count m) n = raise count (m + n) := by
  unfold raise
  rcases Nat.eq_zero_or_pos m with rfl | hm <;> rcases Nat.eq_zero_or_pos n with rfl | hn
  · rfl
  · simp
  · simp
  · rw [if_neg (by omega), if_neg (by omega), if_neg (by omega), Option.getD_some, Nat.add_assoc]

/-- An observation raises its own count by one, and no other. -/
theorem count?_observe (hs : Histograms) (slot slot' : ReturnSlot) (s s' : RangeSet) :
    (hs.observe slot s).count? slot' s' =
      raise (hs.count? slot' s') ([(slot, s)].count (slot', s')) := by
  have hfresh : ∀ t, Table.get? ((hs.get? slot').getD {}) t = hs.count? slot' t := fun t => by
    unfold count?
    cases hs.get? slot' <;> rfl
  unfold Histograms.observe
  rw [count?, Table.get?_update, List.count_singleton]
  simp only [beq_iff_eq, Prod.mk.injEq]
  by_cases hslot : slot' = slot
  · subst hslot
    rw [if_pos rfl, Option.bind_some, Histogram.add, Table.get?_update, hfresh, hfresh]
    by_cases hset : s' = s
    · subst hset
      simp [raise]
    · simp [raise, hset, Ne.symm hset]
  · simp [raise, hslot, Ne.symm hslot, count?]

/-- **Each observation is counted once.** -/
theorem count?_foldl_observe (hs : Histograms) (os : List (ReturnSlot × RangeSet))
    (slot : ReturnSlot) (s : RangeSet) :
    (os.foldl (fun hs o => hs.observe o.1 o.2) hs).count? slot s =
      raise (hs.count? slot s) (os.count (slot, s)) := by
  induction os generalizing hs with
  | nil => rfl
  | cons o os ih =>
    rw [List.foldl_cons, ih, count?_observe, raise_raise, ← List.count_append]
    rfl

end Histograms

namespace Context

variable {c : Context} {slot : ReturnSlot} {s : RangeSet}

variable (c) in
/-- The observations that the values of a checked call give: one for each function that the call may
reach, if it is not only coarsely known which these are. -/
def observedOf (e : CheckedCall × RangeSet) : List (ReturnSlot × RangeSet) :=
  if c.graph.isCoarse e.1.call then []
  else (c.graph.calleeList e.1.call).map fun f => (⟨f, e.1.slot⟩, e.2)

variable (c slot s) in
/-- Whether the values of a checked call are counted for a slot, and as which set. -/
def CountsFor (e : CheckedCall × RangeSet) : Prop :=
  c.graph.isCoarse e.1.call = false ∧ slot.function ∈ c.graph.calleeList e.1.call ∧
    e.1.slot = slot.slot ∧ e.2 = s

instance : DecidablePred (c.CountsFor slot s) := fun _ => inferInstanceAs (Decidable (_ ∧ _))

@[simp] theorem mem_observedOf_iff {e : CheckedCall × RangeSet} :
    (slot, s) ∈ c.observedOf e ↔ c.CountsFor slot s e := by
  obtain ⟨f, n⟩ := slot
  unfold observedOf CountsFor
  cases c.graph.isCoarse e.1.call with
  | true => simp
  | false => simp [and_assoc]

/-- A call is counted at most once for a slot. -/
theorem nodup_observedOf (e : CheckedCall × RangeSet) : (c.observedOf e).Nodup := by
  unfold observedOf
  split
  · exact List.nodup_nil
  · refine (c.graph.nodup_calleeList e.1.call).map fun f f' heq => ?_
    exact (ReturnSlot.mk.inj (Prod.mk.inj heq).1).1

theorem count_flatMap_observedOf (es : List (CheckedCall × RangeSet)) :
    (es.flatMap c.observedOf).count (slot, s) = es.countP (c.CountsFor slot s ·) := by
  induction es with
  | nil => rfl
  | cons e es ih =>
    rw [List.flatMap_cons, List.count_append, ih, (nodup_observedOf e).count, List.countP_cons,
      Nat.add_comm]
    simp only [mem_observedOf_iff, decide_eq_true_eq]

/-- The observations of calls are made one after another. -/
theorem observeCalls_eq (values : Table CheckedCall RangeSet) (hs : Histograms) :
    c.observeCalls values hs =
      (values.entries.flatMap c.observedOf).foldl (fun hs o => hs.observe o.1 o.2) hs := by
  rw [List.foldl_flatMap, observeCalls]
  congr 1
  funext hs e
  obtain ⟨x, s⟩ := e
  unfold observedOf
  cases hcoarse : c.graph.isCoarse x.call with
  | true => simp [hcoarse]
  | false => simp [hcoarse, List.foldl_map]

/-- Slots are added for what is counted. -/
theorem contains_observeCalls_iff (values : Table CheckedCall RangeSet) {hs : Histograms} :
    (c.observeCalls values hs).contains slot = true ↔
      hs.contains slot = true ∨ ∃ e ∈ values.entries, c.CountsFor slot e.2 e := by
  rw [observeCalls_eq]
  refine (Table.contains_foldl_update_iff hs _ fun s h => Histogram.add (h.getD {}) s 1).trans
    (or_congr_right ?_)
  constructor
  · rintro ⟨⟨slot', s⟩, ho, rfl⟩
    obtain ⟨e, he, hmem⟩ := List.mem_flatMap.mp ho
    have hcounts := mem_observedOf_iff.mp hmem
    exact ⟨e, he, hcounts.1, hcounts.2.1, hcounts.2.2.1, rfl⟩
  · rintro ⟨e, he, hcounts⟩
    exact ⟨(slot, e.2), List.mem_flatMap.mpr ⟨e, he, mem_observedOf_iff.mpr hcounts⟩, rfl⟩

/-- **Each checked call is one observation.** From the decided conditions the values of checked
calls are collected. For every slot and every set, the count grows by the number of checked calls
that may reach the function, are not only coarsely known, and whose collected values are the set.
Nothing else is added, and no count gets smaller. There is a result if what the conditions name
exists. -/
theorem observations_exact (hs : Histograms) (matched : Table CheckId Match) :
    (∀ out, c.addObservations matched hs = .ok out →
      ∃ values, c.Collects matched.entries values ∧
        (∀ slot s, out.count? slot s = Histograms.raise (hs.count? slot s)
          (values.entries.countP (c.CountsFor slot s ·))) ∧
        (∀ slot, out.contains slot = true ↔
          hs.contains slot = true ∨ ∃ e ∈ values.entries, c.CountsFor slot e.2 e) ∧
        ∀ slot s n, hs.count? slot s = some n → ∃ more, out.count? slot s = some (n + more)) ∧
    (c.program.Inside → (∀ id cond, c.condition? id = some cond → cond.Within c.program) →
      ∃ out, c.addObservations matched hs = .ok out) := by
  refine ⟨fun out h => ?_, fun hp hconditions => ?_⟩
  · simp only [addObservations, bind_eq_ok_iff, pure_eq_ok, Except.ok.injEq] at h
    obtain ⟨values, hvalues, rfl⟩ := h
    have hcounted : ∀ slot s, (c.observeCalls values hs).count? slot s =
        Histograms.raise (hs.count? slot s) (values.entries.countP (c.CountsFor slot s ·)) := by
      intro slot s
      rw [observeCalls_eq, Histograms.count?_foldl_observe, count_flatMap_observedOf]
    refine ⟨values, (ensures_errorValuesByCall_collects matched).of_eq_ok hvalues, hcounted,
      fun slot => contains_observeCalls_iff values, fun slot s n hn => ?_⟩
    exact ⟨_, (hcounted slot s).trans (hn ▸ Histograms.raise_some n _)⟩
  · obtain ⟨values, hvalues, -⟩ :=
      (Context.Sound.meets_errorValuesByCall hp hconditions matched).exists_eq_ok
    exact ⟨_, bind_eq_ok_iff.mpr ⟨values, hvalues, rfl⟩⟩

/-- `user` calls `source` twice. It takes the first way of its first check and the second way of its
second one if `source` fails. -/
def checkedTwice : List Directive :=
  [.module "m", .declare ⟨0⟩ "source" [] (.int 32), .declare ⟨0⟩ "user" [] (.int 32),
    .define ⟨1⟩ [.block, .block, .block, .block, .block,
      .moveTo ⟨0⟩, .call ⟨0⟩ [], .cmp .slt (.inst ⟨0⟩) (.int 0 32), .branch (.inst ⟨1⟩) ⟨1⟩ ⟨2⟩,
      .moveTo ⟨1⟩, .ret (some (.int (-1) 32)),
      .moveTo ⟨2⟩, .call ⟨0⟩ [], .cmp .sge (.inst ⟨4⟩) (.int 0 32), .branch (.inst ⟨5⟩) ⟨3⟩ ⟨4⟩,
      .moveTo ⟨3⟩, .ret (some (.int 0 32)),
      .moveTo ⟨4⟩, .ret (some (.int (-2) 32))]]

/-- Both checks are decided. -/
def checkedTwiceMatched : Table CheckId Match :=
  .ofList [(⟨⟨1⟩, 0⟩, .ofErrorBlock ⟨1⟩), (⟨⟨1⟩, 1⟩, .ofErrorBlock ⟨4⟩)]

/-- Negative values of `source` were observed five times before. -/
def fiveTimesNegative : Histograms :=
  .ofList [(⟨⟨0⟩, 0⟩, .ofList [(.ofRange (-2147483648) (-1), 5)])]

/-- Both calls have negative values on the error side, so that there are two observations more. If
the targets of the second call are only coarsely known, there is one. -/
theorem checkedTwice_observations : ∃ c c' out out' values values',
    ofDirectives checkedTwice = .ok c ∧
    c' = { c with graph := c.graph.addIndirect ⟨4⟩ [] true } ∧ c'.graph.isCoarse ⟨4⟩ = true ∧
    c.addObservations checkedTwiceMatched fiveTimesNegative = .ok out ∧
    out.count? ⟨⟨0⟩, 0⟩ (.ofRange (-2147483648) (-1)) = some 7 ∧
    c.Collects checkedTwiceMatched.entries values ∧
    values.entries.countP (c.CountsFor ⟨⟨0⟩, 0⟩ (.ofRange (-2147483648) (-1)) ·) = 2 ∧
    c'.addObservations checkedTwiceMatched fiveTimesNegative = .ok out' ∧
    out'.count? ⟨⟨0⟩, 0⟩ (.ofRange (-2147483648) (-1)) = some 6 ∧
    c'.Collects checkedTwiceMatched.entries values' ∧
    values'.entries.countP (c'.CountsFor ⟨⟨0⟩, 0⟩ (.ofRange (-2147483648) (-1)) ·) = 1 := by
  obtain ⟨c, hc, out, hout, out', hout', hcoarse, hseven, hsix⟩ :
      ∃ c, ofDirectives checkedTwice = .ok c ∧
      ∃ out, c.addObservations checkedTwiceMatched fiveTimesNegative = .ok out ∧
      ∃ out', addObservations { c with graph := c.graph.addIndirect ⟨4⟩ [] true }
        checkedTwiceMatched fiveTimesNegative = .ok out' ∧
      (c.graph.addIndirect ⟨4⟩ [] true).isCoarse ⟨4⟩ = true ∧
      out.count? ⟨⟨0⟩, 0⟩ (.ofRange (-2147483648) (-1)) = some 7 ∧
      out'.count? ⟨⟨0⟩, 0⟩ (.ofRange (-2147483648) (-1)) = some 6 := by decide +kernel
  have hfive : fiveTimesNegative.count? ⟨⟨0⟩, 0⟩ (.ofRange (-2147483648) (-1)) = some 5 := by decide
  obtain ⟨values, hcollects, hcounted, -⟩ :=
    (observations_exact fiveTimesNegative checkedTwiceMatched).1 out hout
  obtain ⟨values', hcollects', hcounted', -⟩ :=
    (observations_exact fiveTimesNegative checkedTwiceMatched).1 out' hout'
  have hsum := (hcounted ⟨⟨0⟩, 0⟩ (.ofRange (-2147483648) (-1))).symm.trans hseven
  have hsum' := (hcounted' ⟨⟨0⟩, 0⟩ (.ofRange (-2147483648) (-1))).symm.trans hsix
  rw [hfive, Histograms.raise_some] at hsum hsum'
  exact ⟨c, _, out, out', values, values', hc, rfl, hcoarse, hout, hseven, hcollects,
    Nat.add_left_cancel (Option.some.inj hsum), hout', hsix, hcollects',
    Nat.add_left_cancel (Option.some.inj hsum')⟩

end Context

end ErrorReturns
