import ErrorReturns.Proofs.Trace.Loads

/-!
# The direction of a slice

A walk up the predecessors of a block finds the latest block first, and a path through a function
lists the earliest first. Either list is a slice as it stands, with positions that count in the
order of execution. Slices of one execution (`Slice.SameRun`) therefore have the same block at every
position and every block at the same last position, also where an execution comes to a block more
than once.

A resolution knows its slice by these positions alone. Each part of it is the same along slices of
one execution, at whatever depth and with whatever values seen (`Resolver.resolve_congr`), so that a
resolution ends along both or along neither.
-/

namespace ErrorReturns

namespace Slice

/-- **Slices of one execution**, in whichever direction they are written. -/
def SameRun (s s' : Slice) : Prop := s.executed = s'.executed

@[simp] theorem executed_forward (bs : List BlockId) : (forward bs).executed = bs := rfl

@[simp] theorem executed_backward (bs : List BlockId) : (backward bs).executed = bs.reverse := rfl

theorem sameRun_backward_reverse (bs : List BlockId) :
    SameRun (backward bs.reverse) (forward bs) := by
  rw [SameRun, executed_backward, executed_forward, List.reverse_reverse]

variable {s s' : Slice} (h : s.SameRun s')
include h

theorem SameRun.length_eq : s.length = s'.length := by
  rw [← length_executed, ← length_executed, h]

theorem SameRun.get?_eq (n : Nat) : s.get? n = s'.get? n := by
  rw [get?_eq_getElem?_executed, get?_eq_getElem?_executed, h]

theorem SameRun.get_eq (n : Nat) : s.get n = s'.get n := by
  rw [get, get, h.get?_eq, h.length_eq]

theorem SameRun.contains_eq (b : BlockId) : s.contains b = s'.contains b := by
  rw [contains, contains, decide_eq_decide, ← mem_executed, ← mem_executed, h]

theorem SameRun.lastIndex?_eq (b : BlockId) : s.lastIndex? b = s'.lastIndex? b := by
  simp only [lastIndex?, h.length_eq, h.get?_eq]

omit h in
/-- The last position of a block is the greatest one. -/
theorem lastIndex?_eq_some_iff_isGreatest {b : BlockId} {n : Nat} :
    s.lastIndex? b = some n ↔ IsGreatest {m | s.executed[m]? = some b} n := by
  simp only [lastIndex?_eq_some_iff, IsLast, get?_eq_getElem?_executed]
  refine and_congr_right fun _ => ⟨fun hlater m hm => ?_, fun hgreatest m hlt hm => ?_⟩
  · exact Nat.le_of_not_lt fun hlt => hlater m hlt hm
  · exact Nat.not_lt_of_le (hgreatest hm) hlt

end Slice

namespace Resolver

variable {p : Program} {mayAlias : AliasOracle} {s s' : Slice} (h : s.SameRun s')
include h

/-! ## Looking back -/

theorem earlierPositions_congr (origin : InstId) :
    earlierPositions ⟨p, mayAlias, s⟩ origin = earlierPositions ⟨p, mayAlias, s'⟩ origin := by
  simp only [earlierPositions, h.lastIndex?_eq]

theorem instsAt_congr : instsAt ⟨p, mayAlias, s⟩ = instsAt ⟨p, mayAlias, s'⟩ := by
  funext n
  simp only [instsAt, h.get_eq]

theorem before_congr (origin : InstId) :
    before ⟨p, mayAlias, s⟩ origin = before ⟨p, mayAlias, s'⟩ origin := by
  simp only [before, earlierInBlock, earlierPositions_congr h, instsAt_congr h]

theorem findBack_congr {α : Type} (origin : InstId) (visit : InstId → Checked (Option α)) :
    findBack ⟨p, mayAlias, s⟩ origin visit = findBack ⟨p, mayAlias, s'⟩ origin visit := by
  simp only [findBack, earlierInBlock, earlierPositions_congr h, instsAt_congr h]

theorem storedValue?_congr (load : InstId) (ptr : Value) :
    storedValue? ⟨p, mayAlias, s⟩ load ptr = storedValue? ⟨p, mayAlias, s'⟩ load ptr := by
  have haddresses : addressesOf ⟨p, mayAlias, s⟩ load ptr =
      addressesOf ⟨p, mayAlias, s'⟩ load ptr := by
    simp only [addressesOf, before_congr h]
    rfl
  simp only [storedValue?, haddresses, findBack_congr h]

theorem nearestIncoming?_congr (own : BlockId) (incoming : List (BlockId × Value)) :
    nearestIncoming? ⟨p, mayAlias, s⟩ own incoming =
      nearestIncoming? ⟨p, mayAlias, s'⟩ own incoming := by
  simp only [nearestIncoming?, h.lastIndex?_eq]

/-! ## One level -/

section Open

variable {m : Type → Type} [Monad m] [MonadLiftT Checked m]
  (resolve : Value → List Value → m Resolution)

theorem answer_congr (q : Question) (ns : List Nat) (seen : List Value) :
    answer ⟨p, mayAlias, s⟩ resolve q ns seen = answer ⟨p, mayAlias, s'⟩ resolve q ns seen := by
  induction ns generalizing seen with
  | nil => rfl
  | cons n rest ih =>
    have hhere : answerAt ⟨p, mayAlias, s⟩ resolve q n seen =
        answerAt ⟨p, mayAlias, s'⟩ resolve q n seen := by
      simp only [answerAt, h.get_eq]
      rfl
    simp only [answer, hhere, ih]

theorem resolveCmp_congr (cmp : InstId) (pred : Predicate) (lhs rhs : Value) (seen : List Value) :
    resolveCmp ⟨p, mayAlias, s⟩ resolve cmp pred lhs rhs seen =
      resolveCmp ⟨p, mayAlias, s'⟩ resolve cmp pred lhs rhs seen := by
  simp only [resolveCmp, earlierPositions_congr h, answer_congr h]

/-- **One level of a resolution** is the same along slices of one execution, however the values
inside it are resolved. -/
theorem step_congr (v : Value) (seen : List Value) :
    step ⟨p, mayAlias, s⟩ resolve v seen = step ⟨p, mayAlias, s'⟩ resolve v seen := by
  cases v with
  | inst id =>
    simp only [step, storedValue?_congr h, resolveCmp_congr h, nearestIncoming?_congr h]
  | _ => rfl

end Open

/-! ## Resolutions -/

theorem resolve_congr (depth : Nat) (v : Value) (seen : List Value) :
    resolve ⟨p, mayAlias, s⟩ depth v seen = resolve ⟨p, mayAlias, s'⟩ depth v seen := by
  induction depth generalizing v seen with
  | zero => rfl
  | succ depth ih =>
    have hinside : resolve ⟨p, mayAlias, s⟩ depth = resolve ⟨p, mayAlias, s'⟩ depth := by
      funext v seen
      exact ih v seen
    rw [resolve, resolve, hinside, step_congr h]

end Resolver

namespace Slice

/-- **A slice may be written in either direction.** The blocks of an execution, and the same blocks
latest first, are slices with the same length, blocks and positions: each position has the block
that is there in the execution, and the last position of a block is the greatest one. Resolving a
value along either gives the same result, or fails in the same way, whatever the depth and the
values seen. -/
theorem directions_interchangeable (bs : List BlockId) :
    ((backward bs.reverse).length = bs.length ∧ (forward bs).length = bs.length) ∧
    (∀ n, (backward bs.reverse).get n = (forward bs).get n ∧
      ∀ b, (forward bs).get n = .ok b ↔ bs[n]? = some b) ∧
    (∀ b, (backward bs.reverse).contains b = (forward bs).contains b ∧
      ((forward bs).contains b = true ↔ b ∈ bs)) ∧
    (∀ b, (backward bs.reverse).lastIndex? b = (forward bs).lastIndex? b ∧
      ∀ n, (forward bs).lastIndex? b = some n ↔ IsGreatest {m | bs[m]? = some b} n) ∧
    ∀ (p : Program) (mayAlias : AliasOracle) (v : Value),
      (∀ depth seen, Resolver.resolve ⟨p, mayAlias, backward bs.reverse⟩ depth v seen =
        Resolver.resolve ⟨p, mayAlias, forward bs⟩ depth v seen) ∧
      Resolver.resolveFresh ⟨p, mayAlias, backward bs.reverse⟩ v =
        Resolver.resolveFresh ⟨p, mayAlias, forward bs⟩ v := by
  have h := sameRun_backward_reverse bs
  refine ⟨⟨h.length_eq, rfl⟩, fun n => ⟨h.get_eq n, fun b => ?_⟩,
    fun b => ⟨h.contains_eq b, decide_eq_true_iff⟩,
    fun b => ⟨h.lastIndex?_eq b, fun n => lastIndex?_eq_some_iff_isGreatest⟩,
    fun p mayAlias v => ⟨fun depth seen => Resolver.resolve_congr h depth v seen, ?_⟩⟩
  · rw [get_eq_ok_iff, get?_eq_getElem?_executed, executed_forward]
  · rw [Resolver.resolveFresh, Resolver.resolveSeeing, Resolver.resolve_congr h]
    rfl

/-- An execution that comes to a block twice, written latest first. -/
example : (backward [⟨2⟩, ⟨1⟩, ⟨0⟩, ⟨1⟩]).lastIndex? ⟨1⟩ = some 2 := by decide

end Slice

end ErrorReturns
