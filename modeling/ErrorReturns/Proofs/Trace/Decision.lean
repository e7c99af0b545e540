import ErrorReturns.Program.Draft
import ErrorReturns.Program.Defect
import ErrorReturns.Proofs.Checked
import ErrorReturns.Proofs.Comparison
import ErrorReturns.Trace.Resolve
import Mathlib.Data.List.Basic

/-!
# Why a comparison is decided

A comparison is resolved by looking back along the slice for a block whose end answers it. What such
a search has done when it comes to a position is recorded in full: the two operands have been
resolved, the positions in between have been passed over, and values have come to be seen on the way
(`Resolver.Reaches`). A comparison is resolved to a truth value exactly if the search reaches a
position that gives an answer (`Resolver.resolve_cmp_cases`, `Resolver.Reaches.resolve_eq`).

An answer has one of two reasons. A branch tests another comparison of the same two values, and on
the side that was taken the answer holds whatever these values are (`Resolver.BranchJustifies`). Or
a switch tests the left value, and its *first* case that leads to the next block gives the answer
(`Resolver.SwitchJustifies`). The second reason is weaker than it looks. A switch may send several
cases to one block, and the default too, and then the answer need not hold for every value that
comes this way: it does if the edges agree (`Resolver.switch_verdict_for_every_case_iff`), and two
cases that share a target are enough to make it wrong (`Resolver.sharedTarget_verdict_wrong`).
-/

namespace ErrorReturns

open Checked

theorem Value.eq_const_of_const? {v : Value} {c : Constant} (h : v.const? = some c) :
    v = .const c := by
  cases v with
  | const d => exact congrArg Value.const (Option.some.inj h)
  | _ => cases h

theorem Arena.exists_inst_of_opOf? {a : Arena} {v : Value} {op : Operation}
    (h : a.opOf? v = .ok (some op)) : ∃ i, v = .inst i ∧ a.op i = .ok op := by
  cases v with
  | inst i =>
    obtain ⟨op', hop, heq⟩ := bind_eq_ok_iff.mp h
    obtain rfl := Option.some.inj (Except.ok.inj heq)
    exact ⟨i, rfl, hop⟩
  | _ => cases h

/-! ## Positions -/

namespace Slice

variable {s : Slice}

theorem get_eq_ok_iff {n : Nat} {b : BlockId} : s.get n = .ok b ↔ s.get? n = some b := by
  unfold get
  cases s.get? n <;> simp

/-- **The last position of a block** on a slice. -/
def IsLast (s : Slice) (b : BlockId) (n : Nat) : Prop :=
  s.get? n = some b ∧ ∀ m, n < m → s.get? m ≠ some b

/-- A search from the end finds the last index. -/
theorem of_find?_range_reverse {P : Nat → Bool} {k n : Nat}
    (h : (List.range k).reverse.find? P = some n) :
    P n = true ∧ ∀ m, n < m → m < k → P m = false := by
  induction k with
  | zero => cases h
  | succ k ih =>
    rw [List.range_succ, List.reverse_concat, List.find?_cons] at h
    split at h
    case h_1 hk =>
      obtain rfl := Option.some.inj h
      exact ⟨hk, fun m hlt hm => by omega⟩
    case h_2 hk =>
      obtain ⟨hn, hlater⟩ := ih h
      refine ⟨hn, fun m hlt hm => ?_⟩
      rcases Nat.lt_succ_iff_lt_or_eq.mp hm with hm | rfl
      · exact hlater m hlt hm
      · exact hk

theorem isLast_of_lastIndex? {b : BlockId} {n : Nat} (h : s.lastIndex? b = some n) :
    s.IsLast b n := by
  obtain ⟨hn, hlater⟩ := of_find?_range_reverse h
  refine ⟨eq_of_beq hn, fun m hlt hm => ?_⟩
  have hdiffers := hlater m hlt (Option.ite_none_right_eq_some.mp hm).1
  rw [hm, beq_self_eq_true] at hdiffers
  cases hdiffers

/-- The last index of a block is found. -/
theorem lastIndex?_eq_some_iff {b : BlockId} {n : Nat} :
    s.lastIndex? b = some n ↔ s.IsLast b n := by
  refine ⟨isLast_of_lastIndex?, fun h => ?_⟩
  cases hfind : s.lastIndex? b with
  | none =>
    have hmem : n ∈ (List.range s.length).reverse :=
      List.mem_reverse.mpr (List.mem_range.mpr (Option.ite_none_right_eq_some.mp h.1).1)
    have hdiffers := List.find?_eq_none.mp hfind n hmem
    rw [h.1, beq_self_eq_true] at hdiffers
    exact absurd rfl hdiffers
  | some m =>
    have hm := isLast_of_lastIndex? hfind
    rcases Nat.lt_trichotomy m n with hlt | rfl | hlt
    · exact absurd h.1 (hm.2 n hlt)
    · rfl
    · exact absurd hm.1 (h.2 m hlt)

end Slice

namespace Resolver

/-! ## The search for an answer -/

/-- **The search passes over positions**: it comes from one position down to another without an
answer, and values come to be seen on the way. -/
inductive PassesOver (r : Resolver) (depth : Nat) (q : Question) :
    Nat → List Value → Nat → List Value → Prop
  | start (n : Nat) (seen : List Value) : PassesOver r depth q n seen n seen
  | pass {m n : Nat} {seen seen' seen'' : List Value}
      (h : r.answerAt (r.resolve depth) q m seen = .ok (none, seen'))
      (rest : PassesOver r depth q m seen' n seen'') : PassesOver r depth q (m + 1) seen n seen''

variable (r : Resolver) (depth : Nat)

/-- **The search reaches a position**, having seen some values. It answers a question about a
comparison, whose operands are resolved first, and it starts before the last position of the block
of the comparison. -/
def Reaches (seen : List Value) (q : Question) (n : Nat) (seen' : List Value) : Prop :=
  ∃ lhs rhs seen₁ seen₂ block last, r.program.op q.cmp = .ok (.cmp q.pred lhs rhs) ∧
    r.resolve depth lhs seen = .ok (some q.lhs, seen₁) ∧
    r.resolve depth rhs seen₁ = .ok (some q.rhs, seen₂) ∧
    r.program.blockOf q.cmp = .ok block ∧ r.slice.IsLast block last ∧ n < last ∧
    r.PassesOver depth q last seen₂ (n + 1) seen'

/-- **A passed branch justifies an answer**: it tests another comparison of the same two values, and
the answer is right for every two constants of one width for which that comparison is true, if the
branch was taken to its true side, or false, if it was not. -/
def BranchJustifies (q : Question) (n : Nat) (seen : List Value) (b : Bool) : Prop :=
  ∃ block next other ifTrue ifFalse pred lhs rhs seen₁ seen₂,
    r.slice.get? n = some block ∧ r.slice.get? (n + 1) = some next ∧
    r.program.terminatorOp? block = .ok (some (.branch (.inst other) ifTrue ifFalse)) ∧
    other ≠ q.cmp ∧ r.program.op other = .ok (.cmp pred lhs rhs) ∧
    r.resolve depth lhs (lhs :: seen) = .ok (some q.lhs, seen₁) ∧
    r.resolve depth rhs seen₁ = .ok (some q.rhs, seen₂) ∧
    ∀ x y : Constant, x.bits = y.bits → pred.evaluate x y = decide (next = ifTrue) →
      q.pred.evaluate x y = b

/-- **A passed switch justifies an answer**: it tests the left value, the right one is a constant,
and the answer is right for the first case that leads to the next block. -/
def SwitchJustifies (q : Question) (n : Nat) (seen : List Value) (b : Bool) : Prop :=
  ∃ block next cond default cases k rhs seen',
    r.slice.get? n = some block ∧ r.slice.get? (n + 1) = some next ∧
    r.program.terminatorOp? block = .ok (some (.switch cond default cases)) ∧
    r.resolve depth cond seen = .ok (some q.lhs, seen') ∧ q.rhs = .const rhs ∧
    cases.find? (·.2 == next) = some (k, next) ∧ q.pred.evaluate k rhs = b

variable {r depth} {q : Question} {n : Nat} {seen seen' : List Value} {b : Bool}

/-! ## One position -/

/-- What follows of two constants from the side of a branch that was taken. -/
theorem evaluate_of_impliedBy {truth pred : Predicate} (h : impliedBy truth pred = some b)
    {x y : Constant} (hbits : x.bits = y.bits) (htruth : truth.evaluate x y = true) :
    pred.evaluate x y = b := by
  unfold impliedBy at h
  split at h
  case isTrue himplies =>
    obtain rfl := Option.some.inj h
    exact Predicate.evaluate_of_impliesTrue himplies hbits htruth
  case isFalse =>
    split at h
    case isTrue himplies =>
      obtain rfl := Option.some.inj h
      exact Predicate.evaluate_of_impliesFalse himplies hbits htruth
    case isFalse => cases h

/-- **What a branch answers from**: another comparison of the same values, which implies the
question or its opposite on the side that was taken. -/
theorem of_answerOfBranch {cond : Value} {taken : Bool}
    (h : r.answerOfBranch (r.resolve depth) q cond taken seen = .ok (some b, seen')) :
    ∃ other pred lhs rhs seen₁, cond = .inst other ∧ other ≠ q.cmp ∧
      r.program.op other = .ok (.cmp pred lhs rhs) ∧
      r.resolve depth lhs (lhs :: seen) = .ok (some q.lhs, seen₁) ∧
      r.resolve depth rhs seen₁ = .ok (some q.rhs, seen') ∧
      impliedBy (if taken then pred else pred.inverse) q.pred = some b := by
  -- every test that fails answers `none`, against `h`; past the last one all facts are at hand
  obtain ⟨op?, hop, h⟩ := bind_eq_ok_iff.mp h
  split at h
  case h_2 => cases h
  case h_1 pred lhs rhs =>
    split at h
    case isTrue => cases h
    case isFalse hnew =>
      obtain ⟨⟨lhs?, seen₁⟩, hlhs, h⟩ := bind_eq_ok_iff.mp h
      dsimp only at h
      split at h
      case isTrue => cases h
      case isFalse hsame =>
        obtain ⟨⟨rhs?, seen₂⟩, hrhs, h⟩ := bind_eq_ok_iff.mp h
        dsimp only at h
        split at h
        case isTrue => cases h
        case isFalse hsame' =>
          obtain ⟨himplied, rfl⟩ := Prod.mk.inj (Except.ok.inj h)
          obtain ⟨other, rfl, hother⟩ := Arena.exists_inst_of_opOf? hop
          rw [Decidable.not_not] at hsame hsame'
          rw [hsame] at hlhs
          rw [hsame'] at hrhs
          refine ⟨other, pred, lhs, rhs, seen₁, rfl, ?_, hother, hlhs, hrhs, himplied⟩
          exact fun heq => hnew (Or.inl (congrArg Value.inst heq))

/-- A switch answers from the first case that leads to the next block. -/
theorem of_answerOfSwitch {cond : Value} {cases : List (Constant × BlockId)} {next : BlockId}
    (h : answerOfSwitch (r.resolve depth) q cond cases next seen = .ok (some b, seen')) :
    r.resolve depth cond seen = .ok (some q.lhs, seen') ∧ ∃ rhs k, q.rhs = .const rhs ∧
      cases.find? (·.2 == next) = some (k, next) ∧ q.pred.evaluate k rhs = b := by
  obtain ⟨⟨cond?, seen₁⟩, hcond, h⟩ := bind_eq_ok_iff.mp h
  dsimp only at h
  split at h
  case isTrue => cases h
  case isFalse hsame =>
    rw [Decidable.not_not] at hsame
    rw [hsame] at hcond
    split at h
    case h_2 => cases h
    case h_1 rhs k target hrhs hfind =>
      obtain ⟨hb, rfl⟩ := Prod.mk.inj (Except.ok.inj h)
      have htarget := List.find?_some hfind
      obtain rfl := eq_of_beq htarget
      exact ⟨hcond, rhs, k, Value.eq_const_of_const? hrhs, hfind, Option.some.inj hb⟩

/-- **What the end of a block answers is justified** by a branch or by a switch. -/
theorem justified_of_answerAt
    (h : r.answerAt (r.resolve depth) q n seen = .ok (some b, seen')) :
    r.BranchJustifies depth q n seen b ∨ r.SwitchJustifies depth q n seen b := by
  simp only [answerAt, bind_eq_ok_iff] at h
  obtain ⟨block, hblock, next, hnext, op?, hop, h⟩ := h
  have hblock := Slice.get_eq_ok_iff.mp hblock
  have hnext := Slice.get_eq_ok_iff.mp hnext
  split at h
  case h_1 cond ifTrue ifFalse =>
    obtain ⟨other, pred, lhs, rhs, seen₁, rfl, hne, hother, hlhs, hrhs, himplied⟩ :=
      of_answerOfBranch h
    refine Or.inl ⟨block, next, other, ifTrue, ifFalse, pred, lhs, rhs, seen₁, seen', hblock, hnext,
      hop, hne, hother, hlhs, hrhs, fun x y hbits htaken => ?_⟩
    refine evaluate_of_impliedBy himplied hbits ?_
    -- on the false side it is the inverse of the tested comparison that holds
    by_cases heq : ifTrue = next
    · simpa [heq] using htaken
    · have hfalse : pred.evaluate x y = false := by simpa [Ne.symm heq] using htaken
      simp [heq, Predicate.evaluate_inverse, hfalse]
  case h_2 cond default cases =>
    obtain ⟨hcond, rhs, k, hrhs, hfind, hb⟩ := of_answerOfSwitch h
    exact Or.inr ⟨block, next, cond, default, cases, k, rhs, seen', hblock, hnext, hop, hcond, hrhs,
      hfind, hb⟩
  case h_3 => cases h

/-! ## The whole search -/

/-- **A search ends** without an answer, or at the first position that gives one. -/
theorem answer_cases {last : Nat} {v? : Option Value}
    (h : r.answer (r.resolve depth) q (List.range last).reverse seen = .ok (v?, seen')) :
    v? = some (.inst q.cmp) ∨ ∃ b n seen₁, v? = some (.const (.ofBool b)) ∧ n < last ∧
      r.PassesOver depth q last seen (n + 1) seen₁ ∧
      r.answerAt (r.resolve depth) q n seen₁ = .ok (some b, seen') := by
  induction last generalizing seen with
  | zero => exact Or.inl (Prod.mk.inj (Except.ok.inj h)).1.symm
  | succ m ih =>
    rw [List.range_succ, List.reverse_concat, answer] at h
    obtain ⟨⟨answer?, seen₁⟩, hanswer, h⟩ := bind_eq_ok_iff.mp h
    cases answer? with
    | some b =>
      obtain ⟨rfl, rfl⟩ := Prod.mk.inj (Except.ok.inj h)
      exact Or.inr ⟨b, m, seen, rfl, Nat.lt_succ_self m, .start _ _, hanswer⟩
    | none =>
      refine (ih h).imp_right ?_
      rintro ⟨b, n, seen₂, hv, hlt, hpass, hat⟩
      exact ⟨b, n, seen₂, hv, Nat.lt_succ_of_lt hlt, .pass hanswer hpass, hat⟩

/-- A search that comes to a position with an answer ends there. -/
theorem PassesOver.answer_eq {last : Nat} {seen₁ : List Value}
    (h : r.PassesOver depth q last seen (n + 1) seen₁)
    (hat : r.answerAt (r.resolve depth) q n seen₁ = .ok (some b, seen')) :
    r.answer (r.resolve depth) q (List.range last).reverse seen =
      .ok (some (.const (.ofBool b)), seen') := by
  generalize hm : n + 1 = m at h
  induction h with
  | start k seen =>
    subst hm
    rw [List.range_succ, List.reverse_concat, answer, hat]
    rfl
  | pass hanswer _ ih =>
    rw [List.range_succ, List.reverse_concat, answer, hanswer]
    exact ih hat hm

/-- A comparison is resolved by looking for an answer in the past. -/
theorem resolve_cmp {cmp : InstId} {pred : Predicate} {lhs rhs : Value}
    (hop : r.program.op cmp = .ok (.cmp pred lhs rhs)) (seen : List Value) :
    r.resolve (depth + 1) (.inst cmp) seen =
      r.resolveCmp (r.resolve depth) cmp pred lhs rhs seen := by
  show r.step (r.resolve depth) (.inst cmp) seen = _
  unfold step
  dsimp only
  rw [hop]
  rfl

/-- **How a comparison is resolved**: it stands for itself, or the search reaches a position that
decides it. -/
theorem resolve_cmp_cases {cmp : InstId} {pred : Predicate} {lhs rhs : Value} {v? : Option Value}
    (hop : r.program.op cmp = .ok (.cmp pred lhs rhs))
    (h : r.resolve (depth + 1) (.inst cmp) seen = .ok (v?, seen')) :
    v? = some (.inst cmp) ∨ ∃ b x y n seen₁, v? = some (.const (.ofBool b)) ∧
      r.Reaches depth seen ⟨cmp, pred, x, y⟩ n seen₁ ∧
      r.answerAt (r.resolve depth) ⟨cmp, pred, x, y⟩ n seen₁ = .ok (some b, seen') := by
  rw [resolve_cmp hop] at h
  obtain ⟨⟨lhs?, seen₁⟩, hlhs, h⟩ := bind_eq_ok_iff.mp h
  cases lhs? with
  | none => exact Or.inl (Prod.mk.inj (Except.ok.inj h)).1.symm
  | some x =>
    obtain ⟨⟨rhs?, seen₂⟩, hrhs, h⟩ := bind_eq_ok_iff.mp h
    cases rhs? with
    | none => exact Or.inl (Prod.mk.inj (Except.ok.inj h)).1.symm
    | some y =>
      obtain ⟨positions, hpositions, h⟩ := bind_eq_ok_iff.mp h
      obtain ⟨block, hblock, hpositions⟩ := bind_eq_ok_iff.mp hpositions
      split at hpositions
      case h_2 =>
        obtain rfl := Except.ok.inj hpositions
        exact Or.inl (Prod.mk.inj (Except.ok.inj h)).1.symm
      case h_1 last hlast =>
        obtain rfl := Except.ok.inj hpositions
        refine (answer_cases h).imp_right ?_
        rintro ⟨b, n, seen₃, hv, hlt, hpass, hat⟩
        exact ⟨b, x, y, n, seen₃, hv, ⟨lhs, rhs, seen₁, seen₂, block, last, hop, hlhs, hrhs, hblock,
          Slice.lastIndex?_eq_some_iff.mp hlast, hlt, hpass⟩, hat⟩

/-- A comparison is decided where the search for an answer finds one. -/
theorem Reaches.resolve_eq {seen₁ : List Value} (h : r.Reaches depth seen q n seen₁)
    (hat : r.answerAt (r.resolve depth) q n seen₁ = .ok (some b, seen')) :
    r.resolve (depth + 1) (.inst q.cmp) seen = .ok (some (.const (.ofBool b)), seen') := by
  obtain ⟨lhs, rhs, seen₂, seen₃, block, last, hop, hlhs, hrhs, hblock, hlast, -, hpass⟩ := h
  have hpositions : r.earlierPositions q.cmp = .ok (List.range last).reverse := by
    rw [earlierPositions, hblock, ok_bind, Slice.lastIndex?_eq_some_iff.mpr hlast]
    rfl
  rw [resolve_cmp hop, resolveCmp, hlhs, ok_bind]
  dsimp only
  rw [hrhs, ok_bind]
  dsimp only
  rw [hpositions]
  exact hpass.answer_eq hat

/-! ## Reasons -/

/-- **Every decided comparison is justified** by the end of a block that the slice has passed. For
every program, alias oracle and slice, and whatever has been seen, a comparison is resolved to
itself or to a truth value. In the second case the search for it reaches a position before the last
one of its block, and there a branch or a switch justifies this truth value. -/
theorem decided_comparisons_justified {cmp : InstId} {pred : Predicate} {lhs rhs : Value}
    {v? : Option Value} (hop : r.program.op cmp = .ok (.cmp pred lhs rhs))
    (h : r.resolve (depth + 1) (.inst cmp) seen = .ok (v?, seen')) :
    v? = some (.inst cmp) ∨ ∃ b x y n seen₁, v? = some (.const (.ofBool b)) ∧
      r.Reaches depth seen ⟨cmp, pred, x, y⟩ n seen₁ ∧
      (r.BranchJustifies depth ⟨cmp, pred, x, y⟩ n seen₁ b ∨
        r.SwitchJustifies depth ⟨cmp, pred, x, y⟩ n seen₁ b) := by
  refine (resolve_cmp_cases hop h).imp_right ?_
  rintro ⟨b, x, y, n, seen₁, hv, hreach, hat⟩
  exact ⟨b, x, y, n, seen₁, hv, hreach, justified_of_answerAt hat⟩

/-- A function that compares a result twice in the same way, and once the other way round. -/
def comparedAgain : List Directive :=
  [.module "m", .declare ⟨0⟩ "source" [] (.int 32), .declare ⟨0⟩ "user" [] (.int 1),
    .define ⟨1⟩ [.block, .block, .block,
      .moveTo ⟨0⟩, .call ⟨0⟩ [], .cmp .slt (.inst ⟨0⟩) (.int 0 32), .branch (.inst ⟨1⟩) ⟨1⟩ ⟨2⟩,
      .moveTo ⟨1⟩, .ret (some (.inst ⟨1⟩)),
      .moveTo ⟨2⟩, .cmp .slt (.inst ⟨0⟩) (.int 0 32), .ret (some (.inst ⟨4⟩))]]

/-- On the false side of the branch the comparison is false, and the branch justifies it. -/
theorem comparedAgain_justified : ∃ p, Program.build comparedAgain = .ok p ∧
    let r : Resolver := ⟨p, .basic, .forward [⟨0⟩, ⟨2⟩]⟩
    r.program.op ⟨4⟩ = .ok (.cmp .slt (.inst ⟨0⟩) (.int 0 32)) ∧
      r.resolve 2 (.inst ⟨4⟩) [] = .ok (some (.const (.ofBool false)), [.inst ⟨0⟩]) ∧
      ∃ b x y n seen, some (Value.const (.ofBool false)) = some (.const (.ofBool b)) ∧
        r.Reaches 1 [] ⟨⟨4⟩, .slt, x, y⟩ n seen ∧
        (r.BranchJustifies 1 ⟨⟨4⟩, .slt, x, y⟩ n seen b ∨
          r.SwitchJustifies 1 ⟨⟨4⟩, .slt, x, y⟩ n seen b) := by
  obtain ⟨p, hp, hop, hfound⟩ : ∃ p, Program.build comparedAgain = .ok p ∧
      p.op ⟨4⟩ = .ok (.cmp .slt (.inst ⟨0⟩) (.int 0 32)) ∧
      resolve ⟨p, .basic, .forward [⟨0⟩, ⟨2⟩]⟩ 2 (.inst ⟨4⟩) [] =
        .ok (some (.const (.ofBool false)), [.inst ⟨0⟩]) := by decide +kernel
  exact ⟨p, hp, hop, hfound, (decided_comparisons_justified hop hfound).resolve_left nofun⟩

/-! ## Switches with shared targets -/

/-- At a block that ends with a switch the answer is that of the switch. -/
theorem of_answerAt_switch {block next default : BlockId} {cond : Value}
    {cases : List (Constant × BlockId)} (hblock : r.slice.get? n = some block)
    (hnext : r.slice.get? (n + 1) = some next)
    (hswitch : r.program.terminatorOp? block = .ok (some (.switch cond default cases)))
    (h : r.answerAt (r.resolve depth) q n seen = .ok (some b, seen')) :
    r.resolve depth cond seen = .ok (some q.lhs, seen') ∧ ∃ rhs k, q.rhs = .const rhs ∧
      (k, next) ∈ cases ∧ q.pred.evaluate k rhs = b := by
  obtain ⟨block', hblock', h⟩ := bind_eq_ok_iff.mp h
  obtain rfl := Except.ok.inj ((Slice.get_eq_ok_iff.mpr hblock).symm.trans hblock')
  obtain ⟨next', hnext', h⟩ := bind_eq_ok_iff.mp h
  obtain rfl := Except.ok.inj ((Slice.get_eq_ok_iff.mpr hnext).symm.trans hnext')
  obtain ⟨op?, hop, h⟩ := bind_eq_ok_iff.mp h
  obtain rfl := Except.ok.inj (hswitch.symm.trans hop)
  obtain ⟨hcond, rhs, k, hrhs, hfind, hb⟩ := of_answerOfSwitch h
  exact ⟨hcond, rhs, k, hrhs, List.mem_of_find?_eq_some hfind, hb⟩

/-- **When the verdict of a switch is right.** A comparison that a switch decides on the way to a
block has the verdict of one case that leads there. The verdict is that of every such case, and the
default does not lead there, exactly if the edges of the switch to the block agree; and then it is
right for every value that takes one of these edges. -/
theorem switch_verdict_for_every_case_iff {block next default : BlockId} {cond : Value}
    {cases : List (Constant × BlockId)} {seen₁ : List Value}
    (hreach : r.Reaches depth seen q n seen₁)
    (hat : r.answerAt (r.resolve depth) q n seen₁ = .ok (some b, seen'))
    (hblock : r.slice.get? n = some block) (hnext : r.slice.get? (n + 1) = some next)
    (hswitch : r.program.terminatorOp? block = .ok (some (.switch cond default cases))) :
    r.resolve (depth + 1) (.inst q.cmp) seen = .ok (some (.const (.ofBool b)), seen') ∧
      r.resolve depth cond seen₁ = .ok (some q.lhs, seen') ∧ ∃ rhs, q.rhs = .const rhs ∧
        (((∀ k, (k, next) ∈ cases → q.pred.evaluate k rhs = b) ∧ next ≠ default) ↔
          EdgesAgree q.pred rhs default cases next) ∧
        (EdgesAgree q.pred rhs default cases next → ∀ v : Constant,
          (∀ c ∈ cases, c.1.bits = v.bits) → switchTarget default cases v.value = next →
            q.pred.evaluate v rhs = b) := by
  obtain ⟨hcond, rhs, k, hrhs, hk, rfl⟩ := of_answerAt_switch hblock hnext hswitch hat
  refine ⟨hreach.resolve_eq hat, hcond, rhs, hrhs, ⟨?_, ?_⟩, ?_⟩
  · rintro ⟨hall, hne⟩
    exact ⟨hne, fun k' k'' hk' hk'' => (hall k' hk').trans (hall k'' hk'').symm⟩
  · rintro ⟨hne, hagree⟩
    exact ⟨fun k' hk' => hagree k' k hk' hk, hne⟩
  · intro hagree v hbits hv
    exact hagree.evaluate_eq hk hbits hv

/-- A switch that sends two cases to one block, which compares the value again. -/
def sharedTarget : List Directive :=
  [.module "m", .declare ⟨0⟩ "source" [] (.int 32), .declare ⟨0⟩ "user" [] (.int 1),
    .define ⟨1⟩ [.block, .block, .block,
      .moveTo ⟨0⟩, .call ⟨0⟩ [], .switch (.inst ⟨0⟩) ⟨2⟩ [(-1, ⟨1⟩), (-2, ⟨1⟩)],
      .moveTo ⟨1⟩, .cmp .slt (.inst ⟨0⟩) (.int 0 32), .cmp .eq (.inst ⟨0⟩) (.int (-1) 32),
      .ret (some (.inst ⟨3⟩)),
      .moveTo ⟨2⟩, .ret (some (.int 0 1))]]

/-- The search reaches the position before the last one of the block of the comparison first. -/
theorem reaches_start {lhs rhs : Value} {seen₁ : List Value} {block : BlockId}
    (hop : r.program.op q.cmp = .ok (.cmp q.pred lhs rhs))
    (hlhs : r.resolve depth lhs seen = .ok (some q.lhs, seen₁))
    (hrhs : r.resolve depth rhs seen₁ = .ok (some q.rhs, seen'))
    (hblock : r.program.blockOf q.cmp = .ok block)
    (hlast : r.slice.lastIndex? block = some (n + 1)) : r.Reaches depth seen q n seen' :=
  ⟨lhs, rhs, seen₁, seen', block, n + 1, hop, hlhs, hrhs, hblock,
    Slice.lastIndex?_eq_some_iff.mp hlast, Nat.lt_succ_self n, .start _ _⟩

/-- How the search for the two comparisons of the value goes: both are answered by the switch. -/
theorem sharedTarget_answers : ∃ p, Program.build sharedTarget = .ok p ∧
    p.terminatorOp? ⟨0⟩ = .ok (some (.switch (.inst ⟨0⟩) ⟨2⟩
      [(.ofInt (-1) 32, ⟨1⟩), (.ofInt (-2) 32, ⟨1⟩)])) ∧
    let r : Resolver := ⟨p, .basic, .forward [⟨0⟩, ⟨1⟩]⟩
    ∀ q ∈ [⟨⟨2⟩, .slt, .inst ⟨0⟩, .int 0 32⟩, ⟨⟨3⟩, .eq, .inst ⟨0⟩, .int (-1) 32⟩],
      r.Reaches 1 [] q 0 [] ∧ r.answerAt (r.resolve 1) q 0 [] = .ok (some true, []) := by
  obtain ⟨p, hp, hlast, hfound⟩ : ∃ p, Program.build sharedTarget = .ok p ∧
      p.terminatorOp? ⟨0⟩ =
        .ok (some (.switch (.inst ⟨0⟩) ⟨2⟩ [(.ofInt (-1) 32, ⟨1⟩), (.ofInt (-2) 32, ⟨1⟩)])) ∧
      resolve ⟨p, .basic, .forward [⟨0⟩, ⟨1⟩]⟩ 1 (.inst ⟨0⟩) [] = .ok (some (.inst ⟨0⟩), []) := by
    decide +kernel
  refine ⟨p, hp, hlast, ?_⟩
  intro r q hq
  obtain ⟨p', hp', hop, hblock, hanswer⟩ : ∃ p, Program.build sharedTarget = .ok p ∧
      p.op q.cmp = .ok (.cmp q.pred (.inst ⟨0⟩) q.rhs) ∧ p.blockOf q.cmp = .ok ⟨1⟩ ∧
      answerAt ⟨p, .basic, .forward [⟨0⟩, ⟨1⟩]⟩
        (resolve ⟨p, .basic, .forward [⟨0⟩, ⟨1⟩]⟩ 1) q 0 [] =
        .ok (some true, []) := by
    rcases List.mem_pair.mp hq with rfl | rfl <;> decide +kernel
  obtain rfl := Except.ok.inj (hp.symm.trans hp')
  refine ⟨?_, hanswer⟩
  rcases List.mem_pair.mp hq with rfl | rfl <;> exact reaches_start hop hfound rfl hblock rfl

/-- Both cases are negative, so that the edges agree on a comparison with zero, and the verdict is
right. -/
theorem sharedTarget_verdict_right : ∃ p, Program.build sharedTarget = .ok p ∧
    let r : Resolver := ⟨p, .basic, .forward [⟨0⟩, ⟨1⟩]⟩
    let cases := [(.ofInt (-1) 32, ⟨1⟩), (.ofInt (-2) 32, ⟨1⟩)]
    r.resolve 2 (.inst ⟨2⟩) [] = .ok (some (.const (.ofBool true)), []) ∧
      EdgesAgree .slt (.ofInt 0 32) ⟨2⟩ cases ⟨1⟩ ∧
      ∀ v : Constant, v.bits = 32 → switchTarget ⟨2⟩ cases v.value = ⟨1⟩ →
        Predicate.slt.evaluate v (.ofInt 0 32) = true := by
  obtain ⟨p, hp, hswitch, hasked⟩ := sharedTarget_answers
  obtain ⟨hreach, hat⟩ := hasked _ List.mem_cons_self
  obtain ⟨hresolve, -, rhs, hrhs, -, hright⟩ :=
    switch_verdict_for_every_case_iff hreach hat rfl rfl hswitch
  obtain rfl := Value.const.inj hrhs
  have hagree : EdgesAgree .slt (.ofInt 0 32) ⟨2⟩
      [(.ofInt (-1) 32, ⟨1⟩), (.ofInt (-2) 32, ⟨1⟩)] ⟨1⟩ := by
    refine ⟨by decide, fun k k' hk hk' => ?_⟩
    simp only [List.mem_pair, Prod.mk.injEq, and_true] at hk hk'
    rcases hk with rfl | rfl <;> rcases hk' with rfl | rfl <;> decide
  refine ⟨p, hp, hresolve, hagree, fun v hbits hv => hright hagree v (fun c hc => ?_) hv⟩
  rcases List.mem_pair.mp hc with rfl | rfl <;> exact hbits.symm

/-- **The verdict of a switch may be wrong.** The comparison with -1 is resolved to true because of
the switch, whose first case to the block is -1, but -2 takes an edge to the block as well. -/
theorem sharedTarget_verdict_wrong : ∃ p, Program.build sharedTarget = .ok p ∧
    p.defect? ⟨1⟩ = .ok none ∧
    let r : Resolver := ⟨p, .basic, .forward [⟨0⟩, ⟨1⟩]⟩
    let q : Question := ⟨⟨3⟩, .eq, .inst ⟨0⟩, .int (-1) 32⟩
    let cases := [(.ofInt (-1) 32, ⟨1⟩), (.ofInt (-2) 32, ⟨1⟩)]
    r.resolve 2 (.inst ⟨3⟩) [] = .ok (some (.const (.ofBool true)), []) ∧ r.Reaches 1 [] q 0 [] ∧
      r.answerAt (r.resolve 1) q 0 [] = .ok (some true, []) ∧
      p.terminatorOp? ⟨0⟩ = .ok (some (.switch (.inst ⟨0⟩) ⟨2⟩ cases)) ∧
      (.ofInt (-2) 32, ⟨1⟩) ∈ cases ∧
      Predicate.eq.evaluate (.ofInt (-2) 32) (.ofInt (-1) 32) = false := by
  obtain ⟨p, hp, hswitch, hasked⟩ := sharedTarget_answers
  obtain ⟨hreach, hat⟩ := hasked _ (List.mem_cons_of_mem _ List.mem_cons_self)
  have hdefect : (do (← Program.build sharedTarget).defect? ⟨1⟩) = .ok none := by decide +kernel
  rw [hp, ok_bind] at hdefect
  exact ⟨p, hp, hdefect, hreach.resolve_eq hat, hreach, hat, hswitch,
    List.mem_cons_of_mem _ List.mem_cons_self, by decide⟩

end Resolver

end ErrorReturns
