import ErrorReturns.Proofs.Program.Address
import ErrorReturns.Proofs.Summary.CommonSubsequence
import ErrorReturns.Proofs.Summary.Inside

/-!
# Comparing effects in either order

Whether two effects correspond should not depend on which of them comes first, and for all but one
kind of pair it does not (`EffectMatcher.corresponds_comm_iff`). The exception are stores. Two
stores are compared by asking whether their addresses may be the same, and whether both are inlined,
but only if the *first* address is a result or a parameter; a constant address is compared as it
stands. Stores to a constant address and to another one are therefore `EffectMatcher.Lopsided` if
anything else speaks for their being the same: they correspond in the one order and not in the
other.

Summaries without lopsided stores may be compared in either order. What they have in common is then
a longest common subsequence of the two, whichever is the longer one
(`EffectMatcher.compared_in_either_order`).
-/

namespace ErrorReturns

open Checked CommonSubsequence

/-! ## Symmetric oracles -/

/-- **A symmetric oracle** gives the same answer for two operands of the program in either order. -/
def AliasOracle.Symmetric (mayAlias : AliasOracle) (p : Program) : Prop :=
  ∀ a b, p.Has a → p.Has b → mayAlias p a b = mayAlias p b a

/-- Objects and offsets are compared in the same way in either order. -/
theorem AliasOracle.symmetric_basic {p : Program} (hp : p.Inside) : basic.Symmetric p := by
  intro a b ha hb
  obtain ⟨answer, hanswer⟩ := answers_basic hp a b ha hb
  rw [hanswer, basic_comm hanswer]

namespace EffectMatcher

variable {m : EffectMatcher}

/-! ## Pairs of effects -/

/-- How two tested values are compared, given what they are. -/
theorem sameTested_eq {a b : Value} {gepA gepB callA callB : Bool} (hgepA : m.isGep a = .ok gepA)
    (hgepB : m.isGep b = .ok gepB) (hcallA : m.program.isCall a = .ok callA)
    (hcallB : m.program.isCall b = .ok callB) :
    m.sameTested a b = .ok (!(gepA && gepB) && (a == b || callA && callB &&
      ((m.graph.calleesOf? a).isSome && m.graph.calleesOf? a == m.graph.calleesOf? b))) := by
  unfold sameTested
  simp only [hgepA, hgepB, hcallA, hcallB, ok_bind, pure_eq_ok]
  by_cases hab : a = b
  · cases gepA <;> cases gepB <;> simp [hab]
  · cases m.graph.calleesOf? a <;> cases m.graph.calleesOf? b <;> cases gepA <;> cases gepB <;>
      cases callA <;> cases callB <;> simp [hab]

/-- Tested values are compared in either order. -/
theorem sameTested_comm {a b : Value} (ha : m.program.Has a) (hb : m.program.Has b) :
    m.sameTested a b = m.sameTested b a := by
  obtain ⟨gepA, hgepA, -⟩ := (meets_isGep ha).exists_eq_ok
  obtain ⟨gepB, hgepB, -⟩ := (meets_isGep hb).exists_eq_ok
  obtain ⟨callA, hcallA, -⟩ := (Program.meets_isCall ha).exists_eq_ok
  obtain ⟨callB, hcallB, -⟩ := (Program.meets_isCall hb).exists_eq_ok
  have htargets : ((m.graph.calleesOf? a).isSome && m.graph.calleesOf? a == m.graph.calleesOf? b) =
      ((m.graph.calleesOf? b).isSome && m.graph.calleesOf? b == m.graph.calleesOf? a) := by
    by_cases heq : m.graph.calleesOf? a = m.graph.calleesOf? b
    · rw [heq]
    · rw [beq_false_of_ne heq, beq_false_of_ne (Ne.symm heq), Bool.and_false, Bool.and_false]
  rw [sameTested_eq hgepA hgepB hcallA hcallB, sameTested_eq hgepB hgepA hcallB hcallA, htargets,
    Bool.and_comm gepA, Bool.and_comm callA, BEq.comm (a := a)]

/-- So are returned ones, written or resolved. -/
theorem sameReturn_comm {writtenA writtenB resolvedA resolvedB : Option Value}
    (ha : ∀ v ∈ resolvedA, m.program.Has v) (hb : ∀ v ∈ resolvedB, m.program.Has v) :
    m.sameReturn writtenA writtenB resolvedA resolvedB =
      m.sameReturn writtenB writtenA resolvedB resolvedA := by
  cases resolvedA with
  | none =>
    cases resolvedB with
    | none => exact congrArg Except.ok BEq.comm
    | some b => rfl
  | some a =>
    cases resolvedB with
    | none => rfl
    | some b =>
      obtain ⟨callA, hcallA, -⟩ := (Program.meets_isCall (ha a rfl)).exists_eq_ok
      obtain ⟨callB, hcallB, -⟩ := (Program.meets_isCall (hb b rfl)).exists_eq_ok
      simp only [sameReturn, hcallA, hcallB, ok_bind]
      rw [Bool.and_comm callA callB, Bool.or_comm, BEq.comm (a := writtenA), BEq.comm (a := a)]

/-- And places that instructions were inlined from. -/
theorem bothInlined_comm {a b : InstId} (ha : m.program.HasInst a) (hb : m.program.HasInst b) :
    m.bothInlined a b = m.bothInlined b a := by
  obtain ⟨x, hx, -⟩ := (Program.meets_inst ha).exists_eq_ok
  obtain ⟨y, hy, -⟩ := (Program.meets_inst hb).exists_eq_ok
  simp only [bothInlined, hx, hy, ok_bind]
  cases x.loc with
  | none => cases y.loc <;> rfl
  | some locA =>
    cases y.loc with
    | none => rfl
    | some locB =>
      refine congrArg Except.ok ?_
      ac_rfl

/-- A constant address is compared as it stands, any other one by the oracle. -/
theorem sameStore_eq {a b : Value} {storeA storeB : InstId} {aliased inlined : Bool}
    (halias : m.mayAlias m.program a b = .ok aliased)
    (hinlined : m.bothInlined storeA storeB = .ok inlined) :
    m.sameStore a b storeA storeB = .ok (if a.isConstant then a == b else aliased || inlined) := by
  have hasked : (do
      if ← m.mayAlias m.program a b then return true
      m.bothInlined storeA storeB) = (.ok (aliased || inlined) : Checked Bool) := by
    rw [halias, ok_bind, hinlined]
    cases aliased <;> rfl
  cases a with
  | inst _ | arg _ _ => exact hasked
  | _ => rfl

variable (m) in
/-- **Lopsided stores**: one address is a constant and the other one is not, and they may be the
same or both stores are inlined. -/
def Lopsided : Effect → Effect → Prop
  | .store (some a) storeA, .store (some b) storeB => a.isConstant ≠ b.isConstant ∧
      (m.mayAlias m.program a b = .ok true ∨ m.bothInlined storeA storeB = .ok true)
  | _, _ => False

/-- **Effects correspond in either order**, except for lopsided stores. -/
theorem corresponds_comm_iff (halias : m.mayAlias.Answers m.program)
    (hsymm : m.mayAlias.Symmetric m.program) {a b : Effect} (ha : a.Within m.program)
    (hb : b.Within m.program) :
    m.corresponds a b = m.corresponds b a ↔ ¬ m.Lopsided a b := by
  fun_cases EffectMatcher.corresponds m a b with
  | case1 call call' => exact iff_of_true (congrArg Except.ok BEq.comm) not_false
  | case2 a branchA pred b branchB =>
    refine iff_of_true ?_ not_false
    rw [sameTested_comm (ha.1 a rfl) (hb.1 b rfl), corresponds, if_pos rfl]
  | case3 predA a branchA predB b branchB hpred =>
    refine iff_of_true ?_ not_false
    rw [corresponds, if_neg (Ne.symm hpred)]
  | case4 writtenA resolvedA writtenB resolvedB =>
    exact iff_of_true (sameReturn_comm ha.2 hb.2) not_false
  | case5 a storeA b storeB =>
    obtain ⟨aliased, haliased⟩ := halias a b (ha.1 a rfl) (hb.1 b rfl)
    obtain ⟨inlined, hinlined, -⟩ := (meets_bothInlined ha.2 hb.2).exists_eq_ok
    have haliased' := (hsymm a b (ha.1 a rfl) (hb.1 b rfl)).symm.trans haliased
    have hinlined' := (bothInlined_comm ha.2 hb.2).symm.trans hinlined
    rw [corresponds, Lopsided, sameStore_eq haliased hinlined, sameStore_eq haliased' hinlined',
      haliased, hinlined]
    have hne : a.isConstant ≠ b.isConstant → (a == b) = false :=
      fun h => beq_false_of_ne fun heq => h (congrArg Value.isConstant heq)
    cases hA : a.isConstant <;> cases hB : b.isConstant
    case false.false => simp
    case true.true => simp [BEq.comm (a := b)]
    case false.true => simp [BEq.comm (a := b), hne (by simp [hA, hB])]
    case true.false => simp [hne (by simp [hA, hB])]
  | case6 => exact iff_of_true rfl not_false
  | case7 => exact iff_of_true rfl not_false
  | case8 a b hcall hbranch hret hstore hswitch hunreachable =>
    -- no rule is for the two in this order, so none is for them in the other one
    fun_cases EffectMatcher.corresponds m b a with
    | case1 => exact (hcall _ _ rfl rfl).elim
    | case2 => exact (hbranch _ _ _ _ _ _ rfl rfl).elim
    | case3 => exact (hbranch _ _ _ _ _ _ rfl rfl).elim
    | case4 => exact (hret _ _ _ _ rfl rfl).elim
    | case5 => exact (hstore _ _ _ _ rfl rfl).elim
    | case6 => exact (hswitch rfl rfl).elim
    | case7 => exact (hunreachable rfl rfl).elim
    | case8 =>
      refine iff_of_true rfl ?_
      intro hlop
      unfold Lopsided at hlop
      split at hlop
      · exact hstore _ _ _ _ rfl rfl
      · exact hlop

/-! ## Pairs of summaries -/

variable (m) in
/-- Whether two effects are found to correspond. -/
def found (a b : Effect) : Bool := (m.corresponds a b).toOption == some true

theorem found_iff {a b : Effect} : m.found a b = true ↔ m.corresponds a b = .ok true := by
  unfold found
  cases m.corresponds a b with
  | error e => exact iff_of_false Bool.false_ne_true nofun
  | ok answer => simp [Except.toOption]

theorem corresponds_eq_found {a b : Effect} (h : ∃ answer, m.corresponds a b = .ok answer) :
    m.corresponds a b = .ok (m.found a b) := by
  obtain ⟨answer, hanswer⟩ := h
  rw [found, hanswer]
  cases answer <;> rfl

theorem table_eq {as bs : List Effect}
    (h : ∀ a ∈ as, ∀ b ∈ bs, ∃ answer, m.corresponds a b = .ok answer) :
    m.table as bs = .ok (as.map fun a => bs.map (m.found a)) := by
  rw [table, mapM_eq_ok_iff, List.map_map]
  refine List.map_congr_left fun a ha => mapM_eq_ok_iff.mpr ?_
  rw [List.map_map]
  exact List.map_congr_left fun b hb => corresponds_eq_found (h a ha b hb)

section Common

variable (halias : m.mayAlias.Answers m.program)
include halias

theorem exists_corresponds {a b : Effect} (ha : a.Within m.program) (hb : b.Within m.program) :
    ∃ answer, m.corresponds a b = .ok answer := by
  obtain ⟨answer, hanswer, -⟩ := (meets_corresponds halias ha hb).exists_eq_ok
  exact ⟨answer, hanswer⟩

variable {as bs : List Effect} (ha : ∀ a ∈ as, a.Within m.program)
  (hb : ∀ b ∈ bs, b.Within m.program)
include ha hb

/-- If two summaries correspond in either order, what they have in common is a longest common
subsequence, whichever of them is the longer one. -/
theorem exists_common (hcomm : ∀ a ∈ as, ∀ b ∈ bs, m.corresponds a b = m.corresponds b a) :
    ∃ n, m.common as bs = .ok (n, ratio n as.length bs.length) ∧
      IsLongest (fun a b => m.corresponds a b = .ok true) as bs n := by
  by_cases hlength : as.length < bs.length
  · have htable : m.table bs as = .ok _ :=
      table_eq fun b hmem a hmem' => exists_corresponds halias (hb b hmem) (ha a hmem')
    refine ⟨lengthOfTable as.length (bs.map fun b => as.map (m.found b)), ?_, ?_⟩
    · rw [common, arrange, if_pos hlength]
      dsimp only
      rw [htable]
      rfl
    · refine (isLongest_lengthOfTable m.found bs as).flip.congr fun a hmem b hmem' => ?_
      rw [found_iff, hcomm a hmem b hmem']
  · have htable : m.table as bs = .ok _ :=
      table_eq fun a hmem b hmem' => exists_corresponds halias (ha a hmem) (hb b hmem')
    refine ⟨lengthOfTable bs.length (as.map fun a => bs.map (m.found a)), ?_, ?_⟩
    · rw [common, arrange, if_neg hlength]
      dsimp only
      rw [htable]
      rfl
    · exact (isLongest_lengthOfTable m.found as bs).congr fun a _ b _ => found_iff

end Common

/-- **Effects and summaries are compared in either order.** For an oracle that answers and is
symmetric, two effects of the program correspond in both orders or in none, unless they are lopsided
stores. Two summaries without lopsided stores have the same in common in either order, namely a
longest common subsequence of the two, whichever is the longer one. -/
theorem compared_in_either_order (halias : m.mayAlias.Answers m.program)
    (hsymm : m.mayAlias.Symmetric m.program) :
    (∀ a b : Effect, a.Within m.program → b.Within m.program →
      ∃ answer answer', m.corresponds a b = .ok answer ∧ m.corresponds b a = .ok answer' ∧
        (answer = answer' ↔ ¬ m.Lopsided a b)) ∧
    ∀ as bs : List Effect, (∀ a ∈ as, a.Within m.program) → (∀ b ∈ bs, b.Within m.program) →
      (∀ a ∈ as, ∀ b ∈ bs, ¬ m.Lopsided a b) →
      ∃ n, m.common as bs = .ok (n, ratio n as.length bs.length) ∧
        m.common bs as = m.common as bs ∧
        IsLongest (fun a b => m.corresponds a b = .ok true) as bs n := by
  constructor
  · intro a b ha hb
    obtain ⟨answer, hanswer⟩ := exists_corresponds halias ha hb
    obtain ⟨answer', hanswer'⟩ := exists_corresponds halias hb ha
    refine ⟨answer, answer', hanswer, hanswer', ?_⟩
    rw [← corresponds_comm_iff halias hsymm ha hb, hanswer, hanswer', Except.ok.injEq]
  · intro as bs ha hb hlop
    have hcomm : ∀ a ∈ as, ∀ b ∈ bs, m.corresponds a b = m.corresponds b a := fun a hmem b hmem' =>
      (corresponds_comm_iff halias hsymm (ha a hmem) (hb b hmem')).mpr (hlop a hmem b hmem')
    obtain ⟨n, hn, hlongest⟩ := exists_common halias ha hb hcomm
    obtain ⟨n', hn', hlongest'⟩ :=
      exists_common halias hb ha fun b hmem a hmem' => (hcomm a hmem' b hmem).symm
    have hsame : IsLongest (fun a b => m.corresponds a b = .ok true) as bs n' :=
      hlongest'.flip.congr fun a hmem b hmem' => by rw [hcomm a hmem b hmem']
    obtain rfl : n = n' := IsGreatest.unique hlongest hsame
    refine ⟨n, hn, ?_, hlongest⟩
    rw [hn, hn', ratio, ratio, Nat.min_comm]

/-- On one side of a check `user` stores through its parameter and on the other side to a global
variable, both times in inlined code, and returns the same. -/
def storedApart : List Directive :=
  let inlined (line : Nat) : SourceLoc := ⟨⟨"fail.h", line, 3⟩, [⟨"user.c", 20, 5⟩]⟩
  [.module "m", .declare ⟨0⟩ "source" [] (.int 32), .declare ⟨0⟩ "user" [.ptr] (.int 32),
    .define ⟨1⟩ [.block, .block, .block,
      .moveTo ⟨0⟩, .call ⟨0⟩ [], .cmp .slt (.inst ⟨0⟩) (.int 0 32), .branch (.inst ⟨1⟩) ⟨1⟩ ⟨2⟩,
      .moveTo ⟨1⟩, .setLoc (some (inlined 4)), .store (.arg ⟨1⟩ 0) (.int 1 32),
      .ret (some (.int (-1) 32)),
      .moveTo ⟨2⟩, .setLoc (some (inlined 9)), .store (.global 0) (.int 1 32),
      .ret (some (.int (-1) 32))]]

/-- The effects of the side that stores through the parameter. -/
def storedThrough : List Effect :=
  [.store (some (.arg ⟨1⟩ 0)) ⟨3⟩, .ret (some (.int (-1) 32)) (some (.int (-1) 32))]

/-- The effects of the side that stores to the global variable. -/
def storedGlobally : List Effect :=
  [.store (some (.global 0)) ⟨5⟩, .ret (some (.int (-1) 32)) (some (.int (-1) 32))]

/-- The two stores of `storedApart` were inlined, and the oracle answers in either order. -/
theorem exists_build_storedApart : ∃ p g, Program.build storedApart = .ok p ∧
    CallGraph.ofDirectCalls p = .ok g ∧ AliasOracle.basic.Answers p ∧
    AliasOracle.basic.Symmetric p ∧ (∀ a ∈ storedThrough, a.Within p) ∧
    (∀ a ∈ storedGlobally, a.Within p) ∧ bothInlined ⟨p, g, .basic⟩ ⟨3⟩ ⟨5⟩ = .ok true := by
  obtain ⟨p, hp, g, hg, hinlined, hsize⟩ : ∃ p, Program.build storedApart = .ok p ∧
      ∃ g, CallGraph.ofDirectCalls p = .ok g ∧ bothInlined ⟨p, g, .basic⟩ ⟨3⟩ ⟨5⟩ = .ok true ∧
      p.insts.size = 7 := by decide +kernel
  have hinst : ∀ n < 7, p.HasInst ⟨n⟩ := fun n hn => by rwa [Program.HasInst, hsize]
  have hinside := Program.inside_of_build hp
  refine ⟨p, g, hp, hg, AliasOracle.answers_basic hinside, AliasOracle.symmetric_basic hinside, ?_,
    ?_, hinlined⟩
  · simp [storedThrough, Effect.Within, Program.Has, Value.int, hinst 3 (by decide)]
  · simp [storedGlobally, Effect.Within, Program.Has, Value.int, hinst 5 (by decide)]

/-- The two stores are lopsided and correspond in one order only. What the first side and the same
effects the other way round have in common does not depend on their order. -/
theorem storedApart_compared : ∃ p g, Program.build storedApart = .ok p ∧
    CallGraph.ofDirectCalls p = .ok g ∧
    let m : EffectMatcher := ⟨p, g, .basic⟩
    m.mayAlias.Answers p ∧ m.mayAlias.Symmetric p ∧
    (∃ a ∈ storedThrough, ∃ b ∈ storedGlobally, a.Within p ∧ b.Within p ∧ m.Lopsided a b ∧
      ∃ answer answer', m.corresponds a b = .ok answer ∧ m.corresponds b a = .ok answer' ∧
        answer ≠ answer') ∧
    (∀ a ∈ storedThrough, a.Within p) ∧
    (∀ a ∈ storedThrough, ∀ b ∈ storedThrough.reverse, ¬ m.Lopsided a b) ∧
    m.common storedThrough.reverse storedThrough =
      m.common storedThrough storedThrough.reverse := by
  obtain ⟨p, g, hp, hg, halias, hsymm, hthrough, hglobally, hinlined⟩ := exists_build_storedApart
  obtain ⟨heffects, hsummaries⟩ :=
    compared_in_either_order (m := ⟨p, g, .basic⟩) halias hsymm
  have hlop : Lopsided ⟨p, g, .basic⟩ (.store (some (.arg ⟨1⟩ 0)) ⟨3⟩)
      (.store (some (.global 0)) ⟨5⟩) := ⟨by decide, Or.inr hinlined⟩
  obtain ⟨answer, answer', hanswer, hanswer', hiff⟩ := heffects _ _
    (hthrough _ List.mem_cons_self) (hglobally _ List.mem_cons_self)
  have hnone : ∀ a ∈ storedThrough, ∀ b ∈ storedThrough.reverse,
      ¬ Lopsided ⟨p, g, .basic⟩ a b := by
    simp [storedThrough, Lopsided]
  obtain ⟨n, -, hcommon, -⟩ := hsummaries storedThrough storedThrough.reverse hthrough
    (fun a ha => hthrough a (List.mem_reverse.mp ha)) hnone
  exact ⟨p, g, hp, hg, halias, hsymm, ⟨_, List.mem_cons_self, _, List.mem_cons_self,
    hthrough _ List.mem_cons_self, hglobally _ List.mem_cons_self, hlop, answer, answer', hanswer,
    hanswer', fun heq => hiff.mp heq hlop⟩, hthrough, hnone, hcommon⟩

/-- **Summaries may match in one order only.** The two stores correspond if the one through the
parameter comes first, and then the two sides of the check have both effects in common. In the other
order they have only the return in common. -/
theorem storedApart_in_one_order : ∃ p g, Program.build storedApart = .ok p ∧
    CallGraph.ofDirectCalls p = .ok g ∧ p.defect? ⟨1⟩ = .ok none ∧
    let m : EffectMatcher := ⟨p, g, .basic⟩
    m.mayAlias.Symmetric p ∧
    (∃ a ∈ storedThrough, ∃ b ∈ storedGlobally,
      m.corresponds a b = .ok true ∧ m.corresponds b a = .ok false) ∧
    ∃ first second common reversed,
    p.summarizeResolved g .basic [⟨0⟩, ⟨1⟩] = .ok first ∧ first.effects = storedThrough ∧
    p.summarizeResolved g .basic [⟨0⟩, ⟨2⟩] = .ok second ∧ second.effects = storedGlobally ∧
    m.common storedThrough storedGlobally = .ok common ∧ common.1 = 2 ∧
    m.common storedGlobally storedThrough = .ok reversed ∧ reversed.1 = 1 := by
  obtain ⟨p, g, hp, hg, -, hsymm, -⟩ := exists_build_storedApart
  obtain ⟨p', hp', g', hg', first, hfirst, second, hsecond, hdefect, heffects, heffects'⟩ :
      ∃ p, Program.build storedApart = .ok p ∧ ∃ g, CallGraph.ofDirectCalls p = .ok g ∧
      ∃ first, p.summarizeResolved g .basic [⟨0⟩, ⟨1⟩] = .ok first ∧
      ∃ second, p.summarizeResolved g .basic [⟨0⟩, ⟨2⟩] = .ok second ∧
      p.defect? ⟨1⟩ = .ok none ∧ first.effects = storedThrough ∧
      second.effects = storedGlobally := by
    decide +kernel
  obtain rfl := Except.ok.inj (hp.symm.trans hp')
  obtain rfl := Except.ok.inj (hg.symm.trans hg')
  obtain ⟨p', hp', g', hg', common, hcommon, reversed, hreversed, hanswer, hanswer', htwo, hone⟩ :
      ∃ p, Program.build storedApart = .ok p ∧ ∃ g, CallGraph.ofDirectCalls p = .ok g ∧
      ∃ found, common ⟨p, g, .basic⟩ storedThrough storedGlobally = .ok found ∧
      ∃ reversed, common ⟨p, g, .basic⟩ storedGlobally storedThrough = .ok reversed ∧
      corresponds ⟨p, g, .basic⟩ (.store (some (.arg ⟨1⟩ 0)) ⟨3⟩) (.store (some (.global 0)) ⟨5⟩) =
        .ok true ∧
      corresponds ⟨p, g, .basic⟩ (.store (some (.global 0)) ⟨5⟩) (.store (some (.arg ⟨1⟩ 0)) ⟨3⟩) =
        .ok false ∧ found.1 = 2 ∧ reversed.1 = 1 := by
    decide +kernel
  obtain rfl := Except.ok.inj (hp.symm.trans hp')
  obtain rfl := Except.ok.inj (hg.symm.trans hg')
  exact ⟨p, g, hp, hg, hdefect, hsymm,
    ⟨_, List.mem_cons_self, _, List.mem_cons_self, hanswer, hanswer'⟩, first, second, common,
    reversed, hfirst, heffects, hsecond, heffects', hcommon, htwo, hreversed, hone⟩

end EffectMatcher

end ErrorReturns
