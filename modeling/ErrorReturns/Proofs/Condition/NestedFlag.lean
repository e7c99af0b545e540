import ErrorReturns.Proofs.Comparison
import ErrorReturns.Proofs.Condition

/-!
# Flags that are compared again

A comparison gives a flag, and compilers compare flags again: `!f()` becomes `(f() == 0) != 0`, with
the flag extended to an integer in between. Where a block branches on `(x q 0) == c` or
`(x q 0) != c`, the two comparisons are taken together, and the condition that is found is about `x`
itself: for `!=` it has the predicate `q`, and for `==` the inverse one, whatever `c` is.

What this condition says of a value of `x` is what the branch does exactly in two cases
(`Program.nested_flag_agrees_iff`): if `c` is zero, and by chance if `x q 0` holds and `c` is
not the set flag either. For `c = 0`, which is what compilers write, the condition therefore means
the same as the branch for every value of `x`. For `c = 1` it means the opposite
(`Program.flagIsSet_reversed`).
-/

namespace ErrorReturns

open Checked

/-! ## Flags as integers -/

/-- A flag, extended with zeros to a number of bits. -/
def Constant.ofFlag (b : Bool) (bits : Nat) : Constant := ofInt (if b then 1 else 0) bits

@[simp] theorem Constant.value_ofFlag_false (bits : Nat) : (ofFlag false bits).value = 0 := by
  have hzero : Word.wrapSigned bits 0 = 0 := Int.zero_bmod
  simp [ofFlag, ofInt, hzero]

/-- A set flag is not zero at any width, although it may be -1. -/
theorem Constant.value_ofFlag_true_ne_zero (bits : Nat) : (ofFlag true bits).value ≠ 0 := by
  simp only [ofFlag, ofInt, if_true]
  split
  · decide
  · rename_i hbits
    intro hzero
    have hdvd : ((Word.count bits : Nat) : Int) ∣ (1 : Nat) := Int.dvd_of_bmod_eq_zero hzero
    have hone : 2 ^ bits = 1 := Nat.dvd_one.mp (Int.natCast_dvd_natCast.mp hdvd)
    have hnone : bits = 0 := (Nat.pow_eq_one.mp hone).resolve_left (by decide)
    exact hbits (Or.inl hnone)

namespace CheckFinder

/-- **What a nested comparison means.** For a value `v` of `x`, the predicate that is taken for `x`
agrees with the comparison of the flag with `c` exactly if `c` is zero, or if the flag is set and is
not `c`. -/
theorem flagPredicate?_agrees_iff {p q r : Predicate} (h : flagPredicate? p q = some r)
    (c v z : Constant) :
    r.evaluate v z = p.evaluate (.ofFlag (q.evaluate v z) c.bits) c ↔
      c.isZero = true ∨ q.evaluate v z = true ∧ c.value ≠ (Constant.ofFlag true c.bits).value := by
  have hclear := Constant.value_ofFlag_false c.bits
  have hset := Constant.value_ofFlag_true_ne_zero c.bits
  cases p with
  | eq =>
    obtain rfl := Option.some.inj h
    rw [Predicate.evaluate_inverse]
    cases q.evaluate v z <;>
      simp [Predicate.evaluate, Predicate.isUnsigned, Predicate.onInts, Constant.isZero, hclear] <;>
      omega
  | ne =>
    obtain rfl := Option.some.inj h
    cases q.evaluate v z <;>
      simp [Predicate.evaluate, Predicate.isUnsigned, Predicate.onInts, Constant.isZero, hclear] <;>
      omega
  | _ => cases h

variable {s : CheckFinder}

variable (s) in
/-- A condition whose origin is a comparison is the one that this comparison expresses. -/
def Expressed (cond : Condition) : Prop :=
  ∀ pred lhs rhs, s.program.op cond.origin = .ok (.cmp pred lhs rhs) →
    ∃ found, s.ofComparison cond.origin cond.isFromBranch pred lhs rhs = .ok (.conditions found) ∧
      cond ∈ found

/-- The condition of a flag is expressed by the comparison that computes the flag. -/
theorem ensures_expressed_ofFlag (v : Value) (fromBranch : Bool) :
    Ensures (Contribution.All s.Expressed) (s.ofFlag v fromBranch) := by
  refine (ensures_eq _).bind fun op? hop => ?_
  split
  case h_1 origin pred lhs rhs =>
    have horigin : Ensures (Contribution.All fun cond => cond.origin = origin ∧
        cond.isFromBranch = fromBranch) (s.ofComparison origin fromBranch pred lhs rhs) :=
      ensures_ofComparison (fun _ _ _ => ⟨rfl, rfl⟩) pred lhs rhs
    refine horigin.and_eq.imp fun contribution ⟨hall, heq⟩ => ?_
    cases contribution with
    | stop => trivial
    | conditions found =>
      intro cond hcond pred' lhs' rhs' hop'
      obtain ⟨rfl, rfl⟩ := hall cond hcond
      obtain ⟨op, hop, hsome⟩ := bind_eq_ok_iff.mp hop
      obtain rfl := Option.some.inj (Except.ok.inj hsome)
      obtain ⟨rfl, rfl, rfl⟩ := Operation.cmp.inj (Except.ok.inj (hop.symm.trans hop'))
      exact ⟨found, heq, hcond⟩
  case h_2 => exact meets_pure fun _ hcond => absurd hcond List.not_mem_nil

/-- Every condition of a block is expressed by its origin. -/
theorem ensures_expressed :
    Ensures (fun found => ∀ cond ∈ found, s.Expressed cond) s.conditions := by
  refine ensures_conditions (fun last v default cases _ hop => ?_) fun block _ i _ => ?_
  · have hnone : ∀ cond : Condition, cond.origin = last → s.Expressed cond := by
      rintro cond rfl pred lhs rhs hcmp
      cases hop.symm.trans hcmp
    exact ensures_ofSwitch (fun _ _ _ => hnone _ rfl) fun _ => hnone _ rfl
  · refine (ensures_eq _).bind fun op _ => ?_
    split
    · exact ensures_expressed_ofFlag _ false
    · exact ensures_expressed_ofFlag _ false
    · exact ensures_expressed_ofFlag _ true
    · exact meets_pure fun _ hcond => absurd hcond List.not_mem_nil

/-- **What the comparison of a flag expresses**: if anything at all, one condition on what the flag
compares with zero. -/
theorem of_ofComparison_flag {n origin : InstId} {fromBranch : Bool} {pred q : Predicate}
    {rhs x zero : Value} {flag : CheckedValue} (hflag : s.checkedValue? n = .ok (some flag))
    (hop : s.program.opOf? flag.value = .ok (some (.cmp q x zero))) {found : List Condition}
    (h : s.ofComparison origin fromBranch pred (.inst n) rhs = .ok (.conditions found)) :
    ∃ z i checked r, zero = .const z ∧ z.isZero = true ∧ x = .inst i ∧
      s.checkedValue? i = .ok (some checked) ∧ flagPredicate? pred q = some r ∧
      found = [.comparison checked r zero origin fromBranch] := by
  -- the flag is itself a comparison; each test on the way that fails ends the search, which `h` has
  -- still going on
  simp only [ofComparison, Value.inst?, hflag, ok_bind, hop] at h
  split at h
  · cases h
  · rename_i hzero
    cases zero with
    | const z =>
      have hz : z.isZero = true := by simpa [Value.const?] using hzero
      cases x with
      | inst i =>
        obtain ⟨checked?, hchecked, h⟩ := bind_eq_ok_iff.mp h
        cases checked? with
        | none => cases h
        | some checked =>
          cases hr : flagPredicate? pred q with
          | none =>
            rw [hr] at h
            cases h
          | some r =>
            rw [hr] at h
            refine ⟨z, i, checked, r, rfl, hz, rfl, hchecked, rfl, ?_⟩
            exact (Contribution.conditions.inj (Except.ok.inj h)).symm
      | _ => cases h
    | _ => exact absurd rfl hzero

end CheckFinder

namespace Program

/-- **When the condition on a nested comparison means the same as the branch.** The comparison at
`origin` compares with `c` the result of an instruction that comes from a comparison `x q zero`. A
condition found for it compares what `x` comes from with the same constant zero. For a value of `x`
it agrees with the comparison at `origin`, where the flag `x q zero` is extended to the width of
`c`, exactly if `c` is zero, or the flag is set and is not `c`. -/
theorem nested_flag_agrees_iff {p : Program} {mayAlias : AliasOracle} {b : BlockId}
    {found : List Condition} (h : p.conditionsOfBlock mayAlias b = .ok found)
    {origin n : InstId} {pred : Predicate} {c : Constant}
    (hcmp : p.op origin = .ok (.cmp pred (.inst n) (.const c)))
    {flag : CheckedValue} (hflag : CheckFinder.checkedValue? ⟨p, mayAlias, b⟩ n = .ok (some flag))
    {q : Predicate} {x zero : Value} (hop : p.opOf? flag.value = .ok (some (.cmp q x zero)))
    {call : CheckedValue} {r : Predicate} {rhs : Value} {fromBranch : Bool}
    (hcond : .comparison call r rhs origin fromBranch ∈ found) :
    (pred = .eq ∨ pred = .ne) ∧ ∃ z i, zero = .const z ∧ z.isZero = true ∧ rhs = zero ∧
      x = .inst i ∧ CheckFinder.checkedValue? ⟨p, mayAlias, b⟩ i = .ok (some call) ∧
      ∀ v : Constant, r.evaluate v z = pred.evaluate (.ofFlag (q.evaluate v z) c.bits) c ↔
        c.isZero = true ∨
          q.evaluate v z = true ∧ c.value ≠ (Constant.ofFlag true c.bits).value := by
  obtain ⟨expressed, hexpressed, hmem⟩ :=
    CheckFinder.ensures_expressed.of_eq_ok h _ hcond _ _ _ hcmp
  obtain ⟨z, i, checked, r', rfl, hz, rfl, hchecked, hr, rfl⟩ :=
    CheckFinder.of_ofComparison_flag hflag hop hexpressed
  obtain ⟨rfl, rfl, rfl, -, -⟩ := Condition.comparison.inj (List.mem_singleton.mp hmem)
  refine ⟨?_, z, i, rfl, hz, rfl, rfl, hchecked,
    fun v => CheckFinder.flagPredicate?_agrees_iff hr c v z⟩
  cases pred with
  | eq => exact .inl rfl
  | ne => exact .inr rfl
  | _ => cases hr

/-- `user` calls `source` and branches on whether the flag `source() < 0`, extended to an integer,
equals `c`. -/
def flagCompared (c : Int) : List Directive :=
  [.module "m", .declare ⟨0⟩ "source" [] (.int 32), .declare ⟨0⟩ "user" [] (.int 32),
    .define ⟨1⟩ [.block, .block, .block,
      .moveTo ⟨0⟩, .call ⟨0⟩ [], .cmp .slt (.inst ⟨0⟩) (.int 0 32),
      .cast .zext (.inst ⟨1⟩) (.int 32), .cmp .eq (.inst ⟨2⟩) (.int c 32),
      .branch (.inst ⟨3⟩) ⟨1⟩ ⟨2⟩,
      .moveTo ⟨1⟩, .ret (some (.int (-1) 32)), .moveTo ⟨2⟩, .ret (some (.int 0 32))]]

/-- The comparison of `flagCompared` with zero, and the inverse one for its branch. -/
def flagConditions : List Condition :=
  [.comparison ⟨.inst ⟨0⟩, 0⟩ .slt (.int 0 32) ⟨1⟩ false,
    .comparison ⟨.inst ⟨0⟩, 0⟩ .sge (.int 0 32) ⟨3⟩ true]

-- The same conditions are found for both flags.
theorem exists_build_flagCompared {c : Int} (hc : c = 0 ∨ c = 1) :
    ∃ p, Program.build (flagCompared c) = .ok p ∧ p.defect? ⟨1⟩ = .ok none ∧
      p.conditionsOfBlock .basic ⟨0⟩ = .ok flagConditions ∧
      p.op ⟨3⟩ = .ok (.cmp .eq (.inst ⟨2⟩) (.int c 32)) ∧
      CheckFinder.checkedValue? ⟨p, .basic, ⟨0⟩⟩ ⟨2⟩ = .ok (some ⟨.inst ⟨1⟩, 0⟩) ∧
      p.opOf? (.inst ⟨1⟩) = .ok (some (.cmp .slt (.inst ⟨0⟩) (.int 0 32))) := by
  rcases hc with rfl | rfl <;> decide +kernel

/-- Where `user` branches on the clear flag, the condition `source() >= 0` is what decides the
branch. -/
theorem flagCompared_zero_agrees : ∃ p, Program.build (flagCompared 0) = .ok p ∧
    p.conditionsOfBlock .basic ⟨0⟩ = .ok flagConditions ∧
    p.op ⟨3⟩ = .ok (.cmp .eq (.inst ⟨2⟩) (.int 0 32)) ∧
    CheckFinder.checkedValue? ⟨p, .basic, ⟨0⟩⟩ ⟨2⟩ = .ok (some ⟨.inst ⟨1⟩, 0⟩) ∧
    p.opOf? (.inst ⟨1⟩) = .ok (some (.cmp .slt (.inst ⟨0⟩) (.int 0 32))) ∧
    .comparison ⟨.inst ⟨0⟩, 0⟩ .sge (.int 0 32) ⟨3⟩ true ∈ flagConditions ∧
    ∀ v : Constant, Predicate.sge.evaluate v (.ofInt 0 32) = Predicate.eq.evaluate
      (.ofFlag (Predicate.slt.evaluate v (.ofInt 0 32)) 32) (.ofInt 0 32) := by
  obtain ⟨p, hp, -, hfound, hcmp, hflag, hnested⟩ := exists_build_flagCompared (.inl rfl)
  have hcond : .comparison ⟨.inst ⟨0⟩, 0⟩ .sge (.int 0 32) ⟨3⟩ true ∈ flagConditions := by decide
  obtain ⟨-, z, i, hz, -, -, -, -, hagrees⟩ :=
    nested_flag_agrees_iff hfound hcmp hflag hnested hcond
  obtain rfl := Value.const.inj hz
  exact ⟨p, hp, hfound, hcmp, hflag, hnested, hcond, fun v => (hagrees v).mpr (.inl rfl)⟩

/-- **The condition of a branch on the set flag is reversed.** Where `user` branches on the set
flag, the condition that is found is the same `source() >= 0`, and it holds for exactly the results
for which control goes the other way. A result of `-1` leads to the first way out. -/
theorem flagIsSet_reversed : ∃ p, Program.build (flagCompared 1) = .ok p ∧
    p.defect? ⟨1⟩ = .ok none ∧ p.conditionsOfBlock .basic ⟨0⟩ = .ok flagConditions ∧
    p.op ⟨3⟩ = .ok (.cmp .eq (.inst ⟨2⟩) (.int 1 32)) ∧
    .comparison ⟨.inst ⟨0⟩, 0⟩ .sge (.int 0 32) ⟨3⟩ true ∈ flagConditions ∧
    (∀ v : Constant, Predicate.sge.evaluate v (.ofInt 0 32) = !Predicate.eq.evaluate
      (.ofFlag (Predicate.slt.evaluate v (.ofInt 0 32)) 32) (.ofInt 1 32)) ∧
    Predicate.eq.evaluate (.ofFlag (Predicate.slt.evaluate (.ofInt (-1) 32) (.ofInt 0 32)) 32)
      (.ofInt 1 32) = true := by
  obtain ⟨p, hp, hdefect, hfound, hcmp, -⟩ := exists_build_flagCompared (.inr rfl)
  refine ⟨p, hp, hdefect, hfound, hcmp, by decide, fun v => ?_, by decide⟩
  rw [show Predicate.sge = Predicate.slt.inverse from rfl, Predicate.evaluate_inverse]
  cases Predicate.slt.evaluate v (.ofInt 0 32) <;> decide

end Program

end ErrorReturns
