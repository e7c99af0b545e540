import ErrorReturns.Condition
import ErrorReturns.Program.Draft
import ErrorReturns.Proofs.Meets
import ErrorReturns.Proofs.Trace.Decision

/-!
# Where resolutions end

A resolution goes through loads, stores, casts, freezes and phis, and it decides selects and
comparisons where it can. It may end at a value that is not the result of an instruction, at a call,
a stack slot, an address or an extracted field, which are resolved to themselves (`Program.Atomic`),
or at a select or a comparison that it could not decide. Nothing else is ever found
(`Resolver.ensures_final_resolve`), although several rules hand on an operand as it is: whatever
they hand on is of this kind already.

A check looks at the value that its operand is resolved to, or at the aggregate if this is a field
of one. What it accepts as checked is the result of a call or of a comparison.
-/

namespace ErrorReturns

open Checked

namespace Operation

/-- Whether a result is resolved to itself on every slice. -/
def isAtomic : Operation → Bool
  | call _ _ | alloca | gep _ _ | extract _ _ => true
  | _ => false

/-- Whether a resolution may end at a result: selects and comparisons may be left undecided. -/
def isFinal : Operation → Bool
  | select _ _ _ | cmp _ _ _ => true
  | op => op.isAtomic

end Operation

namespace Program

variable (p : Program)

/-- **Values that are resolved to themselves**: those that are not the result of an instruction, and
the results of calls, stack slots, addresses and extracted fields. -/
def Atomic (v : Value) : Prop := ∀ i, v = .inst i → ∃ op, p.op i = .ok op ∧ op.isAtomic = true

/-- **Values in normal form**: those that are resolved to themselves, and results of selects and of
comparisons. -/
def Final (v : Value) : Prop := ∀ i, v = .inst i → ∃ op, p.op i = .ok op ∧ op.isFinal = true

variable {p}

theorem final_inst {i : InstId} {op : Operation} (hop : p.op i = .ok op)
    (hfinal : op.isFinal = true) :
    p.Final (.inst i) := by
  intro j hj
  obtain rfl := Value.inst.inj hj
  exact ⟨op, hop, hfinal⟩

theorem final_of_inst?_eq_none {v : Value} (hv : v.inst? = none) : p.Final v := by
  rintro i rfl
  cases hv

end Program

namespace Resolver

variable {r : Resolver}

/-- A result of a resolution that is in normal form, if there is one. -/
abbrev EndsFinal (r : Resolver) (out : Resolution) : Prop := ∀ w ∈ out.1, r.program.Final w

theorem ensures_final_none (seen : List Value) : Ensures r.EndsFinal (pure (none, seen)) :=
  meets_pure fun _ hw => absurd hw (Option.not_mem_none _)

theorem ensures_final_some {v : Value} (hv : r.program.Final v) (seen : List Value) :
    Ensures r.EndsFinal (pure (some v, seen)) :=
  meets_pure fun _ hw => Option.some.inj hw ▸ hv

/-! ## One level -/

section Step

variable {resolve : Value → List Value → Checked Resolution}

/-- A comparison ends at itself or at a truth value, whatever is found on the way. -/
theorem ensures_final_answer {q : Question} (hq : r.program.Final (.inst q.cmp)) (ns : List Nat)
    (seen : List Value) : Ensures r.EndsFinal (r.answer resolve q ns seen) := by
  induction ns generalizing seen with
  | nil => exact ensures_final_some hq seen
  | cons n rest ih =>
    refine Meets.bind (ensures_eq _) fun answer _ => ?_
    split
    · exact ensures_final_some (Program.final_of_inst?_eq_none rfl) _
    · exact ih _

/-- A comparison that is not decided is resolved to itself, which is final. -/
theorem ensures_final_resolveCmp {cmp : InstId} {pred : Predicate} {lhs rhs : Value}
    (hop : r.program.op cmp = .ok (.cmp pred lhs rhs)) (seen : List Value) :
    Ensures r.EndsFinal (r.resolveCmp resolve cmp pred lhs rhs seen) := by
  have hself : r.program.Final (.inst cmp) := Program.final_inst hop rfl
  refine Meets.bind (ensures_eq _) fun left _ => ?_
  split
  · exact ensures_final_some hself _
  · refine Meets.bind (ensures_eq _) fun right _ => ?_
    split
    · exact ensures_final_some hself _
    · exact Meets.bind (ensures_eq _) fun ns _ => ensures_final_answer hself ns _

variable (hresolve : ∀ v seen, Ensures r.EndsFinal (resolve v seen))
include hresolve

/-- **One level of a resolution** ends in normal form if the levels inside it do. -/
theorem ensures_final_step (v : Value) (seen : List Value) :
    Ensures r.EndsFinal (r.step resolve v seen) := by
  -- a step either hands over to `resolve`, which ends in a final value by assumption, or stops at a
  -- value that is final by its operation
  cases v with
  | inst id =>
    refine Meets.bind (ensures_eq _) fun op hop => ?_
    cases op with
    | load ptr =>
      refine Meets.bind (ensures_eq _) fun stored? _ => ?_
      cases stored? with
      | some stored => exact hresolve stored seen
      | none =>
        refine Meets.bind (ensures_eq _) fun op? hptr => ?_
        split
        · exact hresolve ptr seen
        · obtain ⟨i, rfl, hgep⟩ := Arena.exists_inst_of_opOf? hptr
          exact ensures_final_some (Program.final_inst hgep rfl) seen
        · exact ensures_final_none seen
    | cast kind inner => exact hresolve inner seen
    | freeze inner => exact hresolve inner seen
    | select cond ifTrue ifFalse =>
      refine (hresolve cond seen).bind fun out _ => ?_
      dsimp only
      split
      · exact hresolve _ _
      · exact ensures_final_some (Program.final_inst hop rfl) _
    | cmp pred lhs rhs => exact ensures_final_resolveCmp hop seen
    | phi incoming =>
      dsimp only
      split
      · exact ensures_final_none seen
      · refine Meets.bind (ensures_eq _) fun own _ => ?_
        split
        · exact hresolve _ _
        · exact ensures_final_none _
    | call _ _ | alloca | gep _ _ | extract _ _ =>
      exact ensures_final_some (Program.final_inst hop rfl) seen
    | _ => exact ensures_final_none seen
  | _ => exact ensures_final_some (Program.final_of_inst?_eq_none rfl) seen

end Step

/-! ## Resolutions -/

/-- **A resolution ends in normal form**, to whatever depth it is carried out. -/
theorem ensures_final_resolve (depth : Nat) (v : Value) (seen : List Value) :
    Ensures r.EndsFinal (r.resolve depth v seen) := by
  induction depth generalizing v seen with
  | zero => exact trivial
  | succ depth ih => exact ensures_final_step ih v seen

/-- **A value that stands for itself is resolved to itself.** -/
theorem resolve_of_atomic {v : Value} (hv : r.program.Atomic v) (depth : Nat) (seen : List Value) :
    r.resolve (depth + 1) v seen = .ok (some v, seen) := by
  show r.step (r.resolve depth) v seen = _
  cases v with
  | inst i =>
    obtain ⟨op, hop, hatomic⟩ := hv i rfl
    unfold step
    dsimp only
    rw [hop]
    cases op with
    | call _ _ | alloca | gep _ _ | extract _ _ => rfl
    | _ => cases hatomic
  | _ => rfl

end Resolver

/-! ## Checked values -/

namespace CheckFinder

variable {s : CheckFinder} {checked : CheckedValue}

/-- Whether a checked value is the result of a call or of a comparison. -/
def IsCallOrCmp (s : CheckFinder) (checked : CheckedValue) : Prop :=
  ∃ i op, checked.value = .inst i ∧ s.program.op i = .ok op ∧ (op.isCall = true ∨ op.isCmp = true)

/-- **What a check looks at** along some blocks: the value that its operand is resolved to, or the
aggregate of which this is a field. -/
def LooksAt (s : CheckFinder) (lhs : InstId) (blocks : List BlockId)
    (checked : CheckedValue) : Prop :=
  ∃ found, Resolver.resolveFresh ⟨s.program, s.mayAlias, .backward blocks⟩ (.inst lhs) =
      .ok (some found) ∧
    (checked = ⟨found, 0⟩ ∨ ∃ i aggregate, found = .inst i ∧
      s.program.op i = .ok (.extract aggregate checked.slot) ∧
      Resolver.resolveFresh ⟨s.program, s.mayAlias, .backward blocks⟩ aggregate =
        .ok (some checked.value))

/-- What is settled on is the result of a call or of a comparison. -/
theorem of_settle {v : Value} {slot : Nat} (h : s.settle v slot = .ok (some checked)) :
    checked = ⟨v, slot⟩ ∧ s.IsCallOrCmp checked := by
  obtain ⟨op?, hop, h⟩ := bind_eq_ok_iff.mp h
  have h := Except.ok.inj h
  split at h
  case isFalse => cases h
  case isTrue hcheckable =>
    obtain rfl := Option.some.inj h
    cases op? with
    | none => cases hcheckable
    | some op =>
      obtain ⟨i, hv, hinst⟩ := Arena.exists_inst_of_opOf? hop
      exact ⟨rfl, i, op, hv, hinst, Bool.or_eq_true_iff.mp hcheckable⟩

/-- **A checked value** is what the check looks at, and it is the result of a call or of a
comparison. -/
theorem of_checkedOn {lhs : InstId} {blocks : List BlockId}
    (h : s.checkedOn lhs blocks = .ok (some checked)) :
    s.LooksAt lhs blocks checked ∧ s.IsCallOrCmp checked := by
  obtain ⟨home, -, h⟩ := bind_eq_ok_iff.mp h
  split at h
  case isTrue => cases h
  case isFalse =>
    obtain ⟨found?, hfound, h⟩ := bind_eq_ok_iff.mp h
    cases found? with
    | none => cases h
    | some found =>
      obtain ⟨op?, hop, h⟩ := bind_eq_ok_iff.mp h
      split at h
      case h_1 aggregate index =>
        obtain ⟨i, hi, hinst⟩ := Arena.exists_inst_of_opOf? hop
        obtain ⟨whole?, hwhole, h⟩ := bind_eq_ok_iff.mp h
        cases whole? with
        | none => cases h
        | some whole =>
          obtain ⟨rfl, hkind⟩ := of_settle h
          exact ⟨⟨found, hfound, Or.inr ⟨i, aggregate, hi, hinst, hwhole⟩⟩, hkind⟩
      case h_2 =>
        obtain ⟨rfl, hkind⟩ := of_settle h
        exact ⟨⟨found, hfound, Or.inl rfl⟩, hkind⟩

/-- **Normal form.** For every program, alias oracle and slice, with any values seen before and to
any depth: values that are resolved to themselves are, and a value is only resolved to one in normal
form, which is never the result of a cast, a freeze, a load, a phi, a store, an operation on two
integers or of what ends a block. What a check along some blocks takes for the checked value is what
it looks at, and is the result of a call or of a comparison. -/
theorem resolutions_final_and_checks_of_calls :
    (∀ (r : Resolver) (depth : Nat) (v : Value) (seen : List Value),
      (r.program.Atomic v → r.resolve (depth + 1) v seen = .ok (some v, seen)) ∧
      ∀ w seen', r.resolve depth v seen = .ok (some w, seen') → r.program.Final w) ∧
    ∀ (s : CheckFinder) (lhs : InstId) (blocks : List BlockId) (checked : CheckedValue),
      s.checkedOn lhs blocks = .ok (some checked) →
        s.LooksAt lhs blocks checked ∧ s.IsCallOrCmp checked := by
  refine ⟨fun r depth v seen => ⟨fun hv => Resolver.resolve_of_atomic hv depth seen, ?_⟩, ?_⟩
  · intro w seen' h
    exact (Resolver.ensures_final_resolve depth v seen).of_eq_ok h w rfl
  · exact fun s lhs blocks checked h => of_checkedOn h

/-- `f` stores a field of what `g` returns, and tests it in the next block after it has been loaded,
frozen and cut. -/
def storedField : List Directive :=
  [.module "m", .declare ⟨0⟩ "g" [] (.aggregate [.int 64, .int 64]), .declare ⟨0⟩ "f" [] .void,
    .define ⟨1⟩ [.block, .block, .moveTo ⟨0⟩, .alloca, .call ⟨0⟩ [],
      .extract (.inst ⟨1⟩) 1 (.int 64),
      .store (.inst ⟨0⟩) (.inst ⟨2⟩), .jump ⟨1⟩,
      .moveTo ⟨1⟩, .load (.inst ⟨0⟩) (.int 64), .freeze (.inst ⟨5⟩),
      .cast .trunc (.inst ⟨6⟩) (.int 32), .cmp .slt (.inst ⟨7⟩) (.int 0 32), .ret none]]

/-- The operand of the test is resolved to the field, and the checked value is the call. -/
theorem storedField_final_and_checked : ∃ p seen, Program.build storedField = .ok p ∧
    Resolver.resolve ⟨p, .basic, .backward [⟨1⟩, ⟨0⟩]⟩ 4 (.inst ⟨7⟩) [] =
      .ok (some (.inst ⟨2⟩), seen) ∧ p.Final (.inst ⟨2⟩) ∧
    checkedOn ⟨p, .basic, ⟨1⟩⟩ ⟨7⟩ [⟨1⟩, ⟨0⟩] = .ok (some ⟨.inst ⟨1⟩, 1⟩) ∧
    LooksAt ⟨p, .basic, ⟨1⟩⟩ ⟨7⟩ [⟨1⟩, ⟨0⟩] ⟨.inst ⟨1⟩, 1⟩ ∧
    IsCallOrCmp ⟨p, .basic, ⟨1⟩⟩ ⟨.inst ⟨1⟩, 1⟩ := by
  obtain ⟨p, hp, hfound, hchecked⟩ : ∃ p, Program.build storedField = .ok p ∧
      Resolver.resolve ⟨p, .basic, .backward [⟨1⟩, ⟨0⟩]⟩ 4 (.inst ⟨7⟩) [] =
        .ok (some (.inst ⟨2⟩), []) ∧
      checkedOn ⟨p, .basic, ⟨1⟩⟩ ⟨7⟩ [⟨1⟩, ⟨0⟩] = .ok (some ⟨.inst ⟨1⟩, 1⟩) := by decide +kernel
  obtain ⟨hresolve, hchecks⟩ := resolutions_final_and_checks_of_calls
  exact ⟨p, [], hp, hfound, (hresolve _ _ _ _).2 _ _ hfound, hchecked, hchecks _ _ _ _ hchecked⟩

end CheckFinder

end ErrorReturns
