import ErrorReturns.Proofs.Context.Inside
import ErrorReturns.Summary.Effect

/-!
# Summaries stay in the program

The effects of a path through the program are about instructions and values of the program, and
resolving them along a path keeps it so (`Effect.Within`). Any two of them can be compared.
-/

namespace ErrorReturns

open Checked

variable {p : Program} {F : Fault → Prop}

/-- **An effect in a program**: the values and the instruction that it is about, the program has. -/
def Effect.Within (p : Program) : Effect → Prop
  | .branch _ value i => (∀ v ∈ value, p.Has v) ∧ p.HasInst i
  | .store ptr i => (∀ v ∈ ptr, p.Has v) ∧ p.HasInst i
  | .ret written resolved => (∀ v ∈ written, p.Has v) ∧ ∀ v ∈ resolved, p.Has v
  | _ => True

namespace Program.WellFormed

variable (hp : p.WellFormed)
include hp

/-! ## Effects of a block -/

end Program.WellFormed

/-! ## Resolving and comparing -/

namespace Context.Sound

variable {c : Context} (hc : c.Sound)
include hc

end Context.Sound

namespace EffectMatcher

variable {m : EffectMatcher} (halias : m.mayAlias.Answers m.program)

theorem meets_isGep {v : Value} (hv : m.program.Has v) : Meets F (fun _ => True) (m.isGep v) :=
  (Program.meets_opOf? hv).map fun _ _ => trivial

/-- Whether two tested values are the same is found out for values that exist. -/
theorem meets_sameTested {a b : Value} (ha : m.program.Has a) (hb : m.program.Has b) :
    Meets F (fun _ => True) (m.sameTested a b) := by
  unfold sameTested
  refine (meets_isGep ha).bind fun gepA _ => ?_
  dsimp only
  split
  case' isTrue =>
    refine (meets_isGep hb).bind fun gepB _ => ?_
    split
    case isTrue => exact meets_pure trivial
  -- unless both are addresses, they are compared as values and then as calls
  all_goals
    split
    case isTrue => exact meets_pure trivial
    refine (Program.meets_isCall ha).bind fun callA _ => ?_
    split
    case isTrue =>
      refine (Program.meets_isCall hb).bind fun callB _ => ?_
      (repeat' split) <;> exact meets_pure trivial
    case isFalse => exact meets_pure trivial

theorem meets_sameReturn {writtenA writtenB resolvedA resolvedB : Option Value}
    (ha : ∀ v ∈ resolvedA, m.program.Has v) (hb : ∀ v ∈ resolvedB, m.program.Has v) :
    Meets F (fun _ => True) (m.sameReturn writtenA writtenB resolvedA resolvedB) := by
  unfold sameReturn
  split
  · exact meets_pure trivial
  case h_2 a b =>
    refine (Program.meets_isCall (ha a rfl)).bind fun callA _ => ?_
    refine (Program.meets_isCall (hb b rfl)).bind fun callB _ => ?_
    split
    · exact meets_pure trivial
    · split <;> exact meets_pure trivial
  · exact meets_pure trivial

theorem meets_bothInlined {a b : InstId} (ha : m.program.HasInst a) (hb : m.program.HasInst b) :
    Meets F (fun _ => True) (m.bothInlined a b) := by
  refine (Program.meets_inst ha).bind fun x _ => ?_
  refine (Program.meets_inst hb).bind fun y _ => ?_
  split <;> exact meets_pure trivial

include halias in
theorem meets_sameStore {ptrA ptrB : Value} (ha : m.program.Has ptrA) (hb : m.program.Has ptrB)
    {storeA storeB : InstId} (hstoreA : m.program.HasInst storeA)
    (hstoreB : m.program.HasInst storeB) :
    Meets F (fun _ => True) (m.sameStore ptrA ptrB storeA storeB) := by
  have hsame : Meets F (fun _ => True) (do
      if ← m.mayAlias m.program ptrA ptrB then return true
      m.bothInlined storeA storeB) := by
    refine (halias.meets ha hb).bind fun answer _ => ?_
    split
    · exact meets_pure trivial
    · exact meets_bothInlined hstoreA hstoreB
  cases ptrA with
  | inst _ | arg _ _ => exact hsame
  | _ => exact meets_pure trivial

include halias in
/-- So is whether two effects correspond. -/
theorem meets_corresponds {a b : Effect} (ha : a.Within m.program) (hb : b.Within m.program) :
    Meets F (fun _ => True) (m.corresponds a b) := by
  unfold corresponds
  split
  · exact meets_pure trivial
  · split
    · exact meets_sameTested (ha.1 _ rfl) (hb.1 _ rfl)
    · exact meets_pure trivial
  · exact meets_sameReturn ha.2 hb.2
  · exact meets_sameStore halias (ha.1 _ rfl) (hb.1 _ rfl) ha.2 hb.2
  · exact meets_pure trivial
  · exact meets_pure trivial
  · exact meets_pure trivial

end EffectMatcher

end ErrorReturns
