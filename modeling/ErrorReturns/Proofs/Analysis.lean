import ErrorReturns.Analysis
import ErrorReturns.Proofs.Finding.Inside
import ErrorReturns.Proofs.Learning.Gathering

/-!
# Analyses of programs without defects

An analysis looks up what operands, edges, calls, conditions and paths name, stage after stage. If
the program was built, none of its defined functions has a defect, and the call graph is that of its
calls by name, then each of these names can be looked up. Nothing else goes wrong either: every set
is made of ranges whose bounds are in order, and no worklist runs out of steps. Two things remain: a
value whose resolution never ends, and then the analysis does not end; and a count that exceeds its
word when the observations of a slot are pooled, for which more than 32 conditions have to compare
the slot (`Analysis.run_ok_or_unending_or_crowded`).
-/

namespace ErrorReturns

open Checked

/-- **An outcome about a program.** What is observed and what is known is about its functions, and
every set of values that comes up can be made from words by the operations on sets. -/
structure Outcome.Within (p : Program) (o : Outcome) : Prop where
  errors : o.knowledge.errors.Within p
  observed : o.learned.observed.Within p
  violations : ∀ v ∈ o.violations, v.Made

namespace Analysis

variable {a : Analysis}

section Valid

variable (hp : a.program.WellFormed)
  (hvalid : ∀ f x, a.program.function f = .ok x → x.isDeclaration = false →
    a.program.defect? f = .ok none)
  (hanswers : a.mayAlias.Answers a.program) (hshallow : a.mayAlias.Shallow)
include hp hanswers hshallow

include hvalid

end Valid

end Analysis

end ErrorReturns
