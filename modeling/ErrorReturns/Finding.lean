import ErrorReturns.Finding.Incorrect
import ErrorReturns.Finding.Missing
import ErrorReturns.Finding.Signedness

/-!
# Finding violations

With the error values known, the program is searched for missing and incorrect checks, which
are scored, and for truncated error values and signs against the convention, which are not.
Looking for missing checks may bring new error values to light, and everything after it uses
them.
-/

namespace ErrorReturns

/-- **Find every violation**, given what is known. -/
def Context.find (c : Context) (k : Knowledge) : Checked (List Violation × Knowledge) := do
  let (k, missing) ← c.findMissing k
  let incorrect ← c.findIncorrect k.errors
  let scorer : Scorer := ⟨c.program, c.graph, k.errors⟩
  let missing ← scorer.score .missing missing.sites missing.tallies c.settings.missingThreshold
  let incorrect ←
    scorer.score .incorrect incorrect.sites incorrect.tallies c.settings.incorrectThreshold
  let truncations ← c.findTruncations k
  let signs ← c.findSignedness k
  return (missing ++ incorrect ++ truncations ++ signs, k)

end ErrorReturns
