import ErrorReturns.Learning.Propagation
import ErrorReturns.Learning.Similarity
import ErrorReturns.Learning.Storing

/-!
# Learning error returns

Learning goes through the functions under analysis twice: first it decides conditions by
similar paths, then, with the error handlers this brought to light, those that were left. The
observations become knowledge, which is then propagated to callers.
-/

namespace ErrorReturns

/-- What learning found on the way. -/
structure LearningReport where
  /-- How many conditions were decided. -/
  matched : Nat
  handlers : SortedSet FuncId
  observed : Histograms
deriving Repr

namespace Context

variable (c : Context)

/-- The evidence of similar paths in every function. -/
def gatherSimilar : Checked Evidence :=
  c.foldAnalysed (fun e f => return e.merge (← c.similarityEvidence f)) {}

/-- The evidence with what handlers add to it. -/
def gatherHandlers (handlers : SortedSet FuncId) (e : Evidence) : Checked Evidence :=
  c.foldAnalysed (fun e f => return e.merge (← c.handlerEvidence f handlers (e.matchedIn f))) e

/-- **Learn** from the functions under analysis. -/
def learn (k : Knowledge) : Checked (LearningReport × Knowledge) := do
  let e ← c.gatherSimilar
  let handlers := c.associate k.errors e.handlers
  let e ← c.gatherHandlers handlers e
  let k ← c.store k e.observed
  let errors ← c.propagateHandlers handlers k.errors
  let errors ← c.propagateChecked errors
  return (⟨e.matched.size, handlers, e.observed⟩, { k with errors })

end Context

end ErrorReturns
