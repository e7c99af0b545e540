import ErrorReturns.ErrorTable
import ErrorReturns.Fault

/-!
# Observed error values

Each check of a call whose error side is known is an observation: the set of values that the
call has on that side. Observations are counted by set, for each slot of each function that
the call may reach.

Counts are words of 32 bits. As long as observations are gathered, a count is at most the number of
conditions, and so it is a number here; where counts of several sets are brought together, they are
added as words, and a sum that is too great is a fault (`Count.add`).
-/

namespace ErrorReturns

/-- How often each set of values was observed. -/
abbrev Histogram := Table RangeSet Nat

/-- The observations of every slot. -/
abbrev Histograms := Table ReturnSlot Histogram

/-- **Add two counts** as words of 32 bits. -/
def Count.add (n m : Nat) : Checked Nat :=
  if n + m < Word.count 32 then .ok (n + m) else .error .countOverflow

namespace Histogram

/-- Add to the count of a set. -/
def add (h : Histogram) (s : RangeSet) (n : Nat) : Histogram := h.update s fun m => m.getD 0 + n

/-- Add every count of another histogram. -/
def merge (h other : Histogram) : Histogram :=
  other.entries.foldl (fun h e => h.add e.1 e.2) h

end Histogram

namespace Histograms

/-- Count one observation. -/
def observe (hs : Histograms) (slot : ReturnSlot) (s : RangeSet) : Histograms :=
  hs.update slot fun h => Histogram.add (h.getD {}) s 1

/-- Add every count of other histograms. -/
def merge (hs other : Histograms) : Histograms :=
  other.entries.foldl (fun hs e => hs.update e.1 fun h => Histogram.merge (h.getD {}) e.2) hs

/-- The one set that was observed for a function's plain result, if it is the only one. -/
def only? (hs : Histograms) (f : FuncId) : Option RangeSet :=
  match (hs.get? ⟨f, 0⟩).map Table.keys with
  | some [s] => some s
  | _ => none

end Histograms

end ErrorReturns
