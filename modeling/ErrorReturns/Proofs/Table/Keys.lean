import ErrorReturns.Finding.Score
import ErrorReturns.Flow.Path
import ErrorReturns.Learning.Evidence

/-!
# Orders of the keys

Every type that tables are keyed by, or that sets in order hold, has a comparison that tells
different elements apart. Names are compared by their places, and records field by field, so that
the law comes from those of the numbers and texts in them.
-/

namespace ErrorReturns

open Std

instance : LawfulEqOrd FuncId where
  eq_of_compare {a b} h :=
    congrArg FuncId.mk (LawfulEqOrd.compare_eq_iff_eq.mp h : a.index = b.index)

instance : LawfulEqOrd InstId where
  eq_of_compare {a b} h :=
    congrArg InstId.mk (LawfulEqOrd.compare_eq_iff_eq.mp h : a.index = b.index)

instance : LawfulEqOrd BlockId where
  eq_of_compare {a b} h :=
    congrArg BlockId.mk (LawfulEqOrd.compare_eq_iff_eq.mp h : a.index = b.index)

instance : LawfulEqOrd ReturnSlot where
  eq_of_compare {a b} h := by
    obtain ⟨hf, hs⟩ := Ordering.then_eq_eq.mp h
    exact congr (congrArg ReturnSlot.mk (LawfulEqOrd.compare_eq_iff_eq.mp hf))
      (LawfulEqOrd.compare_eq_iff_eq.mp hs)

instance : LawfulEqOrd CheckId where
  eq_of_compare {a b} h := by
    obtain ⟨hf, hn⟩ := Ordering.then_eq_eq.mp h
    exact congr (congrArg CheckId.mk (LawfulEqOrd.compare_eq_iff_eq.mp hf))
      (LawfulEqOrd.compare_eq_iff_eq.mp hn)

instance : LawfulEqOrd CheckedCall where
  eq_of_compare {a b} h := by
    obtain ⟨hc, hs⟩ := Ordering.then_eq_eq.mp h
    exact congr (congrArg CheckedCall.mk (LawfulEqOrd.compare_eq_iff_eq.mp hc))
      (LawfulEqOrd.compare_eq_iff_eq.mp hs)

instance : LawfulEqOrd Range where
  eq_of_compare {a b} h := by
    obtain ⟨hl, hh⟩ := Ordering.then_eq_eq.mp h
    exact congr (congrArg Range.mk (LawfulEqOrd.compare_eq_iff_eq.mp hl))
      (LawfulEqOrd.compare_eq_iff_eq.mp hh)

instance : LawfulEqOrd RangeSet where
  eq_of_compare {a b} h :=
    congrArg RangeSet.mk (LawfulEqOrd.compare_eq_iff_eq.mp h : a.ranges = b.ranges)

instance : LawfulEqOrd Position where
  eq_of_compare {a b} h := by
    obtain ⟨hfl, hc⟩ := Ordering.then_eq_eq.mp h
    obtain ⟨hf, hl⟩ := Ordering.then_eq_eq.mp hfl
    exact congr (congr (congrArg Position.mk (LawfulEqOrd.compare_eq_iff_eq.mp hf))
      (LawfulEqOrd.compare_eq_iff_eq.mp hl)) (LawfulEqOrd.compare_eq_iff_eq.mp hc)

instance : LawfulEqOrd Site where
  eq_of_compare {a b} h := by
    cases a <;> cases b
    case source.source => exact congrArg Site.source (LawfulEqOrd.compare_eq_iff_eq.mp h)
    case inst.inst => exact congrArg Site.inst (LawfulEqOrd.compare_eq_iff_eq.mp h)
    case source.inst | inst.source => cases h

end ErrorReturns
