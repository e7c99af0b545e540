import ErrorReturns.Program.Basic
import ErrorReturns.RangeSet

/-!
# Violations

A violation is a place where an error return is handled badly: a call that nobody checks, a
check that misses error values, a conversion that loses them, or a function whose error
values have the wrong sign for its type.
-/

namespace ErrorReturns

/-- What is wrong. -/
inductive ViolationKind where
  /-- A call whose error value is never checked. -/
  | missing
  /-- A check that does not cover every error value. -/
  | incorrect
  /-- An error value cut to a width that cannot hold it. -/
  | truncation
  /-- An error sign that goes against the convention of the return type. -/
  | signedness
deriving DecidableEq, Repr

/-- The written name of a kind. -/
def ViolationKind.name : ViolationKind → String
  | missing => "missing"
  | incorrect => "incorrect"
  | truncation => "truncation"
  | signedness => "signedness"

/-- The kind of a given name. -/
def ViolationKind.ofName? (name : String) : Option ViolationKind :=
  [missing, incorrect, truncation, signedness].find? fun k => k.name == name

/-- The written form of a position, `file:line:column`. -/
def Position.render (p : Position) : String := s!"{p.file}:{p.line}:{p.column}"

/-- Positions are ordered by file, line and column. -/
instance : Ord Position where
  compare a b :=
    ((compare a.file b.file).then (compare a.line b.line)).then (compare a.column b.column)

instance : Std.TransOrd Position :=
  inferInstanceAs (Std.TransCmp (compareLex
    (compareLex (compareOn Position.file) (compareOn Position.line)) (compareOn Position.column)))

/-- A reported violation. -/
structure Violation where
  location : Option Position
  kind : ViolationKind
  /-- The score of a missing or incorrect check, or how sure the error values are. -/
  confidence : Float
  /-- The names of the functions whose errors are concerned. -/
  callees : List String
  /-- The error values concerned, then the values that checks let through. -/
  evidence : List RangeSet
deriving Repr

end ErrorReturns
