/-!
# Integer comparisons

The ten ways in which a branch compares two integers. A predicate is read in two steps:
`Predicate.onInts` says which order relation it names, and whoever evaluates it decides
whether the operands are taken as signed or as unsigned words. `impliesTrue` and
`impliesFalse` relate two predicates on the same pair of operands.
-/

namespace ErrorReturns

/-- A comparison of two integers; `u` and `s` mark the unsigned and the signed orders. -/
inductive Predicate where
  | eq
  | ne
  | ugt
  | uge
  | ult
  | ule
  | sgt
  | sge
  | slt
  | sle
deriving DecidableEq, Repr

namespace Predicate

/-- Every predicate, equalities first, then the unsigned and the signed orders. -/
def all : List Predicate := [eq, ne, ugt, uge, ult, ule, sgt, sge, slt, sle]

/-- The written name of a predicate. -/
def name : Predicate → String
  | eq => "eq"
  | ne => "ne"
  | ugt => "ugt"
  | uge => "uge"
  | ult => "ult"
  | ule => "ule"
  | sgt => "sgt"
  | sge => "sge"
  | slt => "slt"
  | sle => "sle"

/-- The predicate of a given name. -/
def ofName? (name : String) : Option Predicate := all.find? fun p => p.name == name

/-- The predicate that holds exactly when `p` does not. -/
def inverse : Predicate → Predicate
  | eq => ne
  | ne => eq
  | ugt => ule
  | uge => ult
  | ult => uge
  | ule => ugt
  | sgt => sle
  | sge => slt
  | slt => sge
  | sle => sgt

/-- Whether the predicate orders its operands as unsigned words. -/
def isUnsigned : Predicate → Bool
  | ugt | uge | ult | ule => true
  | _ => false

/-- **The order relation a predicate names**, on two integers already read as signed or as
unsigned. -/
def onInts : Predicate → Int → Int → Bool
  | eq, l, r => l == r
  | ne, l, r => l != r
  | ugt, l, r | sgt, l, r => r < l
  | uge, l, r | sge, l, r => r ≤ l
  | ult, l, r | slt, l, r => l < r
  | ule, l, r | sle, l, r => l ≤ r

/-- Whether `l p r` forces `l q r`, for every two words of one width. -/
def impliesTrue (p q : Predicate) : Bool :=
  p == q || match p with
    | eq => [uge, ule, sge, sle].contains q
    | ugt => [ne, uge].contains q
    | ult => [ne, ule].contains q
    | sgt => [ne, sge].contains q
    | slt => [ne, sle].contains q
    | _ => false

/-- Whether `l p r` rules out `l q r`, for every two words of one width. -/
def impliesFalse (p q : Predicate) : Bool := p.impliesTrue q.inverse

/-- Inverting twice gives the predicate back. -/
@[simp]
theorem inverse_inverse (p : Predicate) : p.inverse.inverse = p := by
  cases p <;> rfl

end Predicate

end ErrorReturns
