import ErrorReturns.Decimal.Shortest

/-!
# Laying out decimals

The digits of a number can be written positionally or with an exponent. A layout says which
numbers are written how.
-/

namespace ErrorReturns.Decimal

/-- How numbers are written. -/
structure Layout where
  /-- The exponents of the first digit for which a number is written positionally. -/
  isPositional : Int → Bool
  /-- A positional number has a point even if it is an integer. -/
  forcePoint : Bool
  /-- Which of two equally short and equally near decimals is written. -/
  tie : Tie

/-- The parts of a written number: the digits before and after the point, and the exponent. -/
structure Written where
  negative : Bool
  whole : List Char
  fraction : List Char
  exponent : Option Int
deriving Repr, DecidableEq

/-- Digits written positionally. -/
def positional (digits : List Char) (exponent : Int) : List Char × List Char :=
  let point := digits.length + exponent
  if point ≤ 0 then (['0'], List.replicate (-point).toNat '0' ++ digits)
  else if 0 ≤ exponent then (digits ++ List.replicate exponent.toNat '0', [])
  else (digits.take point.toNat, digits.drop point.toNat)

/-- Lay out a finite double. -/
def Layout.write (l : Layout) (x : Float) : Written :=
  let parts := Binary64.decode x
  let d : Digits :=
    if parts.significand = 0 then ⟨0, 0⟩ else shortest l.tie parts.significand parts.exponent
  let digits := Nat.toDigits 10 d.coefficient
  let leading := d.exponent + digits.length - 1
  if parts.significand = 0 || l.isPositional leading then
    let (whole, fraction) := positional digits d.exponent
    ⟨parts.negative, whole, if fraction.isEmpty && l.forcePoint then ['0'] else fraction, none⟩
  else ⟨parts.negative, digits.take 1, digits.drop 1, some leading⟩

/-- **Plain text** never uses an exponent and writes integers without a point. -/
def Layout.plain : Layout where
  isPositional := fun _ => true
  forcePoint := false
  tie := .up

/-- A double as plain text. -/
def renderPlain (x : Float) : String :=
  if Binary64.isFinite x then
    let w := Layout.plain.write x
    String.ofList ((if w.negative then ['-'] else []) ++ w.whole ++
      (if w.fraction.isEmpty then [] else '.' :: w.fraction))
  else if x.isNaN then "NaN"
  else if x < 0 then "-inf" else "inf"

end ErrorReturns.Decimal
