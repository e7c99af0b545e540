import ErrorReturns.Word

/-!
# Double-precision numbers as exact fractions

A finite double is an integer times a power of two. `decode` gives this integer and exponent,
and `nearest` goes the other way: it rounds any fraction to the nearest double, a tie to the
one with the even significand.
-/

namespace ErrorReturns.Binary64

/-- The exponent of the least significand bit of the smallest doubles. -/
def leastExponent : Int := -1074

/-- The least significand with all of its 53 bits. -/
def leastNormal : Nat := Word.count 52

/-- The exponent bits of infinity and of NaNs. -/
def specialExponent : Nat := 2047

/-- The exponent bits of a double. -/
def exponentBits (x : Float) : Nat := x.toBits.toNat / leastNormal % (specialExponent + 1)

/-- The sign, significand and exponent of a finite double, whose absolute value is
`significand * 2 ^ exponent`. -/
structure Parts where
  negative : Bool
  significand : Nat
  exponent : Int
deriving Repr

/-- Whether a double is neither infinite nor a NaN. -/
def isFinite (x : Float) : Bool := exponentBits x != specialExponent

/-- The parts of a finite double. -/
def decode (x : Float) : Parts :=
  let bits := x.toBits.toNat
  let biased := exponentBits x
  let fraction := bits % leastNormal
  { negative := bits / Word.count 63 = 1
    significand := if biased = 0 then fraction else leastNormal + fraction
    exponent := leastExponent + (max biased 1 - 1 : Nat) }

/-- The positive fraction `num / den` divided by a power of `base`, as a fraction. -/
def overPower (base num den : Nat) (exponent : Int) : Nat × Nat :=
  if 0 ≤ exponent then (num, den * Nat.pow base exponent.toNat)
  else (num * Nat.pow base (-exponent).toNat, den)

/-- The quotient rounded to an integer, a tie to the even one. -/
def roundHalfEven (num den : Nat) : Nat :=
  let q := num / den
  let r := 2 * (num % den)
  if r < den then q else if den < r then q + 1 else q + q % 2

/-- The exponent at which a positive fraction has a significand of 53 bits, or the least
exponent if that is greater. -/
def exponentOf (num den : Nat) : Int :=
  let guess := max leastExponent ((num.log2 : Int) - den.log2 - 52)
  let (n, d) := overPower 2 num den guess
  if n < leastNormal * d then max leastExponent (guess - 1) else guess

/-- The bits of infinity. -/
def infinityBits : Nat := specialExponent * leastNormal

/-- The double nearest to the positive fraction `num / den`. -/
def nearest (num den : Nat) : Float :=
  let exponent := exponentOf num den
  let (n, d) := overPower 2 num den exponent
  let bits := (exponent - leastExponent).toNat * leastNormal + roundHalfEven n d
  Float.ofBits (min bits infinityBits).toUInt64

/-- The double nearest to `coefficient * 10 ^ exponent`. Exponents far outside the range of
doubles are decided by the number of digits alone. -/
def ofDecimal (coefficient : Nat) (exponent : Int) : Float :=
  if coefficient = 0 then 0
  else
    let magnitude := exponent + (Nat.toDigits 10 coefficient).length
    if magnitude > 400 then Float.ofBits infinityBits.toUInt64
    else if magnitude < -400 then 0
    else
      let (num, den) := overPower 10 coefficient 1 (-exponent)
      nearest num den

end ErrorReturns.Binary64
