import ErrorReturns.Decimal.Binary64

/-!
# Shortest decimals

A double is written with the fewest digits that read back as the same double, and among
those with the digits nearest to it. The decimals that read back lie between the midpoints
to the two neighbouring doubles. For one digit, two digits and so on, the two decimals of that
many digits around the double are tried; the first count at which one of them lies between
the midpoints is the one.
-/

namespace ErrorReturns.Decimal

/-- A positive decimal, `coefficient * 10 ^ exponent`. -/
structure Digits where
  coefficient : Nat
  exponent : Int
deriving Repr, DecidableEq

/-- Which of two equally near decimals is taken. -/
inductive Tie where
  | toEven
  | up
deriving DecidableEq, Repr

/-- The decimals that read back as a positive double, as a fraction between two bounds over
one denominator, which the double itself, `middle`, shares. -/
structure Window where
  low : Nat
  middle : Nat
  high : Nat
  denominator : Nat
  /-- The bounds themselves read back. -/
  closed : Bool
deriving Repr

/-- The window of the double `significand * 2 ^ exponent`. Below a power of two the neighbours
are half as far apart as above it. -/
def Window.ofParts (significand : Nat) (exponent : Int) : Window :=
  let narrow := significand = Binary64.leastNormal ∧ exponent > Binary64.leastExponent
  let (quarter, denominator) := Binary64.overPower 2 1 1 (2 - exponent)
  { low := (4 * significand - if narrow then 1 else 2) * quarter
    middle := 4 * significand * quarter
    high := (4 * significand + 2) * quarter
    denominator
    closed := significand % 2 = 0 }

/-- The exponent of the first digit of the fraction `num / den`. -/
def leadingExponent (num den : Nat) : Int :=
  if den ≤ num then (Nat.toDigits 10 (num / den)).length - 1
  else -((Nat.toDigits 10 ((den - 1) / num)).length : Int)

/-- Whether `coefficient * 10 ^ exponent` reads back. -/
def Window.contains (w : Window) (d : Digits) : Bool :=
  let (low, scale) := Binary64.overPower 10 w.low w.denominator d.exponent
  let (high, _) := Binary64.overPower 10 w.high w.denominator d.exponent
  let point := d.coefficient * scale
  if w.closed then low ≤ point && point ≤ high else low < point && point < high

/-- Of the two decimals around the double on the grid `10 ^ exponent`, the nearer one that
reads back. -/
def Window.nearestOn? (w : Window) (tie : Tie) (exponent : Int) : Option Digits :=
  let (middle, scale) := Binary64.overPower 10 w.middle w.denominator exponent
  let below : Digits := ⟨middle / scale, exponent⟩
  let above : Digits := ⟨middle / scale + 1, exponent⟩
  let twice := 2 * (middle % scale)
  let preferAbove :=
    if twice = scale then tie == .up || below.coefficient % 2 = 1 else scale < twice
  match w.contains below, w.contains above with
  | true, true => some (if preferAbove then above else below)
  | true, false => some below
  | false, true => some above
  | false, false => none

/-- Without zeros at the end of the coefficient. -/
def Digits.normalize (d : Digits) : Digits :=
  let zeros := ((Nat.toDigits 10 d.coefficient).reverse.takeWhile (· == '0')).length
  ⟨d.coefficient / Nat.pow 10 zeros, d.exponent + zeros⟩

/-- **The shortest decimal** that reads back as a positive finite double. Seventeen digits are
always enough. -/
def shortest (tie : Tie) (significand : Nat) (exponent : Int) : Digits :=
  let w := Window.ofParts significand exponent
  let leading := leadingExponent w.middle w.denominator
  let found := (List.range 17).findSome? fun (n : Nat) => w.nearestOn? tie (leading - n)
  (found.getD ⟨0, 0⟩).normalize

end ErrorReturns.Decimal
