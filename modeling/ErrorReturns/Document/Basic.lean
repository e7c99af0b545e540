import ErrorReturns.Decimal.Layout
import ErrorReturns.Decimal.Reader

/-!
# JSON documents

A document is kept as it was written: numbers by their digits, texts by their code points,
objects by their fields in order, repetitions included. What a number or a text means is
decided by whoever reads it, because a part of a document that nobody reads need not mean
anything: a number may be too large, and an escape may be half of a surrogate pair.
-/

namespace ErrorReturns

/-- A number as written. -/
structure Numeral where
  negative : Bool := false
  whole : List Char
  /-- The digits after the point; without any there is no point. -/
  fraction : List Char := []
  /-- The sign and digits after the exponent mark. -/
  exponent : Option (List Char) := none
deriving DecidableEq, Repr

/-- A text as the code points it was written with, where an escape may stand for a
surrogate. -/
abbrev CodePoints := List Nat

/-- A JSON document. -/
inductive Document where
  | null
  | bool (b : Bool)
  | number (n : Numeral)
  | text (s : CodePoints)
  | array (items : List Document)
  | object (fields : List (CodePoints × Document))
deriving Repr

namespace CodePoints

/-- The code points of a text. -/
def ofString (s : String) : CodePoints := s.toList.map Char.toNat

/-- Whether a code point is the first half of a surrogate pair. -/
def isHigh (n : Nat) : Bool := 0xD800 ≤ n && n ≤ 0xDBFF

/-- Whether a code point is the second half of a surrogate pair. -/
def isLow (n : Nat) : Bool := 0xDC00 ≤ n && n ≤ 0xDFFF

/-- The code point that a surrogate pair stands for. -/
def pair (high low : Nat) : Nat := 0x10000 + (high - 0xD800) * 0x400 + (low - 0xDC00)

/-- The characters that code points stand for. A surrogate without its other half stands for
nothing. -/
def decode? : CodePoints → Option (List Char)
  | [] => some []
  | high :: low :: rest =>
    if isHigh high then
      if isLow low then (decode? rest).map (Char.ofNat (pair high low) :: ·) else none
    else if isLow high then none
    else (decode? (low :: rest)).map (Char.ofNat high :: ·)
  | [n] => if isHigh n || isLow n then none else some [Char.ofNat n]

/-- The text that code points stand for. -/
def toString? (s : CodePoints) : Option String := s.decode?.map String.ofList

end CodePoints

/-! ## The meaning of numbers -/

namespace Numeral

/-- A natural number. -/
def ofNat (n : Nat) : Numeral where
  whole := Nat.toDigits 10 n

/-- An integer. -/
def ofInt (v : Int) : Numeral where
  negative := v < 0
  whole := Nat.toDigits 10 v.natAbs

/-- How numbers are laid out in documents: positionally from `1e-5` up to `1e16`, always with
a point, and else with an exponent. -/
def layout : Decimal.Layout where
  isPositional := fun e => -5 ≤ e && e < 16
  forcePoint := true
  tie := .toEven

/-- A finite double. The exponent carries its sign. -/
def ofFloat (x : Float) : Numeral :=
  let w := layout.write x
  { negative := w.negative
    whole := w.whole
    fraction := w.fraction
    exponent := w.exponent.map fun e =>
      (if e < 0 then '-' else '+') :: Nat.toDigits 10 e.natAbs }

/-- The integer that a number without point and exponent writes. Zero with a minus sign is
not an integer. -/
def toInt? (n : Numeral) : Option Int :=
  let value := Decimal.natOfDigits n.whole
  if n.fraction ≠ [] ∨ n.exponent ≠ none ∨ (n.negative ∧ value = 0) then none
  else some (if n.negative then -value else value)

/-- The integer that a number writes, if it lies between two bounds. -/
def intBetween? (low high : Int) (n : Numeral) : Option Int :=
  n.toInt?.bind fun v => if low ≤ v ∧ v ≤ high then some v else none

/-- The leading digits that fit a 64-bit significand, after the ones gathered so far, and how
many of them there are. -/
def gather (significand count : Nat) : List Char → Nat × Nat
  | [] => (significand, count)
  | c :: rest =>
    let next := 10 * significand + (c.toNat - '0'.toNat)
    if next < Word.count 64 then gather next (count + 1) rest else (significand, count)

/-- Divide by powers of ten that a double can hold until the exponent is in reach. -/
def scaleDown : Nat → Float → Int → Float
  | 0, x, _ => x
  | steps + 1, x, exponent =>
    if -308 ≤ exponent then x / Binary64.ofDecimal 1 (-exponent)
    else if x == 0 then x
    else scaleDown steps (x / Binary64.ofDecimal 1 308) (exponent + 308)

/-- A significand times a power of ten, by one multiplication or by divisions. Nothing is
returned for what no double can hold. -/
def scale? (significand : Nat) (exponent : Int) : Option Float :=
  let x := significand.toUInt64.toFloat
  if exponent < 0 then some (scaleDown (exponent.natAbs / 308 + 1) x exponent)
  else if exponent ≤ 308 then
    let y := x * Binary64.ofDecimal 1 exponent
    if y.isInf then none else some y
  else if significand = 0 then some 0 else none

/-- The exponent that is written. -/
def writtenExponent (n : Numeral) : Int :=
  match n.exponent with
  | none => 0
  | some e =>
    let (negative, digits) := Decimal.readSign e
    if negative then -(Decimal.natOfDigits digits) else Decimal.natOfDigits digits

/-- **The double that a number stands for.** The leading digits that fit 64 bits are scaled by
a power of ten; later digits of the whole part only count as places. -/
def toFloat? (n : Numeral) : Option Float :=
  let (significand, taken) := gather 0 0 n.whole
  let (significand, places) := gather significand 0 n.fraction
  let exponent := (n.whole.length - taken : Nat) - (places : Int) + n.writtenExponent
  (scale? significand exponent).map fun x => if n.negative then -x else x

end Numeral

end ErrorReturns
