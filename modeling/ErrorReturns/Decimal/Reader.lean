import ErrorReturns.Decimal.Binary64

/-!
# Reading decimals

A number is written as digits with an optional point and an optional exponent, after an
optional sign. A digit is needed on at least one side of the point. Infinity and NaN are
written as words, in any case. The value is the double nearest to the number.
-/

namespace ErrorReturns.Decimal

/-- The natural number that some digits write. -/
def natOfDigits (digits : List Char) : Nat :=
  digits.foldl (fun n c => 10 * n + (c.toNat - '0'.toNat)) 0

/-- An optional sign, and what follows it. -/
def readSign : List Char → Bool × List Char
  | '-' :: rest => (true, rest)
  | '+' :: rest => (false, rest)
  | rest => (false, rest)

/-- The digits at the start of a text, and what follows them. -/
def readDigits (s : List Char) : List Char × List Char :=
  (s.takeWhile Char.isDigit, s.dropWhile Char.isDigit)

/-- An optional point with digits after it, and what follows. -/
def readFraction : List Char → List Char × List Char
  | '.' :: rest => readDigits rest
  | rest => ([], rest)

/-- An exponent that takes up the rest of a text; without one it is zero. -/
def readExponent? : List Char → Option Int
  | [] => some 0
  | c :: rest =>
    if c = 'e' ∨ c = 'E' then
      let (negative, rest) := readSign rest
      if rest ≠ [] ∧ rest.all Char.isDigit then
        some (if negative then -(natOfDigits rest) else natOfDigits rest)
      else none
    else none

/-- A number without a sign. -/
def readMagnitude? (s : List Char) : Option Float :=
  let (whole, rest) := readDigits s
  let (fraction, rest) := readFraction rest
  if whole ++ fraction = [] then none
  else
    (readExponent? rest).map fun e =>
      Binary64.ofDecimal (natOfDigits (whole ++ fraction)) (e - fraction.length)

/-- A number written as a word. -/
def readWord? (s : List Char) : Option Float :=
  let word := s.map Char.toLower
  if word = "nan".toList then some (0 / 0)
  else if word = "inf".toList ∨ word = "infinity".toList then some (1 / 0)
  else none

/-- **Read a decimal** that takes up a whole text. -/
def read? (s : List Char) : Option Float :=
  let (negative, rest) := readSign s
  ((readMagnitude? rest) <|> (readWord? rest)).map fun x => if negative then -x else x

/-- Read a natural number of at most 64 bits, with an optional plus sign. -/
def readNat64? (s : List Char) : Option Nat :=
  let digits := match s with
    | '+' :: rest => rest
    | _ => s
  if digits ≠ [] ∧ digits.all Char.isDigit then
    let n := natOfDigits digits
    if n < Word.count 64 then some n else none
  else none

end ErrorReturns.Decimal
