import ErrorReturns.Document.Basic

/-!
# Reading documents

A strict reader of JSON: one document, with blanks around it and nothing else. Every step
takes characters off the front of the text and gives back what follows, so a depth as great
as the length of the text is enough for any nesting.
-/

namespace ErrorReturns.Document

/-- Whether a character may stand between the parts of a document. -/
def isSpace (c : Char) : Bool := c = ' ' || c = '\n' || c = '\t' || c = '\r'

/-- The text without blanks at its start. -/
def skip (s : List Char) : List Char := s.dropWhile isSpace

/-- Take a given word off the front of a text. -/
def expect (word : List Char) (s : List Char) : Option (List Char) :=
  if word.isPrefixOf s then some (s.drop word.length) else none

/-! ## Numbers -/

/-- The digits before the point: no zero in front of others. -/
def readWhole (s : List Char) : Option (List Char × List Char) :=
  match Decimal.readDigits s with
  | ([], _) => none
  | ('0' :: _ :: _, _) => none
  | (digits, rest) => some (digits, rest)

/-- The digits after the point, if there is one. -/
def readFraction : List Char → Option (List Char × List Char)
  | '.' :: s =>
    match Decimal.readDigits s with
    | ([], _) => none
    | (digits, rest) => some (digits, rest)
  | s => some ([], s)

/-- The sign that an exponent may have. -/
def readExponentSign : List Char → List Char × List Char
  | '+' :: s => (['+'], s)
  | '-' :: s => (['-'], s)
  | s => ([], s)

/-- The exponent, if there is one. -/
def readExponent : List Char → Option (Option (List Char) × List Char)
  | c :: s =>
    if c = 'e' ∨ c = 'E' then
      let (sign, s) := readExponentSign s
      match Decimal.readDigits s with
      | ([], _) => none
      | (digits, rest) => some (some (sign ++ digits), rest)
    else some (none, c :: s)
  | [] => some (none, [])

/-- A number. -/
def readNumber (s : List Char) : Option (Numeral × List Char) := do
  let (negative, s) := match s with
    | '-' :: rest => (true, rest)
    | _ => (false, s)
  let (whole, s) ← readWhole s
  let (fraction, s) ← readFraction s
  let (exponent, s) ← readExponent s
  return (⟨negative, whole, fraction, exponent⟩, s)

/-! ## Texts -/

/-- The value of a hexadecimal digit. -/
def hexValue? (c : Char) : Option Nat :=
  if '0' ≤ c ∧ c ≤ '9' then some (c.toNat - '0'.toNat)
  else if 'a' ≤ c ∧ c ≤ 'f' then some (c.toNat - 'a'.toNat + 10)
  else if 'A' ≤ c ∧ c ≤ 'F' then some (c.toNat - 'A'.toNat + 10)
  else none

/-- Four hexadecimal digits. -/
def hex4? (a b c d : Char) : Option Nat := do
  return (((← hexValue? a) * 16 + (← hexValue? b)) * 16 + (← hexValue? c)) * 16 + (← hexValue? d)

/-- The code point of an escape with a single letter. -/
def shortEscape? : Char → Option Nat
  | '"' => some 0x22
  | '\\' => some 0x5C
  | '/' => some 0x2F
  | 'b' => some 0x08
  | 'f' => some 0x0C
  | 'n' => some 0x0A
  | 'r' => some 0x0D
  | 't' => some 0x09
  | _ => none

/-- A text up to its closing quotation mark, after the opening one. -/
def readText : List Char → Option (CodePoints × List Char)
  | [] => none
  | '"' :: rest => some ([], rest)
  | '\\' :: 'u' :: a :: b :: c :: d :: rest => do
    let n ← hex4? a b c d
    let (s, rest) ← readText rest
    return (n :: s, rest)
  | '\\' :: c :: rest => do
    let n ← shortEscape? c
    let (s, rest) ← readText rest
    return (n :: s, rest)
  | c :: rest =>
    if c = '\\' ∨ c.toNat < 0x20 then none
    else do
      let (s, rest) ← readText rest
      return (c.toNat :: s, rest)

/-! ## Documents -/

mutual

/-- A document at the start of a text. -/
def readValue : (depth : Nat) → List Char → Option (Document × List Char)
  | 0, _ => none
  | depth + 1, s =>
    match skip s with
    | 'n' :: rest => (expect "ull".toList rest).map (.null, ·)
    | 't' :: rest => (expect "rue".toList rest).map (.bool true, ·)
    | 'f' :: rest => (expect "alse".toList rest).map (.bool false, ·)
    | '"' :: rest => do
      let (s, rest) ← readText rest
      return (.text s, rest)
    | '[' :: rest =>
      match skip rest with
      | ']' :: rest => some (.array [], rest)
      | rest => do
        let (items, rest) ← readItems depth rest
        return (.array items, rest)
    | '\x7b' :: rest =>
      match skip rest with
      | '\x7d' :: rest => some (.object [], rest)
      | rest => do
        let (fields, rest) ← readFields depth rest
        return (.object fields, rest)
    | rest => do
      let (n, rest) ← readNumber rest
      return (.number n, rest)

/-- The items of an array, up to its closing bracket. -/
def readItems : (depth : Nat) → List Char → Option (List Document × List Char)
  | 0, _ => none
  | depth + 1, s => do
    let (item, s) ← readValue depth s
    match skip s with
    | ',' :: rest =>
      let (items, rest) ← readItems depth rest
      return (item :: items, rest)
    | ']' :: rest => return ([item], rest)
    | _ => none

/-- The fields of an object, up to its closing brace. -/
def readFields : (depth : Nat) → List Char → Option (List (CodePoints × Document) × List Char)
  | 0, _ => none
  | depth + 1, s => do
    let '"' :: s := skip s | none
    let (key, s) ← readText s
    let ':' :: s := skip s | none
    let (value, s) ← readValue depth s
    match skip s with
    | ',' :: rest =>
      let (fields, rest) ← readFields depth rest
      return ((key, value) :: fields, rest)
    | '\x7d' :: rest => return ([(key, value)], rest)
    | _ => none

end

/-- **Read a document** that takes up a whole text. -/
def read? (s : List Char) : Option Document := do
  let (document, rest) ← readValue (s.length + 1) s
  if (skip rest).isEmpty then some document else none

end ErrorReturns.Document
