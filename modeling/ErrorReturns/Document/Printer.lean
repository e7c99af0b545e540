import ErrorReturns.Document.Basic

/-!
# Writing documents

Documents are written on one line without blanks, or spread over lines with an indentation
of two. An empty array or object is never spread.
-/

namespace ErrorReturns

/-- The written form of a number. -/
def Numeral.render (n : Numeral) : List Char :=
  (if n.negative then ['-'] else []) ++ n.whole ++
    (if n.fraction.isEmpty then [] else '.' :: n.fraction) ++
    (match n.exponent with
      | some e => 'e' :: e
      | none => [])

namespace Document

/-- The digits of an escape with a number. -/
def hexDigits (n : Nat) : List Char :=
  let digits := Nat.toDigits 16 n
  List.replicate (4 - digits.length) '0' ++ digits

/-- The written form of a code point: quotation marks, backslashes and control characters are
escaped. -/
def renderPoint (n : Nat) : List Char :=
  if n = 0x22 then ['\\', '"']
  else if n = 0x5C then ['\\', '\\']
  else if n = 0x08 then ['\\', 'b']
  else if n = 0x0C then ['\\', 'f']
  else if n = 0x0A then ['\\', 'n']
  else if n = 0x0D then ['\\', 'r']
  else if n = 0x09 then ['\\', 't']
  else if n < 0x20 ∨ CodePoints.isHigh n ∨ CodePoints.isLow n then '\\' :: 'u' :: hexDigits n
  else [Char.ofNat n]

/-- The written form of a text. -/
def renderText (s : CodePoints) : List Char := '"' :: s.flatMap renderPoint ++ ['"']

/-! ## On one line -/

mutual

/-- A document on one line. -/
def compact : Document → List Char
  | null => "null".toList
  | bool true => "true".toList
  | bool false => "false".toList
  | number n => n.render
  | text s => renderText s
  | array items => '[' :: compactItems items ++ [']']
  | object fields => '\x7b' :: compactFields fields ++ ['\x7d']

/-- Items with commas between them. -/
def compactItems : List Document → List Char
  | [] => []
  | [item] => compact item
  | item :: rest => compact item ++ ',' :: compactItems rest

/-- Fields with commas between them. -/
def compactFields : List (CodePoints × Document) → List Char
  | [] => []
  | [(key, value)] => renderText key ++ ':' :: compact value
  | (key, value) :: rest => renderText key ++ ':' :: compact value ++ ',' :: compactFields rest

end

/-! ## Over several lines -/

/-- A new line with an indentation. -/
def newLine (indent : Nat) : List Char := '\n' :: List.replicate indent ' '

mutual

/-- A document over several lines, of which those inside are indented further than
`indent`. -/
def pretty (indent : Nat) : Document → List Char
  | array (item :: items) =>
    '[' :: prettyItems (indent + 2) (item :: items) ++ newLine indent ++ [']']
  | object (field :: fields) =>
    '\x7b' :: prettyFields (indent + 2) (field :: fields) ++ newLine indent ++ ['\x7d']
  | document => compact document

/-- Items on lines of their own. -/
def prettyItems (indent : Nat) : List Document → List Char
  | [] => []
  | [item] => newLine indent ++ pretty indent item
  | item :: rest => newLine indent ++ pretty indent item ++ ',' :: prettyItems indent rest

/-- Fields on lines of their own. -/
def prettyFields (indent : Nat) : List (CodePoints × Document) → List Char
  | [] => []
  | [(key, value)] => newLine indent ++ renderText key ++ ':' :: ' ' :: pretty indent value
  | (key, value) :: rest =>
    newLine indent ++ renderText key ++ ':' :: ' ' :: pretty indent value ++
      ',' :: prettyFields indent rest

end

end Document

end ErrorReturns
