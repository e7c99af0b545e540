import ErrorReturns.Document.Basic

/-!
# Records in documents

A record with named fields is written as an object, or as an array of its fields in order.
An object may leave out fields and mention others; what that means is up to the record. A
field is never given twice.
-/

namespace ErrorReturns

/-- How a record is read. -/
structure RecordShape where
  fields : List String
  /-- Fields that the record does not have are refused rather than passed over. -/
  refuseOthers : Bool := false
  /-- An array may end before the last field. -/
  allowShort : Bool := false

namespace RecordShape

/-- The value of each field, where it is given. -/
abbrev Given := List (Option Document)

/-- The keys of an object as texts. -/
def keys? (fields : List (CodePoints × Document)) : Option (List (String × Document)) :=
  fields.mapM fun f => f.1.toString?.map (·, f.2)

/-- The value of a field, if it is given once or not at all. -/
def single? (name : String) (fields : List (String × Document)) : Option (Option Document) :=
  match fields.filter (·.1 == name) with
  | [] => some none
  | [f] => some (some f.2)
  | _ => none

/-- Read an object. -/
def ofObject? (shape : RecordShape) (fields : List (CodePoints × Document)) : Option Given := do
  let fields ← keys? fields
  if shape.refuseOthers && !fields.all (shape.fields.contains ·.1) then none
  shape.fields.mapM (single? · fields)

/-- Read an array. -/
def ofArray? (shape : RecordShape) (items : List Document) : Option Given :=
  let missing := shape.fields.length - items.length
  if items.length > shape.fields.length ∨ (missing > 0 ∧ !shape.allowShort) then none
  else some (items.map some ++ List.replicate missing none)

/-- **The fields of a record** that a document gives. -/
def read? (shape : RecordShape) : Document → Option Given
  | .object fields => shape.ofObject? fields
  | .array items => shape.ofArray? items
  | _ => none

end RecordShape

namespace Document

/-- The text that a document is. -/
def asString? : Document → Option String
  | text s => s.toString?
  | _ => none

/-- The truth value that a document is. -/
def asBool? : Document → Option Bool
  | bool b => some b
  | _ => none

/-- The double that a document is. -/
def asFloat? : Document → Option Float
  | number n => n.toFloat?
  | _ => none

/-- The integer between two bounds that a document is. -/
def asIntBetween? (low high : Int) : Document → Option Int
  | number n => n.intBetween? low high
  | _ => none

/-- The natural number of at most `bits` bits that a document is. -/
def asNat? (bits : Nat) (d : Document) : Option Nat :=
  (d.asIntBetween? 0 (Word.count bits - 1)).map Int.toNat

/-- What the items of an array are, each read by `f`. -/
def asList? {α : Type} (f : Document → Option α) : Document → Option (List α)
  | array items => items.mapM f
  | _ => none

/-- What a document is that may be null, read by `f`. -/
def asOption? {α : Type} (f : Document → Option α) : Document → Option (Option α)
  | null => some none
  | d => (f d).map some

/-- A text as a document. -/
def ofString (s : String) : Document := text (CodePoints.ofString s)

/-- An integer as a document. -/
def ofInt (v : Int) : Document := number (Numeral.ofInt v)

/-- A double as a document; there is no number for those that are not finite. -/
def ofFloat (x : Float) : Document :=
  if Binary64.isFinite x then number (Numeral.ofFloat x) else null

/-- A record as a document. -/
def ofRecord (fields : List (String × Document)) : Document :=
  object (fields.map fun f => (CodePoints.ofString f.1, f.2))

end Document

end ErrorReturns
