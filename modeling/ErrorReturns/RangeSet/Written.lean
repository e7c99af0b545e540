import ErrorReturns.Document.Printer
import ErrorReturns.Document.Reader
import ErrorReturns.Document.Record
import ErrorReturns.RangeSet

/-!
# Sets of values in documents

A set is written as a record with the list of its ranges, and a range as a record with its
two bounds. Reading takes ranges in any order and with any overlap, and builds the set anew.
-/

namespace ErrorReturns

namespace Range

/-- The fields of a written range. -/
def shape : RecordShape where
  fields := ["low", "high"]

/-- The range as a document. -/
def toDocument (r : Range) : Document :=
  .ofRecord [("low", .ofInt r.low), ("high", .ofInt r.high)]

/-- The range that a document is. -/
def ofDocument? (d : Document) : Option Range := do
  let [some low, some high] ← shape.read? d | none
  let low ← low.asIntBetween? (Word.lowest 32) (Word.highest 32)
  let high ← high.asIntBetween? (Word.lowest 32) (Word.highest 32)
  (ofBounds low high).toOption

end Range

namespace RangeSet

/-- The fields of a written set. -/
def shape : RecordShape where
  fields := ["ranges"]

/-- The set as a document. -/
def toDocument (s : RangeSet) : Document :=
  .ofRecord [("ranges", .array (s.ranges.map Range.toDocument))]

/-- The set that a document is. -/
def ofDocument? (d : Document) : Option RangeSet := do
  let [some ranges] ← shape.read? d | none
  return ofRanges (← ranges.asList? Range.ofDocument?)

/-- The set as text. -/
def toJson (s : RangeSet) : String := String.ofList s.toDocument.compact

/-- The set that a text writes. -/
def ofJson? (s : String) : Option RangeSet := (Document.read? s.toList).bind ofDocument?

end RangeSet

end ErrorReturns
