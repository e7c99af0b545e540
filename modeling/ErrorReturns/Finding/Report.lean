import ErrorReturns.Finding.Violation
import ErrorReturns.RangeSet.Written

/-!
# Reports in documents

Violations are reported as an array of records. A position may be left out or null; the kind
is a name, or an object with the name as its only key and nothing in it.
-/

namespace ErrorReturns

namespace Position

/-- The fields of a written position. -/
def shape : RecordShape where
  fields := ["file", "line", "column"]

/-- The position as a document. -/
def toDocument (p : Position) : Document :=
  .ofRecord [("file", .ofString p.file), ("line", .ofInt p.line), ("column", .ofInt p.column)]

/-- The position that a document is. -/
def ofDocument? (d : Document) : Option Position := do
  let [some file, some line, some column] ← shape.read? d | none
  return ⟨← file.asString?, ← line.asNat? 32, ← column.asNat? 32⟩

end Position

/-- The kind that a document is. -/
def ViolationKind.ofDocument? : Document → Option ViolationKind
  | .text s => s.toString?.bind ofName?
  | .object [(key, .null)] => key.toString?.bind ofName?
  | _ => none

namespace Violation

/-- The fields of a written violation. -/
def shape : RecordShape where
  fields := ["location", "kind", "confidence", "callees", "evidence"]

/-- The violation as a document. -/
def toDocument (v : Violation) : Document :=
  .ofRecord [
    ("location", (v.location.map Position.toDocument).getD .null),
    ("kind", .ofString v.kind.name),
    ("confidence", .ofFloat v.confidence),
    ("callees", .array (v.callees.map Document.ofString)),
    ("evidence", .array (v.evidence.map RangeSet.toDocument))]

/-- The violation that a document is. -/
def ofDocument? (d : Document) : Option Violation := do
  let [location, some kind, some confidence, some callees, some evidence] ← shape.read? d | none
  return {
    location := ← (location.getD .null).asOption? Position.ofDocument?
    kind := ← ViolationKind.ofDocument? kind
    confidence := ← confidence.asFloat?
    callees := ← callees.asList? Document.asString?
    evidence := ← evidence.asList? RangeSet.ofDocument? }

/-- A report as text, spread over lines. -/
def reportJson (vs : List Violation) : String :=
  String.ofList ((Document.array (vs.map toDocument)).pretty 0)

/-- The report that a text writes. -/
def ofReportJson? (s : String) : Option (List Violation) :=
  (Document.read? s.toList).bind (·.asList? ofDocument?)

end Violation

end ErrorReturns
