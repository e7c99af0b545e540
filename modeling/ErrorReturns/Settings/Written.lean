import ErrorReturns.Document.Printer
import ErrorReturns.Document.Reader
import ErrorReturns.Document.Record
import ErrorReturns.Settings

/-!
# Settings in documents

Settings are written as a record with their keys as fields. Every field may be left out, and
then keeps its default; no other field is accepted. The list of names travels as one text.
-/

namespace ErrorReturns.Settings

/-- The fields of written settings. -/
def shape : RecordShape where
  fields := Key.all.map Key.name
  refuseOthers := true
  allowShort := true

/-- The value of a field, or the default if it is not given. -/
def given {α : Type} (read : Document → Option α) (default : α) : Option Document → Option α
  | some d => read d
  | none => some default

/-- A set of names as a document, which is one text. -/
def writeNames (names : SortedSet String) : Document := .ofString (String.ofList (joinNames names))

/-- The names that a document lists. -/
def readNames? (d : Document) : Option (SortedSet String) := d.asString?.map (splitNames ·.toList)

/-- The settings that a document writes, before they are checked. -/
def ofDocument? (d : Document) : Option Settings := do
  let [association, interval, incorrect, missing, refine, names, threads, showChecks] ←
    shape.read? d | none
  let defaults : Settings := {}
  return {
    associationConfidence := ← given Document.asFloat? defaults.associationConfidence association
    intervalConfidence := ← given Document.asFloat? defaults.intervalConfidence interval
    incorrectThreshold := ← given Document.asFloat? defaults.incorrectThreshold incorrect
    missingThreshold := ← given Document.asFloat? defaults.missingThreshold missing
    refineRanges := ← given Document.asBool? defaults.refineRanges refine
    allowlist := ← given readNames? defaults.allowlist names
    threads := ← given (Document.asNat? 64) defaults.threads threads
    showChecks := ← given Document.asBool? defaults.showChecks showChecks }

/-- **Settings from a text.** -/
def ofJson (s : String) : Except SettingsError Settings :=
  match (Document.read? s.toList).bind ofDocument? with
  | some settings => settings.validate
  | none => .error .malformed

/-- The settings as a document. -/
def toDocument (s : Settings) : Document :=
  .ofRecord [
    (Key.associationConfidence.name, .ofFloat s.associationConfidence),
    (Key.intervalConfidence.name, .ofFloat s.intervalConfidence),
    (Key.incorrectThreshold.name, .ofFloat s.incorrectThreshold),
    (Key.missingThreshold.name, .ofFloat s.missingThreshold),
    (Key.refineRanges.name, .bool s.refineRanges),
    (Key.allowlist.name, writeNames s.allowlist),
    (Key.threads.name, .ofInt s.threads),
    (Key.showChecks.name, .bool s.showChecks)]

/-- The settings as text. -/
def toJson (s : Settings) : String := String.ofList s.toDocument.compact

end ErrorReturns.Settings
