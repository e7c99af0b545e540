import ErrorReturns.Decimal.Layout
import ErrorReturns.Decimal.Reader
import ErrorReturns.SortedSet
import ErrorReturns.Text.Blank

/-!
# Settings of an analysis

An analysis is set up by pairs of a key and a value, both texts, or by a document with the
same keys. Four settings are fractions between zero and one. A pair is applied as a whole or
not at all; after the last pair the settings are checked once more.
-/

namespace ErrorReturns

/-- What is wrong with a setting. -/
inductive SettingsError where
  | unknownKey (key : String)
  | invalidValue (key value : String)
  | outOfRange (key : String) (value : Float)
  /-- The document is not one of settings. -/
  | malformed
deriving Repr

/-- The description of an error. -/
def SettingsError.message : SettingsError → String
  | unknownKey key => s!"unknown configuration key: {key}"
  | invalidValue key value => s!"invalid value for {key}: {value}"
  | outOfRange key value => s!"{key} must be within [0, 1], got {Decimal.renderPlain value}"
  | malformed => "malformed configuration document"

/-- The settings of an analysis. -/
structure Settings where
  /-- The share of calls on error paths from which on a function is an error handler. -/
  associationConfidence : Float := 0.925
  /-- The share of observations that a set of values needs to be kept. -/
  intervalConfidence : Float := 0.5
  /-- The least score of a reported incorrect check. -/
  incorrectThreshold : Float := 0.725
  /-- The least score of a reported missing check. -/
  missingThreshold : Float := 0.725
  /-- Refine what was observed by what functions can return. -/
  refineRanges : Bool := true
  /-- The names of the functions to analyse; all of them if there is none. -/
  allowlist : SortedSet String := {}
  /-- How many workers may share the modules. -/
  threads : Nat := 2
  /-- Show the conditions that were found. -/
  showChecks : Bool := false
deriving Repr

namespace Settings

/-! ## Keys -/

/-- The name of a setting. -/
inductive Key where
  | associationConfidence
  | intervalConfidence
  | incorrectThreshold
  | missingThreshold
  | refineRanges
  | allowlist
  | threads
  | showChecks
deriving DecidableEq, Repr

namespace Key

/-- Every key, in the order in which settings are written. -/
def all : List Key :=
  [associationConfidence, intervalConfidence, incorrectThreshold, missingThreshold, refineRanges,
    allowlist, threads, showChecks]

/-- The written form of a key. -/
def name : Key → String
  | associationConfidence => "association-confidence"
  | intervalConfidence => "interval-confidence"
  | incorrectThreshold => "incorrect-check-threshold"
  | missingThreshold => "missing-check-threshold"
  | refineRanges => "refine-vsa"
  | allowlist => "allowlist"
  | threads => "threads"
  | showChecks => "show-safety-checks"

/-- The key of a given name. -/
def ofName? (name : String) : Option Key := all.find? fun k => k.name == name

end Key

/-! ## Values -/

/-- Whether a number is a fraction between zero and one. -/
def isFraction (x : Float) : Bool := 0 ≤ x && x ≤ 1

/-- A fraction that is one. -/
def checkFraction (key : Key) (x : Float) : Except SettingsError Float :=
  if isFraction x then .ok x else .error (.outOfRange key.name x)

/-- A value that can be read. -/
def required {α : Type} (key : Key) (value : List Char) (read : List Char → Option α) :
    Except SettingsError α :=
  match read value with
  | some v => .ok v
  | none => .error (.invalidValue key.name (String.ofList value))

/-- A truth value. -/
def readBool? (s : List Char) : Option Bool :=
  if s = "true".toList then some true else if s = "false".toList then some false else none

/-- The names in a list with commas. -/
def splitNames (s : List Char) : SortedSet String :=
  .ofList ((((Text.split ',' s).map Text.trim).filter (· ≠ [])).map String.ofList)

/-- The names of a set as a list with commas. -/
def joinNames (names : SortedSet String) : List Char :=
  Text.join ',' (names.toList.map String.toList)

/-- A fraction that can be read. -/
def readFraction (key : Key) (value : List Char) : Except SettingsError Float := do
  checkFraction key (← required key value Decimal.read?)

/-! ## Changes -/

/-- A change of settings in place. It may fail, and whatever it has changed by then stays
changed. -/
abbrev Change := ExceptT SettingsError (StateM Settings)

/-- The outcome of a change, and the settings that it leaves. -/
def Change.apply {α : Type} (c : Change α) (s : Settings) : Except SettingsError α × Settings :=
  c.run.run s

/-- Read a value, and then put it into a field. -/
def store {α : Type} (read : Except SettingsError α) (put : Settings → α → Settings) :
    Change Unit := do
  let v ← read
  modify fun s => put s v

/-- Put a value, without blanks around it, at a key. -/
def assign (key : Key) (value : List Char) : Change Unit :=
  match key with
  | .associationConfidence =>
    store (readFraction key value) fun s x => { s with associationConfidence := x }
  | .intervalConfidence =>
    store (readFraction key value) fun s x => { s with intervalConfidence := x }
  | .incorrectThreshold =>
    store (readFraction key value) fun s x => { s with incorrectThreshold := x }
  | .missingThreshold =>
    store (readFraction key value) fun s x => { s with missingThreshold := x }
  | .refineRanges =>
    store (required key value readBool?) fun s b => { s with refineRanges := b }
  | .allowlist => modify fun s => { s with allowlist := splitNames value }
  | .threads =>
    store (required key value Decimal.readNat64?) fun s n => { s with threads := n }
  | .showChecks =>
    store (required key value readBool?) fun s b => { s with showChecks := b }

/-- **Apply one pair** in place. -/
def change (key value : String) : Change Unit :=
  match Key.ofName? key with
  | some k => assign k (Text.trim value.toList)
  | none => throw (.unknownKey key)

/-- The settings after a change that does not fail. -/
def after (s : Settings) (c : Change Unit) : Except SettingsError Settings :=
  match c.apply s with
  | (.ok _, s') => .ok s'
  | (.error e, _) => .error e

/-- The settings with one pair applied. -/
def set (s : Settings) (key value : String) : Except SettingsError Settings :=
  s.after (change key value)

/-- The settings, if the fractions are fractions and there is at least one worker. -/
def validate (s : Settings) : Except SettingsError Settings := do
  let _ ← checkFraction .associationConfidence s.associationConfidence
  let _ ← checkFraction .intervalConfidence s.intervalConfidence
  let _ ← checkFraction .incorrectThreshold s.incorrectThreshold
  let _ ← checkFraction .missingThreshold s.missingThreshold
  if s.threads = 0 then throw (.invalidValue Key.threads.name "0")
  return s

/-- **Settings from pairs**, applied in order to the defaults. -/
def ofPairs (pairs : List (String × String)) : Except SettingsError Settings := do
  let s ← after {} (pairs.forM fun p => change p.1 p.2)
  s.validate

/-- Whether a function of a given name is analysed. -/
def isAllowed (s : Settings) (name : String) : Bool := s.allowlist.isEmpty || name ∈ s.allowlist

end Settings

end ErrorReturns
