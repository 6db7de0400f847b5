import RingTape.Ruleset
import RingTape.Table.SymbolGroup
import RingTape.Table.TokenCheck
import RingTape.Table.Transition
import RingTape.TapeSize
import RingTape.Yaml.Fault

/-!
# Rulesets from tables

A table is a document: a mapping from states to mappings from symbols to transitions, with the blank
symbol, the start state and the input beside it.  Each symbol of a group becomes a rule of its own,
in the order in which the groups are written.  A state without transitions is terminal.  The input
is laid out once from the first cell on, and the other cells are blank.
-/

namespace RingTape

open Text

/-- Why a text is no machine in table form. -/
inductive TableFault where
  | tapeSize (fault : TapeSizeFault)
  | document (fault : Yaml.Fault)
  /-- There is no table, or nothing in it. -/
  | noTable
  | token (fault : Table.TokenFault)
  /-- The transitions of this state are no mapping. -/
  | noMapping (state : String)
  | transition (fault : Table.TransitionFault)
  /-- The input has more symbols than the tape has cells. -/
  | inputTooLong (length size : Nat)
  /-- A symbol, a state or the input has no text. -/
  | unshowable
  /-- There are more blank cells than can be counted. -/
  | tooManyCells
  deriving Repr

def TableFault.message : TableFault → String
  | .tapeSize fault => fault.message
  | .document .malformed => "Invalid YAML machine"
  | .document (.value fault) => fault.message
  | .noTable => "YAML machine needs a non-empty 'table' mapping"
  | .token fault => fault.message
  | .noMapping state => "Transitions of state " ++ quoted state ++ " must be a mapping"
  | .transition (.noDirection text) => "No direction (L/R) found in transition: " ++ text
  | .transition (.unreadable text) => "Cannot parse transition value: " ++ text
  | .transition .unshowable | .unshowable => ShowFault.integerTooLong.message
  | .inputTooLong length size =>
    "Input of length " ++ toString length ++ " does not fit a tape of " ++ toString size
  | .tooManyCells => tooManyCellsMessage

namespace Table

/-- The text of a datum, or the fault that it has none. -/
def textOf (d : Datum) : Except TableFault String :=
  match d.toText with
  | .ok text => .ok text
  | .error .integerTooLong => .error .unshowable

def token (kind : TokenKind) (text : String) : Except TableFault String :=
  (checkToken kind text).mapError .token

/-- The symbol that a text stands for.  The blank symbol of the table may be any text. -/
def toSymbol (blank text : String) : Except TableFault Symbol :=
  if text = blank then .ok none else some <$> token .symbol text

/-- The rule for a symbol of an entry. -/
def rule (blank state : String) (value : Datum) (read : String) : Except TableFault Rule := do
  let t ← (Transition.ofDatum state read value).mapError .transition
  let next ← token .state t.next
  let current ← toSymbol blank read
  let written ← toSymbol blank t.write
  return ⟨some state, some next, current, written, .toward t.direction⟩

/-- The rules of an entry, one for each symbol of its group. -/
def entryRules (blank state : String) (key value : Datum) : Except TableFault (List Rule) :=
  match symbolsOf key with
  | .error .integerTooLong => .error .unshowable
  | .ok symbols => symbols.mapM (rule blank state value)

/-- What a table says of a state. -/
inductive Declaration where
  | terminal (name : String)
  | transitions (name : String) (rules : List Rule)
  deriving DecidableEq, Repr

def Declaration.rules : Declaration → List Rule
  | .terminal _ => []
  | .transitions _ rules => rules

def Declaration.terminal? : Declaration → Option String
  | .terminal name => some name
  | .transitions .. => none

/-- What an entry of a table says. -/
def declaration (blank : String) (key value : Datum) : Except TableFault Declaration := do
  let name ← token .state (← textOf key)
  if value.isEmpty then return .terminal name
  match value.entries? with
  | none => throw (.noMapping name)
  | some entries =>
    let rules ← entries.mapM fun (k, v) => entryRules blank name k v
    return .transitions name rules.flatten

/-- The filler for an input: its symbols, and then blanks up to the end of the tape. -/
def filler (blank : String) (size : Nat) (input : String) : Except TableFault (List Symbol) := do
  let symbols ← input.toList.mapM fun c => toSymbol blank (String.singleton c)
  if size < symbols.length then throw (.inputTooLong symbols.length size)
  if maxCells < size - symbols.length then throw .tooManyCells
  return symbols ++ List.replicate (size - symbols.length) none

/-- What is under a key of a document. -/
def field (name : String) (document : List (Datum × Datum)) : Option Datum :=
  Datum.lookup (.text name) document

/-- The start state of a document.  The key is written with a blank or with an underscore. -/
def startField (document : List (Datum × Datum)) : Datum :=
  ((field "start state" document).orElse fun _ => field "start_state" document).getD .null

/-- The entries of the table of a document, if there is one that is not empty. -/
def tableEntries? (document : List (Datum × Datum)) : Option (List (Datum × Datum)) :=
  ((field "table" document).bind Datum.entries?).filter (!·.isEmpty)

/-- The ruleset of a document, on a tape of `size` cells. -/
def ofDatum (size : Nat) (document : Datum) : Except TableFault Ruleset := do
  let some fields := document.entries? | throw .noTable
  let some table := tableEntries? fields | throw .noTable
  let blank ← textOf ((field "blank" fields).getD (.text " "))
  let declarations ← table.mapM fun (key, value) => declaration blank key value
  let start := startField fields
  let first := (table.head?.map (·.1)).getD .null
  let initial ← token .state (← textOf (if start.isNull then first else start))
  let input := (field "input" fields).getD .null
  let pattern ←
    if input.isNull then pure none else some <$> (textOf input >>= filler blank size)
  return {
    rules := declarations.flatMap Declaration.rules
    initialState := some initial
    terminalStates := .ofNames (declarations.filterMap Declaration.terminal?)
    filler := pattern
    tapeSize := size }

/-- The ruleset of a text, for a tape of the given size.  The document in the text is whatever the
loader makes of it. -/
def parse (loader : Yaml.Loader) (size : Datum) (text : List Char) : Except TableFault Ruleset :=
  match RingTape.tapeSize size with
  | .error fault => .error (.tapeSize fault)
  | .ok n =>
    match loader (quoteGroups text) with
    | .error fault => .error (.document fault)
    | .ok document => ofDatum n document

end Table

end RingTape
