import RingTape.Table.Import
import RingTape.Tape

/-!
# The machine that a table describes

A table can be read as a machine without any rules.  Its cells hold the texts of symbols, a blank
cell the text of the blank symbol, and its state is the text of a key of the table.  In each move it
looks its state up in the table, and then the first entry there whose group has the symbol under the
head.  The entry says what is written, where the head goes and which state comes next; what it does
not say stays as it is.  Where no entry is found the machine stops.
-/

namespace RingTape

open Table

/-- What a document says of a machine. -/
structure TableMachine where
  /-- The text of the blank symbol. -/
  blank : String
  /-- What can be done in each state. -/
  table : List (Datum × Datum)
  start : String
  /-- The texts of the first cells. -/
  input : List String
  deriving Repr

namespace TableMachine

/-- Where the head is, the state, and the text in each cell. -/
structure Point where
  head : Int
  state : String
  cells : List String
  deriving DecidableEq, Repr

/-- The text of a datum. -/
def word (d : Datum) : String :=
  d.toText.toOption.getD ""

/-- The text of what is under a key, or a default where there is nothing. -/
def wordOr (default : String) : Option Datum → String
  | none | some .null => default
  | some d => word d

/-- The symbols of a group. -/
def group (key : Datum) : List String :=
  (symbolsOf key).toOption.getD []

/-- The machine of a document. -/
def ofDatum (document : Datum) : TableMachine :=
  let fields := document.entries?.getD []
  let table := ((field "table" fields).bind Datum.entries?).getD []
  let first := (table.head?.map (·.1)).getD .null
  let declared := startField fields
  { blank := word ((field "blank" fields).getD (.text " "))
    table
    start := word (if declared.isNull then first else declared)
    input := (wordOr "" (field "input" fields)).toList.map String.singleton }

/-- The keys of the table have different texts. -/
def Distinct (t : TableMachine) : Prop :=
  (t.table.map fun entry => word entry.1).Nodup

instance (t : TableMachine) : Decidable t.Distinct :=
  inferInstanceAs (Decidable (List.Nodup _))

/-- The table has an entry for the state that has no transitions. -/
def Ends (t : TableMachine) (state : String) : Prop :=
  ∃ entry ∈ t.table, word entry.1 = state ∧ entry.2.isEmpty = true

instance (t : TableMachine) (state : String) : Decidable (t.Ends state) :=
  inferInstanceAs (Decidable (∃ entry ∈ t.table, word entry.1 = state ∧ entry.2.isEmpty = true))

/-- The table has an entry for the state that has a transition for some symbol. -/
def Acts (t : TableMachine) (state : String) : Prop :=
  ∃ entry ∈ t.table, word entry.1 = state ∧
    ∃ way ∈ entry.2.entries?.getD [], group way.1 ≠ []

instance (t : TableMachine) (state : String) : Decidable (t.Acts state) :=
  inferInstanceAs (Decidable (∃ entry ∈ t.table, word entry.1 = state ∧
    ∃ way ∈ entry.2.entries?.getD [], group way.1 ≠ []))

/-- What the table says of a state. -/
def entries (t : TableMachine) (state : String) : List (Datum × Datum) :=
  (((t.table.find? fun entry => word entry.1 = state).map (·.2)).bind Datum.entries?).getD []

/-- What a value says of a state and a symbol. -/
def action? (state symbol : String) (value : Datum) : Option Transition :=
  match value with
  | .text "L" => some ⟨symbol, .left, state⟩
  | .text "R" => some ⟨symbol, .right, state⟩
  | value =>
    value.entries?.bind fun entries =>
      let write := wordOr symbol (field "write" entries)
      match field "L" entries, field "R" entries with
      | some next, _ => some ⟨write, .left, wordOr state (some next)⟩
      | none, some next => some ⟨write, .right, wordOr state (some next)⟩
      | none, none => none

/-- What the table says of a state and a symbol. -/
def lookUp (t : TableMachine) (state symbol : String) : Option Transition :=
  ((t.entries state).find? fun entry => (group entry.1).contains symbol).bind fun entry =>
    action? state symbol entry.2

/-- The point where a machine starts on a ring of `size` cells. -/
def origin (t : TableMachine) (size : Nat) : Point :=
  ⟨0, t.start, t.input ++ List.replicate (size - t.input.length) t.blank⟩

/-- The point after a move, unless the machine stops. -/
def move (t : TableMachine) (p : Point) : Option Point :=
  let cell := Tape.cell p.head p.cells.length
  p.cells[cell]?.bind fun symbol =>
    (t.lookUp p.state symbol).map fun a =>
      ⟨p.head + a.direction.offset, a.next, p.cells.set cell a.write⟩

/-- What at most so many tries at a move lead to. -/
structure Travel where
  /-- The points at which a move was tried. -/
  points : List Point
  last : Point
  moves : Nat
  stopped : Bool
  deriving DecidableEq, Repr

/-- At most `limit` tries at a move, until the machine stops. -/
def travel (t : TableMachine) : Nat → Point → Travel
  | 0, p => ⟨[], p, 0, false⟩
  | limit + 1, p =>
    match t.move p with
    | none => ⟨[p], p, 0, true⟩
    | some next =>
      let rest := t.travel limit next
      { rest with points := p :: rest.points, moves := rest.moves + 1 }

end TableMachine

end RingTape
