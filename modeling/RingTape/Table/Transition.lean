import RingTape.Datum.Show
import RingTape.Direction

/-!
# Transitions of a table

A transition says what is written, where the head goes, and which state comes next.  It is either
the letter of a direction alone, or a mapping with a direction as a key and the next state as its
value.  What is not said stays as it is.
-/

namespace RingTape.Table

/-- What a table says about a state and a symbol. -/
structure Transition where
  write : String
  direction : Direction
  next : String
  deriving DecidableEq, Repr

/-- Why a value is no transition. -/
inductive TransitionFault where
  /-- The mapping with this text has no direction. -/
  | noDirection (text : String)
  /-- The value with this text is neither a direction nor a mapping. -/
  | unreadable (text : String)
  /-- The value, or what is named in it, has no text. -/
  | unshowable
  deriving DecidableEq, Repr

/-- The letters of directions in the order in which they are looked for in a mapping. -/
def letters : List (String × Direction) :=
  [("L", .left), ("R", .right)]

namespace Transition

def textOf (d : Datum) : Except TransitionFault String :=
  match d.toText with
  | .ok text => .ok text
  | .error .integerTooLong => .error .unshowable

/-- The direction that a value names. -/
def letter? : Datum → Option Direction
  | .text name => letters.lookup name
  | _ => none

/-- The text of a value, or a default text if there is no value. -/
def textOr (default : String) : Option Datum → Except TransitionFault String
  | none | some .null => .ok default
  | some d => textOf d

/-- The first direction among the keys, and what is under it. -/
def direction? (entries : List (Datum × Datum)) : Option (Direction × Datum) :=
  letters.findSome? fun (name, direction) =>
    (Datum.lookup (.text name) entries).map fun value => (direction, value)

/-- The transition that a value stands for, in a state and on a symbol. -/
def ofDatum (state symbol : String) (value : Datum) : Except TransitionFault Transition :=
  match letter? value with
  | some direction => .ok ⟨symbol, direction, state⟩
  | none =>
    match value.entries? with
    | none => do throw (.unreadable (← textOf value))
    | some entries => do
      let write ← textOr symbol (Datum.lookup (.text "write") entries)
      match direction? entries with
      | none => throw (.noDirection (← textOf value))
      | some (direction, next) => return ⟨write, direction, ← textOr state (some next)⟩

end Transition

end RingTape.Table
