import RingTape.Direction
import RingTape.Text.Quoted
import RingTape.Token

/-!
# Rules

A rule says what a machine does in one state when it reads one value: which value it writes, where
the head moves, and which state comes next.  A rule is written as five fields on a line.
-/

namespace RingTape

open Text

/-- What a rule tells the head to do.  A rule that is put together by hand may hold anything in the
place of a direction, which is known here by the text that it is shown as; a machine refuses to
follow it. -/
inductive Move where
  | toward (direction : Direction)
  | undefined (shown : String)
  deriving DecidableEq, Repr, Inhabited

/-- In `currentState` reading `currentValue`, write `nextValue`, move, and go to `nextState`. -/
structure Rule where
  currentState : State
  nextState : State
  currentValue : Symbol
  nextValue : Symbol
  move : Move
  deriving DecidableEq, Repr, Inhabited

/-- The move of a rule is one of the three directions. -/
def Rule.Directed (r : Rule) : Prop :=
  ∃ direction, r.move = .toward direction

instance (r : Rule) : Decidable r.Directed :=
  match h : r.move with
  | .toward direction => .isTrue ⟨direction, h⟩
  | .undefined _ => .isFalse fun ⟨_, h'⟩ => by rw [h] at h'; cases h'

/-- Why a text is no rule. -/
inductive RuleFault where
  /-- The text has `count` fields. -/
  | fieldCount (count : Nat) (text : List Char)
  /-- The last field is no direction. -/
  | direction (text : List Char)
  deriving DecidableEq, Repr

def RuleFault.message : RuleFault → String
  | .fieldCount count text =>
    "Rule needs 5 fields, got " ++ toString count ++ ": " ++ String.ofList (quotedChars text)
  | .direction text => "Unrecognized direction: " ++ String.ofList (quotedChars text)

/-- The direction that a text stands for, or the fault that it is none. -/
def Direction.parse (text : List Char) : Except RuleFault Direction :=
  match Direction.parse? text with
  | some d => .ok d
  | none => .error (.direction text)

namespace Rule

def matchesAnyState (r : Rule) : Bool :=
  r.currentState == some wildcard

def matchesAnyValue (r : Rule) : Bool :=
  r.currentValue == some wildcard

/-- Whether the rule may be followed in `state` with `symbol` under the head. -/
def appliesTo (r : Rule) (state : State) (symbol : Symbol) : Bool :=
  (r.matchesAnyState || r.currentState == state) && (r.matchesAnyValue || r.currentValue == symbol)

/-- The rule that a text stands for.  The last field is all that follows the fourth. -/
def parse (text : List Char) : Except RuleFault Rule :=
  match fieldsUpTo 4 (trim text) with
  | [state, next, value, written, last] => do
    let direction ← Direction.parse last
    return ⟨ofToken state, ofToken next, ofToken value, ofToken written, .toward direction⟩
  | found => .error (.fieldCount found.length (trim text))

/-- The line of a rule.  A rule without a direction has none. -/
def print (r : Rule) : Option (List Char) :=
  match r.move with
  | .toward direction =>
    some (joinWith [' '] [toToken r.currentState, toToken r.nextState, toToken r.currentValue,
      toToken r.nextValue, [direction.code]])
  | .undefined _ => none

end Rule

end RingTape
