import RingTape.Program.Line
import RingTape.Ruleset
import RingTape.TapeSize
import RingTape.Text.Utf8

/-!
# Programs

A program is read line by line, up to the first line that is at fault.  The initial state is the
first one declared, wherever it stands, and else the state of the first rule.
-/

namespace RingTape

open Text

/-- Why lines are no program. -/
inductive ProgramFault where
  | tapeSize (fault : TapeSizeFault)
  /-- The line with this number, counted from one, is at fault. -/
  | line (number : Nat) (text : List Char) (fault : LineFault)
  /-- No initial state is declared, and there is no rule to take it from. -/
  | noInitialState
  deriving Repr

def ProgramFault.message : ProgramFault → String
  | .tapeSize fault => fault.message
  | .line number text fault =>
    "line " ++ toString number ++ ": " ++ fault.message ++ " (" ++
      String.ofList (quotedChars text) ++ ")"
  | .noInitialState => "No initial state declared and no rules to take it from"

namespace Program

/-- What the lines say, the first of them having the given number. -/
def items (number : Nat) : List (List Char) → Except ProgramFault (List Item)
  | [] => .ok []
  | raw :: rest =>
    let line := dropLineEnd raw
    match Item.ofLine line with
    | .error fault => .error (.line number line fault)
    | .ok item => (item :: ·) <$> items (number + 1) rest

/-- The rules among the items. -/
def rules (items : List Item) : List Rule :=
  items.filterMap fun
    | .rule r => some r
    | _ => none

def terminals (items : List Item) : List String :=
  items.filterMap fun
    | .terminal name => some name
    | _ => none

/-- The first initial state among the items. -/
def initial? (items : List Item) : Option String :=
  items.findSome? fun
    | .initial name => some name
    | _ => none

def fillers (items : List Item) : List (List Symbol) :=
  items.filterMap fun
    | .filler symbols => some symbols
    | _ => none

/-- All fillers one after the other, if there is one. -/
def filler? (items : List Item) : Option (List Symbol) :=
  match fillers items with
  | [] => none
  | found => some found.flatten

/-- The state that a program of these items starts in. -/
def initialState? (items : List Item) : Option State :=
  match initial? items with
  | some name => some (some name)
  | none => (rules items).head?.map (·.currentState)

/-- The program that the items make up. -/
def assemble (tapeSize : Nat) (items : List Item) : Except ProgramFault Ruleset :=
  match initialState? items with
  | none => .error .noInitialState
  | some initialState => .ok
    { rules := rules items
      initialState
      terminalStates := .ofNames (terminals items)
      filler := filler? items
      tapeSize }

/-- The program on these lines, for a tape of the given size.  A line may still have its end. -/
def parse (size : Datum) (lines : List (List Char)) : Except ProgramFault Ruleset :=
  match RingTape.tapeSize size with
  | .error fault => .error (.tapeSize fault)
  | .ok tapeSize => items 1 lines >>= assemble tapeSize

def parseText (size : Datum) (text : List Char) : Except ProgramFault Ruleset :=
  parse size (lines text)

end Program

end RingTape
