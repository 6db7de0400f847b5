import RingTape.Machine.Run

/-!
# Reported runs

A run that tells what it does: the machine at its start, each rule that is followed, and how the run
ends.
-/

namespace RingTape

open Text

/-- What a reported run leaves: the run and the lines it wrote. -/
structure Report where
  run : Run
  lines : List String
  deriving Repr

namespace Machine

def stateToken (m : Machine) : String :=
  String.ofList (toToken m.state)

/-- The cell that the head is on, in decimal. -/
def headText (m : Machine) : String :=
  match m.head with
  | none => ""
  | some head => toString (Tape.cell head m.tapeSize)

/-- The terminal states as tokens, quoted, in ascending order. -/
def terminalText (r : Ruleset) : String :=
  let tokens := (r.terminalStates.toList.map fun state => String.ofList (toToken state)).mergeSort
  "[" ++ String.intercalate ", " (tokens.map quoted) ++ "]"

/-- What is told before the first step. -/
def openingLines (m : Machine) : List String :=
  [ "Initial state: " ++ m.state.getD "None" ++ ", Terminal states: " ++ terminalText m.ruleset,
    "Tape size: " ++ toString m.tapeSize ++ ", Program has " ++
      toString m.ruleset.rules.length ++ " rules",
    String.ofList (List.replicate 60 '-') ]

/-- What is told of the step with the given number, from `m` to `next`. -/
def stepLine (number : Nat) (proceed : Bool) (m next : Machine) : String :=
  if proceed then
    "Step " ++ toString number ++ ": State=" ++ m.stateToken ++ ", Head=" ++ m.headText ++
      " -> Next=" ++ next.stateToken ++ ", Head=" ++ next.headText
  else "\nNo further progress from state=" ++ m.stateToken ++ ". Halting."

/-- At most `limit` steps, the first with the given number, until the machine halts. -/
def reportSteps : Nat → Nat → Machine → Report
  | 0, _, m => ⟨⟨m, [], none⟩, []⟩
  | limit + 1, number, m =>
    if m.halted then ⟨⟨m, [], none⟩, []⟩
    else match m.step with
      | (next, .error fault) => ⟨⟨next, [m.tape], some fault⟩, []⟩
      | (next, .ok proceed) =>
        let rest := reportSteps limit (number + 1) next
        { run := { rest.run with history := m.tape :: rest.run.history }
          lines := stepLine number proceed m next :: rest.lines }

/-- What is told when a run has ended without a fault. -/
def closingLines (m : Machine) : List String :=
  if m.halted then ["\nMachine halted after " ++ toString m.stepsTaken ++ " steps."] else []

/-- A run that tells what it does. -/
def report (m : Machine) (budget : Budget) : Report :=
  let steps := m.reportSteps (m.stepLimit budget) 1
  { steps with lines := m.openingLines ++ steps.lines ++ steps.run.machine.closingLines }

end Machine

def Report.text (r : Report) : String :=
  String.join (r.lines.map (· ++ "\n"))

end RingTape
