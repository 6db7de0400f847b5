import RingTape.Ruleset
import RingTape.Tape
import RingTape.TapeSize

/-!
# Machines

A machine runs a ruleset on a ring of cells.  In each step it looks for the first rule that applies
to its state and to the cell under its head.  It halts in a terminal state and where no rule
applies; a halted machine has no head position and no state, and its steps change nothing.
-/

namespace RingTape

/-- Head, state and tape at one point of a run. -/
structure Configuration where
  head : Option Int
  state : State
  tape : Tape
  deriving DecidableEq, Repr, Inhabited

/-- Whether nothing can follow: there is no head position or no state. -/
def Configuration.halted (c : Configuration) : Bool :=
  c.head.isNone || c.state.isNone

theorem Configuration.halted_iff
    (c : Configuration) :
    c.halted = true ↔ c.head = none ∨ c.state = none := by
  simp [halted]

/-- The configuration that a step leads to, and whether a rule was followed. -/
structure StepResult where
  proceed : Bool
  configuration : Configuration
  deriving DecidableEq, Repr

/-- Why a step cannot be made. -/
inductive StepFault where
  /-- The tape has no cell where the head is. -/
  | offTape
  /-- The rule to be followed holds something else in the place of a direction. -/
  | undefinedMove (shown : String)
  deriving DecidableEq, Repr

def StepFault.message : StepFault → String
  | .offTape => "tuple index out of range"
  | .undefinedMove shown => "Unexpected direction: " ++ shown

/-- A machine at some point of its run. -/
structure Machine where
  ruleset : Ruleset
  tapeSize : Nat
  configuration : Configuration
  /-- How many steps have followed a rule. -/
  stepsTaken : Nat
  deriving DecidableEq, Repr, Inhabited

/-- Why a ruleset gives no machine. -/
inductive MachineFault where
  | tapeSize (fault : TapeSizeFault)
  /-- There are more cells than can be numbered. -/
  | tooManyCells
  deriving Repr

def MachineFault.message : MachineFault → String
  | .tapeSize fault => fault.message
  | .tooManyCells => tooManyCellsMessage

namespace Machine

/-- The tape that a ruleset starts on. -/
def initialTape (r : Ruleset) (size : Nat) : Tape :=
  Tape.tile size (r.filler.getD [])

/-- The machine that starts a ruleset on a ring of `size` cells. -/
def start (r : Ruleset) (size : Nat) : Machine :=
  ⟨r, size, ⟨some 0, r.initialState, initialTape r size⟩, 0⟩

/-- The machine that starts a ruleset on a ring whose size comes from outside. -/
def create (r : Ruleset) (size : Datum) : Except MachineFault Machine :=
  match RingTape.tapeSize size with
  | .error fault => .error (.tapeSize fault)
  | .ok n =>
    if maxCells < n / max 1 (r.filler.getD []).length then .error .tooManyCells
    else .ok (start r n)

/-- The machine that starts a ruleset on a ring of its own size. -/
def ofRuleset (r : Ruleset) : Except MachineFault Machine :=
  create r (.int r.tapeSize)

theorem length_initialTape
    (r : Ruleset) (size : Nat) :
    (initialTape r size).length = size :=
  Tape.length_tile size _

def tape (m : Machine) : Tape := m.configuration.tape

def state (m : Machine) : State := m.configuration.state

def head (m : Machine) : Option Int := m.configuration.head

def halted (m : Machine) : Bool := m.configuration.halted

/-- What a step makes of a configuration, whether the machine is in it or not. -/
def transition (m : Machine) (c : Configuration) : Except StepFault StepResult :=
  match c.head, c.state with
  | some head, some state =>
    if m.ruleset.isTerminal (some state) then .ok ⟨false, ⟨none, none, c.tape⟩⟩
    else
      let position := Tape.cell head m.tapeSize
      match c.tape[position]? with
      | none => .error .offTape
      | some symbol =>
        match m.ruleset.findRule (some state) symbol with
        | none => .ok ⟨false, ⟨none, none, c.tape⟩⟩
        | some rule =>
          match rule.move with
          | .undefined shown => .error (.undefinedMove shown)
          | .toward direction => .ok
            ⟨true, ⟨some (head + direction.offset), rule.nextState,
              c.tape.set position rule.nextValue⟩⟩
  | _, _ => .ok ⟨false, ⟨none, none, c.tape⟩⟩

/-- One step: the machine after it, and whether a rule was followed. -/
def step (m : Machine) : Machine × Except StepFault Bool :=
  match m.transition m.configuration with
  | .error fault => (m, .error fault)
  | .ok result =>
    ({ m with
        configuration := result.configuration
        stepsTaken := if result.proceed then m.stepsTaken + 1 else m.stepsTaken },
      .ok result.proceed)

end Machine

end RingTape
