import RingTape.Machine.Basic

/-!
# Runs

A run makes steps until the machine halts or a budget of steps is used up.  A run without a budget
needs no more steps than the machine has configurations, up to the position of the head on the ring:
a machine that is still running then repeats itself and never halts.
-/

namespace RingTape

/-- How long a run may last. -/
inductive Budget where
  | steps (count : Nat)
  | unlimited
  deriving DecidableEq, Repr

/-- A negative number of steps stands for no limit. -/
def Budget.ofInt (n : Int) : Budget :=
  if n < 0 then .unlimited else .steps n.toNat

/-- What a run leaves: the machine, the tapes before each step that was tried, and the fault that
ended it, if one did. -/
structure Run where
  machine : Machine
  history : List Tape
  fault : Option StepFault
  deriving DecidableEq, Repr

namespace Machine

/-- The states that the machine can be in from here on. -/
def states (m : Machine) : List String :=
  ((m.state :: m.ruleset.rules.map (·.nextState)).filterMap id).eraseDups

/-- The symbols that can be on the tape from here on. -/
def symbols (m : Machine) : List Symbol :=
  (m.tape ++ m.ruleset.rules.map (·.nextValue)).eraseDups

/-- How many configurations the machine can be in, when the head counts by its cell only. -/
def configurationBound (m : Machine) : Nat :=
  m.tapeSize * m.states.length * Nat.pow m.symbols.length m.tapeSize

/-- The most steps that a run tries. -/
def stepLimit (m : Machine) : Budget → Nat
  | .steps count => count
  | .unlimited => m.configurationBound + 1

/-- At most `limit` steps, until the machine halts. -/
def runSteps : Nat → Machine → Run
  | 0, m => ⟨m, [], none⟩
  | limit + 1, m =>
    if m.halted then ⟨m, [], none⟩
    else match m.step with
      | (next, .error fault) => ⟨next, [m.tape], some fault⟩
      | (next, .ok _) =>
        let rest := runSteps limit next
        { rest with history := m.tape :: rest.history }

/-- A run that keeps the tapes it passes. -/
def run (m : Machine) (budget : Budget) : Run :=
  m.runSteps (m.stepLimit budget)

/-- At most `limit` steps, until the machine halts: the machine then, and the fault that stopped it,
if one did. -/
def advance : Nat → Machine → Machine × Option StepFault
  | 0, m => (m, none)
  | limit + 1, m =>
    if m.halted then (m, none)
    else match m.step with
      | (next, .error fault) => (next, some fault)
      | (next, .ok _) => advance limit next

/-- A run that keeps only the machine it ends with. -/
def runToFinal (m : Machine) (budget : Budget) : Machine × Option StepFault :=
  m.advance (m.stepLimit budget)

end Machine

end RingTape
