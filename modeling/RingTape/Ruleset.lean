import RingTape.Names
import RingTape.Rule

/-!
# Rulesets

A ruleset is a whole program: its rules in order of precedence, the state it starts in, the states
it halts in, and the pattern that fills its tape.  It is written out one item a line.
-/

namespace RingTape

open Text

/-- The states in which a machine halts: whether the halt state is among them, and the named
ones. -/
structure TerminalStates where
  halt : Bool
  named : NameSet
  deriving DecidableEq, Repr, Inhabited

namespace TerminalStates

def ofList (states : List State) : TerminalStates :=
  ⟨states.contains none, .ofList (states.filterMap id)⟩

/-- The halt state and the named ones. -/
def ofNames (names : List String) : TerminalStates :=
  ⟨true, .ofList names⟩

/-- The halt state first, if it is a member, and then the named ones in order. -/
def toList (t : TerminalStates) : List State :=
  (if t.halt then [none] else []) ++ t.named.toList.map some

end TerminalStates

/-- A program.  A ruleset that is read from a text has a positive tape size. -/
structure Ruleset where
  rules : List Rule
  initialState : State
  terminalStates : TerminalStates
  filler : Option (List Symbol)
  tapeSize : Nat
  deriving DecidableEq, Repr, Inhabited

namespace Ruleset

/-- Every rule moves the head in one of the three directions. -/
def Directed (r : Ruleset) : Prop :=
  ∀ rule ∈ r.rules, rule.Directed

instance (r : Ruleset) : Decidable r.Directed :=
  inferInstanceAs (Decidable (∀ rule ∈ r.rules, rule.Directed))

/-- Whether a machine in this state halts.  The halt state is terminal whether it is listed or
not. -/
def isTerminal (r : Ruleset) : State → Bool
  | none => true
  | some name => decide (name ∈ r.terminalStates.named)

/-- The first rule that applies. -/
def findRule (r : Ruleset) (state : State) (symbol : Symbol) : Option Rule :=
  r.rules.find? (·.appliesTo state symbol)

theorem appliesTo_of_findRule
    {r : Ruleset} {state : State} {symbol : Symbol} {rule : Rule}
    (h : r.findRule state symbol = some rule) :
    rule ∈ r.rules ∧ rule.appliesTo state symbol = true := by
  unfold findRule at h
  exact ⟨List.mem_of_find?_eq_some h, by simpa using List.find?_some h⟩

/-- The line of the initial state, unless it is the halt state. -/
def initialLines (r : Ruleset) : List (List Char) :=
  match r.initialState with
  | none => []
  | some name => ['~' :: name.toList]

/-- The line of the tape filler, if there is one. -/
def fillerLines (r : Ruleset) : List (List Char) :=
  match r.filler with
  | none => []
  | some symbols => ['@' :: joinWith [' '] (symbols.map toToken)]

/-- The lines of the program: the initial state, the terminal states in ascending order, the tape
filler, and the rules.  There are none where a rule has no line. -/
def print (r : Ruleset) : Option (List (List Char)) := do
  let ruleLines ← r.rules.mapM Rule.print
  return r.initialLines ++ r.terminalStates.named.toList.map (fun name => '#' :: name.toList) ++
    r.fillerLines ++ ruleLines

end Ruleset

end RingTape
