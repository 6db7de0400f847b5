import RingTape.Text.Numeral
import RingTape.Text.Quoted

/-!
# Defaults of a launch

What a command line does not say is taken from the environment, and what the environment does not
say is fixed.  The variables are read before the command line.
-/

namespace RingTape

open Text

/-- The variables of the environment. -/
abbrev Environment := List (String × String)

/-- What a launch uses where the command line is silent. -/
structure Defaults where
  tapeSize : Int
  steps : Int
  pause : Int
  blank : String
  deriving DecidableEq, Repr

/-- A variable that should hold an integer and does not. -/
structure EnvironmentFault where
  name : String
  value : String
  deriving DecidableEq, Repr

def EnvironmentFault.message (f : EnvironmentFault) : String :=
  "error: " ++ f.name ++ " must be an integer, got " ++ quoted f.value

namespace Environment

/-- The integer in a variable.  A variable that is missing or blank holds the default. -/
def integer (env : Environment) (name : String) (default : Int) :
    Except EnvironmentFault Int :=
  match List.lookup name env with
  | none => .ok default
  | some value =>
    if (trim value.toList).isEmpty then .ok default
    else match integer? value.toList with
      | some n => .ok n
      | none => .error ⟨name, value⟩

/-- The defaults in the environment. -/
def defaults (env : Environment) : Except EnvironmentFault Defaults := do
  let tapeSize ← env.integer "TURING_TAPE_SIZE" 32
  let steps ← env.integer "TURING_STEPS" (-1)
  let pause ← env.integer "TURING_PAUSE_MS" 0
  return ⟨tapeSize, steps, pause, (List.lookup "TURING_BLANK" env).getD "_"⟩

end Environment

end RingTape
