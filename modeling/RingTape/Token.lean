/-!
# Tokens

What stands in a cell of the tape, and what the machine is in, are names or nothing: an empty cell
is blank, and a machine without a state has halted.  A program line writes the nothing as an
exclamation mark and a name as itself.
-/

namespace RingTape

/-- What a cell holds; `none` is the blank. -/
abbrev Symbol := Option String

/-- What a machine is in; `none` is the halt state. -/
abbrev State := Option String

/-- The token for the blank and for the halt state. -/
def nullToken : List Char := ['!']

/-- The token that, as the state or value that a rule asks for, is met by every one. -/
def wildcard : String := "*"

def ofToken (token : List Char) : Option String :=
  if token = nullToken then none else some (String.ofList token)

def toToken : Option String → List Char
  | none => nullToken
  | some name => name.toList

theorem toToken_ofToken
    (token : List Char) :
    toToken (ofToken token) = token := by
  unfold ofToken
  split
  · next h => simp [toToken, h]
  · simp [toToken]

end RingTape
