import RingTape.Text.LowerCase
import RingTape.Text.Numeral

/-!
# Directions

The three ways in which the head moves over the ring.  A direction is written as an integer, whose
sign tells the way, or as a name in letters of either case, in full or by its first letter.
-/

namespace RingTape

open Text

/-- A movement of the head. -/
inductive Direction where
  | left
  | right
  | stay
  deriving DecidableEq, Repr, Inhabited

namespace Direction

/-- The directions in the order in which a name is compared with theirs. -/
def all : List Direction := [.left, .right, .stay]

/-- What is added to the head. -/
def offset : Direction → Int
  | .left => -1
  | .right => 1
  | .stay => 0

def name : Direction → List Char
  | .left => ['L', 'E', 'F', 'T']
  | .right => ['R', 'I', 'G', 'H', 'T']
  | .stay => ['N', 'O', 'N', 'E']

/-- The letter that stands for a direction in a rule. -/
def code : Direction → Char
  | .left => 'L'
  | .right => 'R'
  | .stay => 'N'

/-- The direction that the sign of an integer tells. -/
def ofOffset (n : Int) : Direction :=
  if n < 0 then .left else if 0 < n then .right else .stay

@[simp]
theorem ofOffset_offset
    (d : Direction) :
    ofOffset d.offset = d := by
  cases d <;> rfl

/-- The direction with this name, or with this first letter, in letters of either case. -/
def ofName? (token : List Char) : Option Direction :=
  let lowered := lower token
  match all.find? fun d => lower d.name == lowered with
  | some d => some d
  | none => all.find? fun d => lower [d.code] == lowered

/-- The direction that a text stands for, blanks around it aside. -/
def parse? (text : List Char) : Option Direction :=
  let token := trim text
  match integer? token with
  | some n => some (ofOffset n)
  | none => ofName? token

theorem parse?_code
    (d : Direction) :
    parse? [d.code] = some d := by
  cases d <;> decide

end Direction

end RingTape
