import RingTape.Names
import RingTape.Tape
import RingTape.Text.Quoted

/-!
# Histories as matrices

The history of a run is the list of its tapes.  As a matrix it has a row for each tape and a column
for each cell; a blank is minus one and a symbol is the number that an encoding gives it.  The
numbers are signed words of sixteen bits.  Without an encoding the symbols are numbered in ascending
order.
-/

namespace RingTape

open Text

/-- A list of tapes. -/
abbrev History := List Tape

/-- The number of each symbol. -/
abbrev Encoding := List (String × Int)

/-- A matrix of integers, row by row. -/
structure Matrix where
  rows : Nat
  columns : Nat
  cells : List (List Int)
  deriving DecidableEq, Repr

/-- Why a history has no matrix. -/
inductive HistoryFault where
  /-- The tapes differ in length. -/
  | ragged
  /-- The encoding has no number for a symbol. -/
  | missing (symbol : String)
  /-- A number does not fit into sixteen bits. -/
  | outOfRange (code : Int)
  /-- A number does not even fit into sixty-four bits. -/
  | tooLarge (code : Int)
  deriving DecidableEq, Repr

def HistoryFault.message : HistoryFault → String
  | .ragged => "All snapshots in a history must have the same length"
  | .missing symbol => "Symbol " ++ quoted symbol ++ " is missing from the encoding"
  | .outOfRange code => "Python integer " ++ toString code ++ " out of bounds for int16"
  | .tooLarge _ => "Python int too large to convert to C long"

/-- The number of a blank cell. -/
def blankCode : Int := -1

namespace History

/-- The symbols of a history. -/
def alphabet (history : History) : NameSet :=
  .ofList (history.flatten.filterMap id)

/-- The encoding that numbers names in their order, the first one by `code`. -/
def numberFrom (code : Int) : List String → Encoding
  | [] => []
  | name :: names => (name, code) :: numberFrom (code + 1) names

theorem map_fst_numberFrom
    (code : Int) (names : List String) :
    (numberFrom code names).map (·.1) = names := by
  induction names generalizing code with
  | nil => rfl
  | cons name names ih => simp [numberFrom, ih]

/-- The encoding that numbers the symbols of a history in ascending order, from zero. -/
def autoEncoding (history : History) : Encoding :=
  numberFrom 0 history.alphabet.toList

/-- The first number past a signed word of sixty-four bits, the largest that is looked at. -/
def wordBound : Int := 9223372036854775808

/-- The first number past a cell of the matrix, a signed word of sixteen bits. -/
def cellBound : Int := 32768

/-- A number that fits into a cell of the matrix. -/
def checkCode (code : Int) : Except HistoryFault Int :=
  if code < -wordBound || wordBound ≤ code then .error (.tooLarge code)
  else if code < -cellBound || cellBound ≤ code then .error (.outOfRange code)
  else .ok code

/-- The number of a cell. -/
def encodeCell (encoding : Encoding) : Symbol → Except HistoryFault Int
  | none => .ok blankCode
  | some name =>
    match encoding.lookup name with
    | none => .error (.missing name)
    | some code => checkCode code

/-- The matrix of a history, and the encoding that it was made with.  A history without tapes has no
columns either. -/
def toMatrix (history : History) (encoding : Option Encoding) :
    Except HistoryFault (Matrix × Encoding) :=
  match history with
  | [] => .ok (⟨0, 0, []⟩, encoding.getD [])
  | first :: _ =>
    if history.any (·.length != first.length) then .error .ragged
    else do
      let encoding := encoding.getD history.autoEncoding
      let cells ← history.mapM fun tape => tape.mapM (encodeCell encoding)
      return (⟨history.length, first.length, cells⟩, encoding)

end History

end RingTape
