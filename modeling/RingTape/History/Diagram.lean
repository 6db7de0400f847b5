import RingTape.History.Encoding

/-!
# Space-time diagrams

The picture of a history: time runs down, and the cells run across.  Blank cells show the
background.
-/

namespace RingTape

/-- What a diagram shows.  A history without cells has no image. -/
structure Diagram where
  title : String
  across : String
  down : String
  image : Option (List (List (Option Int)))
  deriving DecidableEq, Repr

namespace Diagram

def defaultTitle (history : History) (encoding : Encoding) : String :=
  "Tape history (" ++ toString history.length ++ " steps, " ++ toString encoding.length ++
    " symbols)"

/-- A number of the matrix, unless it shows the background. -/
def visible (code : Int) : Option Int :=
  if code = blankCode then none else some code

/-- The diagram of a history.  An empty title counts as none. -/
def ofHistory (history : History) (title : Option String) : Except HistoryFault Diagram := do
  let (matrix, encoding) ← history.toMatrix none
  let title := title.getD ""
  return {
    title := if title.isEmpty then defaultTitle history encoding else title
    across := "Cell"
    down := "Step"
    image :=
      if matrix.rows * matrix.columns = 0 then none
      else some (matrix.cells.map (·.map visible)) }

end Diagram

end RingTape
