import RingTape.FileTree
import RingTape.History.ArrayFile

/-!
# Saved histories

A history is saved as the array file of its matrix.  The matrix is made before the file is opened,
so that a history without one leaves the files alone.
-/

namespace RingTape

/-- Why a history is not saved. -/
inductive SaveFault where
  | history (fault : HistoryFault)
  | file (fault : FileFault)
  deriving DecidableEq, Repr

/-- The files after a history is saved under a path, and the encoding that its matrix was made
with. -/
def History.save (history : History) (encoding : Option Encoding) (path : String)
    (files : FileTree) : FileTree × Except SaveFault Encoding :=
  match history.toMatrix encoding with
  | .error fault => (files, .error (.history fault))
  | .ok (m, used) =>
    match files.write (ArrayFile.path path) (ArrayFile.bytes m) with
    | .error fault => (files, .error (.file fault))
    | .ok saved => (saved, .ok used)

end RingTape
