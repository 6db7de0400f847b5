import RingTape.FileTree
import RingTape.Machine.Basic
import RingTape.Program.Parse
import RingTape.Table.Import
import RingTape.Text.Utf8

/-!
# Loading

A program is loaded from a file: a table if the name of the file says so, and else a program of
lines.  Most faults of a file are reported; a few end the launch.
-/

namespace RingTape

open Text

/-- Why a file gives no machine. -/
inductive LoadFault where
  | file (fault : FileFault)
  | encoding (fault : Utf8Fault)
  | program (fault : ProgramFault)
  | table (fault : TableFault)
  | machine (fault : MachineFault)
  deriving Repr

namespace LoadFault

def message : LoadFault → String
  | .file fault => fault.message
  | .encoding fault => fault.message
  | .program fault => fault.message
  | .table fault => fault.message
  | .machine fault => fault.message

/-- Whether a fault is reported.  The others are those of a scalar without a value, of an integer
that is too long to be shown, and of a tape with too many cells. -/
def isReported : LoadFault → Bool
  | .table (.document (.value _)) | .table .unshowable | .table (.transition .unshowable)
  | .table .tooManyCells | .machine .tooManyCells
  | .program (.tapeSize (.unshowable _)) | .table (.tapeSize (.unshowable _))
  | .machine (.tapeSize (.unshowable _)) => false
  | _ => true

end LoadFault

def isTablePath (path : String) : Bool :=
  [".yaml", ".yml"].any fun suffix => suffix.toList.isSuffixOf path.toList

namespace Program

/-- The program in a file. -/
def ofFile (size : Datum) (bytes : List UInt8) : Except LoadFault Ruleset := do
  let text ← (decodeFile bytes).mapError .encoding
  (parseText size text).mapError .program

end Program

namespace Table

/-- The ruleset of the table in a file. -/
def ofFile (loader : Yaml.Loader) (size : Datum) (bytes : List UInt8) :
    Except LoadFault Ruleset := do
  let text ← (decodeFile bytes).mapError .encoding
  (parse loader size text).mapError .table

end Table

namespace Machine

/-- The machine of a file with the given name, on a tape of the given size. -/
def ofFile (loader : Yaml.Loader) (path : String) (size : Int) (bytes : List UInt8) :
    Except LoadFault Machine := do
  let ruleset ←
    if isTablePath path then Table.ofFile loader (.int size) bytes
    else Program.ofFile (.int size) bytes
  (ofRuleset ruleset).mapError .machine

/-- The machine of the file that a path names. -/
def load (loader : Yaml.Loader) (files : FileTree) (path : String) (size : Int) :
    Except LoadFault Machine := do
  let bytes ← (files.read path).mapError .file
  ofFile loader path size bytes

end Machine

end RingTape
