import RingTape.Text.Blank
import RingTape.Text.Quoted

/-!
# File trees

The files and directories below a working directory.  A path is walked component by component from
there; the tree knows nothing of what lies outside of the working directory.
-/

namespace RingTape

open Text

/-- Why a file cannot be read or written.  Each fault holds the path as it was given. -/
inductive FileFault where
  | missing (path : String)
  | notADirectory (path : String)
  | isADirectory (path : String)
  deriving DecidableEq, Repr

def FileFault.message : FileFault → String
  | .missing path => "[Errno 2] No such file or directory: " ++ quoted path
  | .notADirectory path => "[Errno 20] Not a directory: " ++ quoted path
  | .isADirectory path => "[Errno 21] Is a directory: " ++ quoted path

/-- The components of a path below the working directory. -/
abbrev Place := List String

/-- The files, with their bytes, and the directories.  Directories that hold something need not be
listed. -/
structure FileTree where
  files : List (Place × List UInt8)
  directories : List Place
  deriving DecidableEq, Repr, Inhabited

namespace FileTree

/-- The components of a path.  A path that ends in a slash has an empty last one. -/
def components (path : String) : List String :=
  (splitWhere (· == '/') path.toList).map String.ofList

/-- Whether a component stands for the directory that it is looked up in. -/
def isHere (component : String) : Bool :=
  component == "" || component == "."

def file? (t : FileTree) (place : Place) : Option (List UInt8) :=
  t.files.lookup place

def isDirectory (t : FileTree) (place : Place) : Bool :=
  place.isEmpty ||
    (t.directories ++ t.files.map fun file => file.1.dropLast).any place.isPrefixOf

/-- What a path names. -/
inductive Target where
  | directory
  | file (place : Place)
  /-- There is nothing at this place of a directory.  A path with a slash at its end asks for a
  directory there. -/
  | vacant (place : Place) (slash : Bool)
  deriving DecidableEq, Repr

/-- What the components of a path name, looked up from the directory at `place`. -/
def walk (t : FileTree) (path : String) (place : Place) : List String → Except FileFault Target
  | [] => .ok .directory
  | component :: rest =>
    if isHere component then t.walk path place rest
    else if component == ".." then
      if place.isEmpty then .error (.missing path) else t.walk path place.dropLast rest
    else
      let next := place ++ [component]
      if t.isDirectory next then t.walk path next rest
      else
        match t.file? next with
        | some _ => if rest.isEmpty then .ok (.file next) else .error (.notADirectory path)
        | none =>
          if rest.isEmpty then .ok (.vacant next false)
          else if rest = [""] then .ok (.vacant next true)
          else .error (.missing path)

/-- What a path names. -/
def target (t : FileTree) (path : String) : Except FileFault Target :=
  if path.isEmpty || path.toList.head? = some '/' then .error (.missing path)
  else t.walk path [] (components path)

/-- The bytes of the file that a path names. -/
def read (t : FileTree) (path : String) : Except FileFault (List UInt8) := do
  match ← t.target path with
  | .directory => throw (.isADirectory path)
  | .vacant .. => throw (.missing path)
  | .file place => return (t.file? place).getD []

/-- The files with the one at a place written anew. -/
def put (place : Place) (bytes : List UInt8) :
    List (Place × List UInt8) → List (Place × List UInt8)
  | [] => [(place, bytes)]
  | (p, old) :: rest =>
    if p = place then (place, bytes) :: rest else (p, old) :: put place bytes rest

theorem lookup_put
    (place : Place) (bytes : List UInt8) (files : List (Place × List UInt8)) :
    (put place bytes files).lookup place = some bytes := by
  induction files with
  | nil => simp [put]
  | cons entry rest ih =>
    simp only [put]
    split
    · simp
    · next h =>
      have hne : (place == entry.1) = false := beq_eq_false_iff_ne.2 (Ne.symm h)
      rw [List.lookup_cons, hne]
      exact ih

/-- The tree after bytes are written to the file that a path names.  The file need not be there, but
its directory must. -/
def write (t : FileTree) (path : String) (bytes : List UInt8) : Except FileFault FileTree := do
  match ← t.target path with
  | .directory => throw (.isADirectory path)
  | .vacant _ true => throw (.isADirectory path)
  | .vacant place false => return { t with files := put place bytes t.files }
  | .file place => return { t with files := put place bytes t.files }

end FileTree

end RingTape
