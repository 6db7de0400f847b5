import RingTape.Yaml.Cursor
import RingTape.Yaml.Fault

/-!
# Tokens of a document

What a document is made of, the layout of its lines turned into starts and ends of collections.
-/

namespace RingTape.Yaml

/-- A token. -/
inductive Token where
  /-- A directive that names the version of the format. -/
  | version (major : Nat)
  /-- A directive that gives a handle of tags its meaning. -/
  | handle (name meaning : List Char)
  /-- A directive of another kind, without effect. -/
  | reserved
  | documentStart
  | documentEnd
  | blockSequenceStart
  | blockMappingStart
  | blockEnd
  | flowSequenceStart
  | flowSequenceEnd
  | flowMappingStart
  | flowMappingEnd
  | blockEntry
  | flowEntry
  | key
  | value
  | alias (name : List Char)
  | anchor (name : List Char)
  | tag (handle : Option (List Char)) (suffix : List Char)
  | scalar (plain : Bool) (text : List Char)
  /-- The text cannot be read beyond this place. -/
  | broken (fault : Fault)
  deriving DecidableEq, Repr

/-- A reader takes something at a place and says what follows it. -/
abbrev Reader (α : Type) := Cursor → Except Fault (α × Cursor)

def isNameChar (c : Char) : Bool :=
  c.isAlphanum || c == '-' || c == '_'

/-- The place after blanks and a comment, and after the line end that must follow. -/
def endOfLine (c : Cursor) : Except Fault Cursor :=
  let c := c.skipSpaces.skipComment
  if isLineEnd c.peek? then .ok c.takeBreak.2 else .error .malformed

end RingTape.Yaml
