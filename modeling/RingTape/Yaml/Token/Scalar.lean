import RingTape.Yaml.Token.Basic
import RingTape.Yaml.Token.Property

/-!
# Scalars

The texts of a document: between quotes, as a block of lines, or plain.  A line end inside a scalar
is folded: alone it becomes a space, and before empty lines it disappears.
-/

namespace RingTape.Yaml

/-- What a line end and the empty lines after it become.  A line feed alone is a space. -/
def fold (lineEnd breaks : List Char) : List Char :=
  if lineEnd ≠ ['\n'] then lineEnd ++ breaks
  else if breaks.isEmpty then [' ']
  else breaks

/-! ## Quoted scalars -/

/-- The line ends of empty lines, up to the first character of the next line that is not empty. -/
def quotedBreaks : Nat → Reader (List Char)
  | 0, c => .ok ([], c)
  | fuel + 1, c =>
    if c.atSeparator then .error .malformed
    else
      let c := c.skipWhile fun x => x == ' ' || x == '\t'
      match c.takeBreak with
      | ([], _) => .ok ([], c)
      | (lineEnd, c) => do
        let (more, c) ← quotedBreaks fuel c
        return (lineEnd ++ more, c)

/-- The characters that a single letter stands for after a backslash. -/
def escapedChar? : Char → Option Char
  | '0' => some (Char.ofNat 0)
  | 'a' => some (Char.ofNat 7)
  | 'b' => some (Char.ofNat 8)
  | 't' => some '\t'
  | '\t' => some '\t'
  | 'n' => some '\n'
  | 'v' => some (Char.ofNat 11)
  | 'f' => some (Char.ofNat 12)
  | 'r' => some '\r'
  | 'e' => some (Char.ofNat 27)
  | ' ' => some ' '
  | '"' => some '"'
  | '\\' => some '\\'
  | '/' => some '/'
  | 'N' => some (Char.ofNat 0x85)
  | '_' => some (Char.ofNat 0xA0)
  | 'L' => some (Char.ofNat 0x2028)
  | 'P' => some (Char.ofNat 0x2029)
  | _ => none

/-- How many hexadecimal digits follow a letter after a backslash. -/
def escapeLength? : Char → Option Nat
  | 'x' => some 2
  | 'u' => some 4
  | 'U' => some 8
  | _ => none

/-- The character with a code point that an escape names.  Half of a surrogate pair is no character
here. -/
def escapedCode (n : Nat) : Except Fault Char :=
  if 0x7FFFFFFF < n then .error (.value .codePointTooLarge)
  else if 0x10FFFF < n then .error (.value .codePointOutOfRange)
  else if 0xD800 ≤ n && n < 0xE000 then .error (.value .surrogate)
  else .ok (Char.ofNat n)

/-- What an escape stands for.  The place is that of the character after the backslash. -/
def readEscape : Reader (List Char) := fun c =>
  match c.peek? with
  | none => .error .malformed
  | some x =>
    match escapedChar? x with
    | some y => .ok ([y], c.next)
    | none =>
      match escapeLength? x with
      | some count =>
        match hexNumber? count 0 c.next.rest with
        | none => .error .malformed
        | some n => do return ([← escapedCode n], c.next.advance count)
      | none =>
        if isBreak x then quotedBreaks (c.rest.length + 1) c.takeBreak.2
        else .error .malformed

/-- The text up to the closing quote, after the text `read`, which is in reverse. -/
def quotedText (quote : Char) : Nat → List Char → Reader (List Char)
  | 0, _, _ => .error .malformed
  | fuel + 1, read, c =>
    match c.peek? with
    | none => .error .malformed
    | some x =>
      if x == quote then
        if quote == '\'' && c.peekAt? 1 == some '\'' then
          quotedText quote fuel ('\'' :: read) (c.advance 2)
        else .ok (read.reverse, c.next)
      else if quote == '"' && x == '\\' then do
        let (piece, c) ← readEscape c.next
        quotedText quote fuel (piece.reverse ++ read) c
      else if x == ' ' || x == '\t' || isBreak x then
        let (blanks, c) := c.takeWhile fun x => x == ' ' || x == '\t'
        match c.takeBreak with
        | ([], _) => quotedText quote fuel (blanks.reverse ++ read) c
        | (lineEnd, c) => do
          let (breaks, c) ← quotedBreaks (c.rest.length + 1) c
          quotedText quote fuel ((fold lineEnd breaks).reverse ++ read) c
      else quotedText quote fuel (x :: read) c.next

def readQuoted (quote : Char) : Reader Token := fun c => do
  let (text, c) ← quotedText quote (c.rest.length + 1) [] c.next
  return (.scalar false text, c)

/-! ## Block scalars -/

/-- What a block scalar keeps of the line ends at its end. -/
inductive Chomping where
  /-- One line end, if there is one. -/
  | clip
  | strip
  | keep
  deriving DecidableEq, Repr

/-- The chomping that a character stands for. -/
def chomping? : Option Char → Option Chomping
  | some '+' => some .keep
  | some '-' => some .strip
  | _ => none

/-- The indentation that a digit stands for, zero excluded. -/
def increment? (x : Option Char) : Except Fault (Option Nat) :=
  match x with
  | some d =>
    if d == '0' then .error .malformed
    else if d.isDigit then .ok (some (d.toNat - 48))
    else .ok none
  | none => .ok none

/-- What stands after the mark of a block scalar: chomping and indentation, in either order. -/
def readIndicators : Reader (Chomping × Option Nat) := fun c => do
  let (chomping, increment, c) ←
    match chomping? c.peek? with
    | some chomping =>
      match ← increment? c.next.peek? with
      | some n => pure (chomping, some n, c.next.next)
      | none => pure (chomping, none, c.next)
    | none =>
      match ← increment? c.peek? with
      | some n =>
        match chomping? c.next.peek? with
        | some chomping => pure (chomping, some n, c.next.next)
        | none => pure (.clip, some n, c.next)
      | none => pure (.clip, none, c)
  if isSpaceOrEnd c.peek? then return ((chomping, increment), c) else throw .malformed

/-- The line ends of the empty lines here, where a line counts as empty up to column `indent`, and
the place of the first character after them. -/
def blockBreaks (indent : Nat) : Nat → Cursor → List Char × Cursor
  | 0, c => ([], c)
  | fuel + 1, c =>
    let spaces := (c.rest.takeWhile (· == ' ')).length
    let c := c.advance (min spaces (indent - c.column))
    match c.takeBreak with
    | ([], _) => ([], c)
    | (lineEnd, c) =>
      let (more, c) := blockBreaks indent fuel c
      (lineEnd ++ more, c)

/-- The line ends of the empty lines here, with the greatest column that spaces reach. -/
def leadingBreaks : Nat → Cursor → List Char × Nat × Cursor
  | 0, c => ([], 0, c)
  | fuel + 1, c =>
    let c' := c.skipSpaces
    match c'.takeBreak with
    | ([], _) => ([], if c'.index = c.index then 0 else c'.column, c')
    | (lineEnd, next) =>
      let (more, reached, after) := leadingBreaks fuel next
      (lineEnd ++ more, max (if c'.index = c.index then 0 else c'.column) reached, after)

/-- The lines of a block scalar in column `indent`: the text read, in reverse, the last line end and
the line ends of the empty lines after it.  `breaks` are the line ends before this line. -/
def blockLines (folded : Bool) (indent : Nat) :
    Nat → List Char → List Char → List Char → Cursor → (List Char × List Char × List Char) × Cursor
  | 0, read, lineEnd, breaks, c => ((read, lineEnd, breaks), c)
  | fuel + 1, read, lineEnd, breaks, c =>
    if c.column = indent && c.peek?.isSome then
      let startsBlank (c : Cursor) := c.at? ' ' || c.at? '\t'
      let (line, after) := c.takeWhile (!isBreak ·)
      let read := line.reverse ++ (breaks.reverse ++ read)
      let (lineEnd, after) := after.takeBreak
      let (breaks, after) := blockBreaks indent (after.rest.length + 1) after
      if after.column = indent && after.peek?.isSome then
        let joined :=
          if folded && lineEnd == ['\n'] && !startsBlank c && !startsBlank after then
            if breaks.isEmpty then [' '] else []
          else lineEnd
        blockLines folded indent fuel (joined.reverse ++ read) lineEnd breaks after
      else ((read, lineEnd, breaks), after)
    else ((read, lineEnd, breaks), c)

/-- A block scalar.  `parent` is the column of the collection around it. -/
def readBlock (folded : Bool) (parent : Int) : Reader Token := fun c => do
  let ((chomping, increment), c) ← readIndicators c.next
  let c ← endOfLine c
  let least := max 1 (parent + 1).toNat
  let (breaks, indent, c) :=
    match increment with
    | none =>
      let (breaks, reached, c) := leadingBreaks (c.rest.length + 1) c
      (breaks, max least reached, c)
    | some n =>
      let indent := least + n - 1
      let (breaks, c) := blockBreaks indent (c.rest.length + 1) c
      (breaks, indent, c)
  let ((read, lineEnd, breaks), c) := blockLines folded indent (c.rest.length + 1) [] [] breaks c
  let text := read.reverse ++
    match chomping with
    | .strip => []
    | .clip => lineEnd
    | .keep => lineEnd ++ breaks
  return (.scalar false text, c)

/-! ## Plain scalars -/

/-- Whether a plain scalar ends at this character, given the one after it. -/
def endsPlain (flow : Bool) (x : Char) (following : Option Char) : Bool :=
  isGap (some x) ||
    (x == ':' && (isGap following || (flow && following.any ",[]\x7b\x7d".toList.contains))) ||
    (flow && ",?[]\x7b\x7d".toList.contains x)

/-- The characters of a plain scalar from here on, on this line. -/
def plainRun (flow : Bool) : List Char → List Char
  | [] => []
  | x :: rest => if endsPlain flow x rest.head? then [] else x :: plainRun flow rest

/-- The empty lines and spaces after the end of a line, with the line ends, or nothing if a document
ends there. -/
def plainBreaks : Nat → Cursor → Option (List Char) × Cursor
  | 0, c => (some [], c)
  | fuel + 1, c =>
    let c := c.skipSpaces
    match c.takeBreak with
    | ([], _) => (some [], c)
    | (lineEnd, c) =>
      if c.atSeparator then (none, c)
      else
        let (more, c) := plainBreaks fuel c
        (more.map (lineEnd ++ ·), c)

/-- What stands between two runs of a plain scalar: its text, empty where the scalar cannot go on,
whether a line ended, and the place after it. -/
def plainSpaces (c : Cursor) : List Char × Bool × Cursor :=
  let (spaces, c) := c.takeWhile (· == ' ')
  match c.takeBreak with
  | ([], _) => (spaces, false, c)
  | (lineEnd, c) =>
    if c.atSeparator then ([], true, c)
    else
      match plainBreaks (c.rest.length + 1) c with
      | (none, c) => ([], true, c)
      | (some breaks, c) => (fold lineEnd breaks, true, c)

/-- A plain scalar from here on: its text after what is `read`, in reverse, whether a line has ended
since the last run, and the place after it.  `spaces` stand before the next run, and a run in a
column before `indent` does not belong to a scalar outside of flow collections. -/
def plainText (flow : Bool) (indent : Int) :
    Nat → List Char → List Char → Bool → Cursor → List Char × Bool × Cursor
  | 0, read, _, ended, c => (read.reverse, ended, c)
  | fuel + 1, read, spaces, ended, c =>
    if c.at? '#' then (read.reverse, ended, c)
    else
      let run := plainRun flow c.rest
      if run.isEmpty then (read.reverse, ended, c)
      else
        let read := run.reverse ++ (spaces.reverse ++ read)
        let (spaces, ended, c) := plainSpaces (c.advance run.length)
        if spaces.isEmpty || c.at? '#' || (!flow && c.column < indent) then
          (read.reverse, ended, c)
        else plainText flow indent fuel read spaces ended c

end RingTape.Yaml
