/-!
# Places in a document

A cursor is a place in a text, with the line and the column that the layout of a document is
measured in.  The characters that end a line, and those that separate words, are classed here.
-/

namespace RingTape.Yaml

/-- The characters that a document may hold. -/
def isAllowed (c : Char) : Bool :=
  let n := c.toNat
  n == 9 || n == 10 || n == 13 || (0x20 ≤ n && n ≤ 0x7E) || n == 0x85 ||
    (0xA0 ≤ n && n ≤ 0xD7FF) || (0xE000 ≤ n && n ≤ 0xFFFD) || 0x10000 ≤ n

/-- The mark that may stand at the very start of a text.  It has no width. -/
def byteOrderMark : Char := Char.ofNat 0xFEFF

def isBreak (c : Char) : Bool :=
  let n := c.toNat
  n == 10 || n == 13 || n == 0x85 || n == 0x2028 || n == 0x2029

/-- Whether a line ends here, or the text does. -/
def isLineEnd : Option Char → Bool
  | none => true
  | some c => isBreak c

/-- Whether a word ends here: at a space, a line end, or the end of the text. -/
def isSpaceOrEnd : Option Char → Bool
  | none => true
  | some c => c == ' ' || isBreak c

/-- Whether a word ends here, where a tab ends one too. -/
def isGap : Option Char → Bool
  | none => true
  | some c => c == ' ' || c == '\t' || isBreak c

/-- A place in a text. -/
structure Cursor where
  rest : List Char
  index : Nat
  line : Nat
  column : Nat
  deriving DecidableEq, Repr

namespace Cursor

def start (text : List Char) : Cursor := ⟨text, 0, 0, 0⟩

/-- The character here, if the text goes on. -/
def peek? (c : Cursor) : Option Char := c.rest.head?

/-- The character `n` places further on. -/
def peekAt? (c : Cursor) (n : Nat) : Option Char := c.rest[n]?

def at? (c : Cursor) (x : Char) : Bool := c.peek? == some x

/-- The place after the character here.  A carriage return before a line feed ends no line by
itself. -/
def next (c : Cursor) : Cursor :=
  match c.rest with
  | [] => c
  | x :: rest =>
    if isBreak x && !(x == '\r' && rest.head? == some '\n') then
      ⟨rest, c.index + 1, c.line + 1, 0⟩
    else if x == byteOrderMark then ⟨rest, c.index + 1, c.line, c.column⟩
    else ⟨rest, c.index + 1, c.line, c.column + 1⟩

/-- The place `n` characters further on. -/
def advance : Nat → Cursor → Cursor
  | 0, c => c
  | n + 1, c => advance n c.next

/-- The characters of class `p` from here on, and the place after them. -/
def takeWhile (p : Char → Bool) (c : Cursor) : List Char × Cursor :=
  let run := c.rest.takeWhile p
  (run, advance run.length c)

/-- The place after the characters of class `p`. -/
def skipWhile (p : Char → Bool) (c : Cursor) : Cursor :=
  (c.takeWhile p).2

def skipSpaces (c : Cursor) : Cursor :=
  c.skipWhile (· == ' ')

/-- The place at the end of the line, when a comment starts here. -/
def skipComment (c : Cursor) : Cursor :=
  if c.at? '#' then c.skipWhile (!isBreak ·) else c

/-- The line end here, as one character, and the place after it.  All line ends but the two
separators of Unicode are written as a line feed. -/
def takeBreak (c : Cursor) : List Char × Cursor :=
  match c.rest with
  | '\r' :: '\n' :: _ => (['\n'], c.next.next)
  | x :: _ =>
    if x == '\r' || x == '\n' || x.toNat == 0x85 then (['\n'], c.next)
    else if isBreak x then ([x], c.next)
    else ([], c)
  | [] => ([], c)

/-- Whether a line starts here that separates documents. -/
def atSeparator (c : Cursor) : Bool :=
  (c.rest.take 3 == ['-', '-', '-'] || c.rest.take 3 == ['.', '.', '.']) && isGap (c.peekAt? 3)

end Cursor

end RingTape.Yaml
