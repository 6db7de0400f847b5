import RingTape.Text.Blank

/-!
# Lines

A text is cut into lines at the line breaks of Unicode; a carriage return and the line feed after it
are one break.  A break at the very end opens no further line.
-/

namespace RingTape.Text

/-- The characters that end a line. -/
def isLineBreak (c : Char) : Bool :=
  let n := c.toNat
  (10 ≤ n && n ≤ 13) || (28 ≤ n && n ≤ 30) || n == 0x85 || n == 0x2028 || n == 0x2029

/-- The lines of a text, without their breaks. -/
def lines : List Char → List (List Char)
  | [] => []
  | '\r' :: '\n' :: rest => [] :: lines rest
  | c :: rest =>
    if isLineBreak c then [] :: lines rest
    else match lines rest with
      | [] => [[c]]
      | line :: others => (c :: line) :: others

def isReturnOrFeed (c : Char) : Bool :=
  c == '\r' || c == '\n'

/-- A line without the carriage returns and line feeds at its end. -/
def dropLineEnd (line : List Char) : List Char :=
  dropWhileEnd isReturnOrFeed line

/-- The text with each carriage return, and each carriage return with its line feed, written as one
line feed. -/
def unifyLineEnds : List Char → List Char
  | [] => []
  | '\r' :: '\n' :: rest => '\n' :: unifyLineEnds rest
  | c :: rest => (if c == '\r' then '\n' else c) :: unifyLineEnds rest

end RingTape.Text
