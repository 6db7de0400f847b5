import RingTape.Text.Blank
import RingTape.Text.Quoted
import RingTape.Token

/-!
# Tokens of a program

A symbol or a state of a table must be a token that a program line can hold: it must not be empty,
nor stand for something else there, nor be cut in pieces.  A state must not look like the start of
another kind of line either.
-/

namespace RingTape.Table

open Text

/-- What a token is to be. -/
inductive TokenKind where
  | symbol
  | state
  deriving DecidableEq, Repr

/-- Why a text is no token. -/
inductive TokenFault where
  | empty (kind : TokenKind)
  /-- The token has a meaning of its own in a program. -/
  | reserved (kind : TokenKind) (token : String)
  /-- The token holds a blank or a semicolon. -/
  | divided (kind : TokenKind) (token : String)
  /-- The state starts with a character that tells another kind of line. -/
  | lineMark (token : String)
  deriving DecidableEq, Repr

/-- The kind of a token, in a sentence. -/
def TokenKind.noun : TokenKind → String
  | .symbol => "symbol"
  | .state => "state"

/-- The kind of a token, at the start of a sentence. -/
def TokenKind.capitalized : TokenKind → String
  | .symbol => "Symbol"
  | .state => "State"

def TokenFault.message : TokenFault → String
  | .empty kind => "Empty " ++ kind.noun ++ " is not supported"
  | .reserved kind token =>
    kind.capitalized ++ " " ++ quoted token ++ " is reserved in the program format"
  | .divided kind token =>
    kind.capitalized ++ " " ++ quoted token ++ " may not contain whitespace or ';'"
  | .lineMark token => "State " ++ quoted token ++ " may not start with one of ';#~@'"

/-- The characters that tell what a line of a program is. -/
def lineMarks : List Char := [';', '#', '~', '@']

/-- Whether a token is the wildcard or the one for nothing. -/
def isReserved (token : String) : Bool :=
  token == wildcard || token.toList == nullToken

/-- Whether a token would not stay in one piece in a line. -/
def isDivided (token : String) : Bool :=
  token.toList.any fun c => c == ';' || isBlank c

/-- Whether a token looks like the start of a line that is no rule. -/
def isMarked (token : String) : Bool :=
  token.toList.head?.any lineMarks.contains

/-- A token, if it can be one. -/
def checkToken (kind : TokenKind) (token : String) : Except TokenFault String :=
  if token.isEmpty then .error (.empty kind)
  else if isReserved token then .error (.reserved kind token)
  else if isDivided token then .error (.divided kind token)
  else if kind = .state && isMarked token then .error (.lineMark token)
  else .ok token

end RingTape.Table
