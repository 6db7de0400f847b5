import RingTape.Rule

/-!
# Program lines

Each line of a program says one thing, and its first character tells which.  A semicolon starts a
comment, in the middle of a line as well.
-/

namespace RingTape

open Text

/-- What a line says. -/
inductive Item where
  /-- A blank line, or one that holds only a comment. -/
  | remark
  | terminal (name : String)
  | initial (name : String)
  | filler (symbols : List Symbol)
  | rule (rule : Rule)
  deriving DecidableEq, Repr

/-- Why a line says nothing that a program may say. -/
inductive LineFault where
  | noTerminal
  | noInitial
  | noFiller
  | rule (fault : RuleFault)
  deriving DecidableEq, Repr

def LineFault.message : LineFault → String
  | .noTerminal => "Empty terminal state directive"
  | .noInitial => "Empty initial state declaration"
  | .noFiller => "Tape filler has no symbols"
  | .rule fault => fault.message

/-- The text before the first semicolon. -/
def beforeComment (line : List Char) : List Char :=
  line.takeWhile (· != ';')

/-- What a line says.  Its end, carriage returns and line feeds, is already gone. -/
def Item.ofLine (line : List Char) : Except LineFault Item :=
  if (trim line).isEmpty then .ok .remark
  else match line with
    | ';' :: _ => .ok .remark
    | '#' :: rest =>
      let body := trim (beforeComment rest)
      if body.isEmpty then .error .noTerminal else .ok (.terminal (String.ofList body))
    | '~' :: rest =>
      let body := trim (beforeComment rest)
      if body.isEmpty then .error .noInitial else .ok (.initial (String.ofList body))
    | '@' :: rest =>
      let symbols := (fields (trim (beforeComment rest))).map ofToken
      if symbols.isEmpty then .error .noFiller else .ok (.filler symbols)
    | _ =>
      let text := trim (beforeComment line)
      if text.isEmpty then .ok .remark
      else match Rule.parse text with
        | .ok parsed => .ok (.rule parsed)
        | .error fault => .error (.rule fault)

end RingTape
