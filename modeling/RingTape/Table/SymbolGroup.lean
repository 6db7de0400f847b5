import RingTape.Datum.Show

/-!
# Symbol groups

In a transition table the key of an entry is a symbol, or a group of symbols between square brackets
that share the entry.  Brackets at the start of a line would make a document see a sequence there,
so the group is put between double quotes before the document is read.
-/

namespace RingTape.Table

open Text

/-- A line with its group between double quotes, if the line starts with a group and a colon.  A
group has one character at least, and blanks may stand around it. -/
def quoteGroup (line : List Char) : List Char :=
  match line.dropWhile isBlank with
  | '[' :: body =>
    match body.dropWhile (· != ']') with
    | ']' :: tail =>
      let inner := body.takeWhile (· != ']')
      if !inner.isEmpty && (tail.dropWhile isBlank).head? == some ':' then
        line.takeWhile isBlank ++ ['"', '['] ++ inner ++ [']', '"'] ++ tail
      else line
    | _ => line
  | _ => line

/-- A text with the group of each of its lines between double quotes.  Lines end at line feeds
only. -/
def quoteGroups (text : List Char) : List Char :=
  joinWith ['\n'] ((splitWhere (· == '\n') text).map quoteGroup)

def isQuote (c : Char) : Bool :=
  c == '\'' || c == '"'

/-- The symbol that an item of a group stands for.  Quotes are dropped after the blanks, so that a
blank between quotes is a symbol. -/
def itemSymbol (item : List Char) : List Char :=
  trimWhere isQuote (trim item)

/-- What stands between the brackets of a group. -/
def groupBody? (key : List Char) : Option (List Char) :=
  match key with
  | '[' :: rest => if rest.getLast? = some ']' then some rest.dropLast else none
  | _ => none

/-- The symbols that a key in writing stands for: those of a group, or the key itself. -/
def symbolsOfText (key : List Char) : List (List Char) :=
  match groupBody? key with
  | some body => (splitWhere (· == ',') body).map itemSymbol
  | none => [key]

theorem length_symbolsOfText
    {key body : List Char} (h : groupBody? key = some body) :
    (symbolsOfText key).length = body.count ',' + 1 := by
  simp [symbolsOfText, h, length_splitWhere, List.count]

/-- The symbols that a key stands for.  The items of a list stand for themselves. -/
def symbolsOf : Datum → Except ShowFault (List String)
  | .list _ items => items.mapM Datum.toText
  | key => do return (symbolsOfText (← key.toText).toList).map String.ofList

end RingTape.Table
