import RingTape.Datum.Basic
import RingTape.Decimal.Shortest
import RingTape.Text.Numeral
import RingTape.Text.Quoted

/-!
# The text of a datum

Data are shown in messages and become symbols and state names by their text.  On its own a text is
shown as it is, and inside a collection it is quoted.  An integer with too many digits has no text.
-/

namespace RingTape

open Text Decimal

/-- Why a datum has no text: it holds an integer of more than `maxDecimalDigits` digits. -/
inductive ShowFault where
  | integerTooLong
  deriving DecidableEq, Repr

def ShowFault.message : ShowFault → String
  | .integerTooLong =>
    "Exceeds the limit (4300 digits) for integer string conversion; " ++
      "use sys.set_int_max_str_digits() to increase the limit"

namespace Datum

/-- Numbers of a document are positional from `0.0001` up to below `10 ^ 16`. -/
def pointRange : PointRange := ⟨-4, 16⟩

/-- The text of an integer that is not too long. -/
def showInt (n : Int) : Except ShowFault (List Char) :=
  let text := natText n.natAbs
  if maxDecimalDigits < text.length then .error .integerTooLong
  else .ok (if n < 0 then '-' :: text else text)

/-- Texts between brackets, with commas between them. -/
def bracketed (opening closing : List Char) (items : List (List Char)) : List Char :=
  opening ++ joinWith [',', ' '] items ++ closing

/-- A day with a time of day, as it is shown inside a collection.  Seconds are left out where
nothing but zeros follows. -/
def nestedDateTime (t : DateTime) : List Char :=
  let clock := if t.microsecond ≠ 0 then [t.hour, t.minute, t.second, t.microsecond]
    else if t.second ≠ 0 then [t.hour, t.minute, t.second]
    else [t.hour, t.minute]
  let zone := match t.offset with
    | none => []
    | some 0 => ["tzinfo=datetime.timezone.utc".toList]
    | some minutes => ["tzinfo=datetime.timezone(".toList ++ spanText minutes ++ [')']]
  bracketed "datetime.datetime(".toList [')']
    (([t.year, t.month, t.day] ++ clock).map natText ++ zone)

mutual

/-- The text of a datum inside a collection. -/
def nested : Datum → Except ShowFault (List Char)
  | .null => .ok "None".toList
  | .bool b => .ok (if b then "True" else "False").toList
  | .int n => showInt n
  | .float x => .ok (x.notate pointRange)
  | .text s => .ok (quotedChars s.toList)
  | .bytes b => .ok (quotedBytes b)
  | .date year month day =>
    .ok (bracketed "datetime.date(".toList [')'] [natText year, natText month, natText day])
  | .dateTime t => .ok (nestedDateTime t)
  | .pair first second => do
    let first ← nested first
    let second ← nested second
    return bracketed ['('] [')'] [first, second]
  | .list _ items => do return bracketed ['['] [']'] (← nestedItems items)
  | .mapping _ entries => do return bracketed ['{'] ['}'] (← nestedEntries entries)
  | .set items => do
    match ← nestedItems items with
    | [] => return "set()".toList
    | texts => return bracketed ['{'] ['}'] texts
  | .enclosing _ isMapping =>
    .ok (if isMapping then ['{', '.', '.', '.', '}'] else ['[', '.', '.', '.', ']'])

def nestedItems : List Datum → Except ShowFault (List (List Char))
  | [] => .ok []
  | item :: items => do
    let text ← nested item
    return text :: (← nestedItems items)

/-- The text of each entry, a colon between key and value. -/
def nestedEntries : List (Datum × Datum) → Except ShowFault (List (List Char))
  | [] => .ok []
  | (key, value) :: entries => do
    let key ← nested key
    let value ← nested value
    return (key ++ ':' :: ' ' :: value) :: (← nestedEntries entries)

end

/-- The text of a datum on its own. -/
def toText : Datum → Except ShowFault String
  | .text s => .ok s
  | .date year month day => .ok (String.ofList (DateTime.dayText year month day))
  | .dateTime t => .ok (String.ofList t.text)
  | other => String.ofList <$> nested other

end Datum

end RingTape
