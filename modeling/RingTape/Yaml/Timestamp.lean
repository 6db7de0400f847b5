import RingTape.Datum.Basic
import RingTape.Yaml.Fault

/-!
# Timestamps

A timestamp is a day, or a day and a time of day, which may come with a fraction of a second and
with the distance from universal time.  Its form is told from the text alone; whether there is such
a day and such a time is another question.
-/

namespace RingTape.Yaml

open Text

/-- A time of day as it is written. -/
structure ClockReading where
  hour : Nat
  minute : Nat
  second : Nat
  /-- The digits after the point. -/
  fraction : List Char
  /-- How many minutes the time is ahead of universal time, if it says so. -/
  offset : Option Int
  deriving DecidableEq, Repr

/-- A timestamp as it is written. -/
structure Timestamp where
  year : Nat
  month : Nat
  day : Nat
  clock : Option ClockReading
  deriving DecidableEq, Repr

namespace Timestamp

/-- The number at the start of a text in at least `least` and at most `most` digits, and the rest of
the text. -/
def number? (least most : Nat) (text : List Char) : Option (Nat × List Char) :=
  let digits := (text.take most).takeWhile Char.isDigit
  if digits.length < least then none
  else some (digits.foldl (fun n d => n * 10 + (d.toNat - 48)) 0, text.drop digits.length)

/-- The rest of a text that starts with a character. -/
def after? (c : Char) (text : List Char) : Option (List Char) :=
  if text.head? = some c then some text.tail else none

def isSpacing (c : Char) : Bool :=
  c == ' ' || c == '\t'

/-- The distance from universal time in a whole text, which is empty where it is not told. -/
def offset? (text : List Char) : Option (Option Int) :=
  if text.isEmpty then some none
  else match text.dropWhile isSpacing with
    | ['Z'] => some (some 0)
    | sign :: rest =>
      if sign == '+' || sign == '-' then do
        let (hours, rest) ← number? 1 2 rest
        let minutes ← if rest.isEmpty then pure 0 else do
          let (minutes, rest) ← number? 2 2 (← after? ':' rest)
          guard rest.isEmpty
          pure minutes
        let ahead : Int := hours * 60 + minutes
        return some (if sign == '-' then -ahead else ahead)
      else none
    | [] => none

/-- The time of day in a whole text. -/
def clock? (text : List Char) : Option ClockReading := do
  let (hour, rest) ← number? 1 2 text
  let (minute, rest) ← number? 2 2 (← after? ':' rest)
  let (second, rest) ← number? 2 2 (← after? ':' rest)
  let (fraction, rest) := match rest with
    | '.' :: rest => (rest.takeWhile Char.isDigit, rest.dropWhile Char.isDigit)
    | rest => ([], rest)
  return ⟨hour, minute, second, fraction, ← offset? rest⟩

/-- The timestamp in a whole text.  A letter or some space stands before the time of day. -/
def ofText? (text : List Char) : Option Timestamp := do
  let (year, rest) ← number? 4 4 text
  let (month, rest) ← number? 1 2 (← after? '-' rest)
  let (day, rest) ← number? 1 2 (← after? '-' rest)
  match rest with
  | [] => return ⟨year, month, day, none⟩
  | c :: more =>
    if c == 'T' || c == 't' then return ⟨year, month, day, some (← clock? more)⟩
    else if isSpacing c then return ⟨year, month, day, some (← clock? (more.dropWhile isSpacing))⟩
    else none

/-- The first six digits of a fraction of a second, filled up with zeros. -/
def microsecond (fraction : List Char) : Nat :=
  (fraction.take 6 ++ List.replicate (6 - fraction.length) '0').foldl
    (fun n d => n * 10 + (d.toNat - 48)) 0

def dayFault? (t : Timestamp) : Option ValueFault :=
  if t.year = 0 then some .yearOutOfRange
  else if t.month = 0 || 12 < t.month then some .monthOutOfRange
  else if t.day = 0 || daysInMonth t.year t.month < t.day then some .dayOutOfRange
  else none

def clockFault? (c : ClockReading) : Option ValueFault :=
  if 23 < c.hour then some .hourOutOfRange
  else if 59 < c.minute then some .minuteOutOfRange
  else if 59 < c.second then some .secondOutOfRange
  else none

/-- Why there is no such distance from universal time: it is a whole day or more. -/
def offsetFault? (c : ClockReading) : Option ValueFault :=
  c.offset.bind fun minutes =>
    if 1440 ≤ minutes.natAbs then some (.offsetOutOfRange minutes) else none

/-- The datum that a timestamp stands for. -/
def value (t : Timestamp) : Except ValueFault Datum :=
  match t.clock with
  | none =>
    match t.dayFault? with
    | some fault => .error fault
    | none => .ok (.date t.year t.month t.day)
  | some c =>
    match (offsetFault? c).or (t.dayFault?.or (clockFault? c)) with
    | some fault => .error fault
    | none => .ok (.dateTime
        { year := t.year, month := t.month, day := t.day, hour := c.hour, minute := c.minute
          second := c.second, microsecond := microsecond c.fraction, offset := c.offset })

/-- Whether a plain text has the form of a timestamp: a day in ten characters, or a day with a time
of day. -/
def isForm (text : List Char) : Bool :=
  (ofText? text).any fun t => t.clock.isSome || text.length == 10

end Timestamp

end RingTape.Yaml
