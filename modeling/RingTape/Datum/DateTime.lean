import RingTape.Text.Numeral

/-!
# Days and times of day

A day of the calendar with a time of day, which may say how far it is ahead of universal time.  Two
of them that say so are the same when they name the same instant.
-/

namespace RingTape

open Text

/-- A day and a time of day. -/
structure DateTime where
  year : Nat
  month : Nat
  day : Nat
  hour : Nat
  minute : Nat
  second : Nat
  microsecond : Nat
  /-- How many minutes the time is ahead of universal time, if it says so. -/
  offset : Option Int
  deriving DecidableEq, Repr, Inhabited

def daysInMonth (year month : Nat) : Nat :=
  if month = 2 then
    if year % 4 = 0 && (year % 100 != 0 || year % 400 = 0) then 29 else 28
  else if [4, 6, 9, 11].contains month then 30
  else 31

/-- How many days there are from the beginning of the first year up to a day. -/
def dayNumber (year month day : Nat) : Nat :=
  let before := year - 1
  let months := (List.range (month - 1)).foldl (fun days m => days + daysInMonth year (m + 1)) 0
  before * 365 + before / 4 - before / 100 + before / 400 + months + day

namespace DateTime

/-- The minutes up to the time. -/
def minutes (t : DateTime) : Int :=
  dayNumber t.year t.month t.day * 1440 + t.hour * 60 + t.minute

/-- Whether two times are the same.  One that is told from universal time is the same as no
other. -/
def same (a b : DateTime) : Bool :=
  a.second == b.second && a.microsecond == b.microsecond &&
    match a.offset, b.offset with
    | none, none => a.minutes == b.minutes
    | some x, some y => a.minutes - x == b.minutes - y
    | _, _ => false

/-- A number in at least `width` digits. -/
def padded (width n : Nat) : List Char :=
  let digits := natText n
  List.replicate (width - digits.length) '0' ++ digits

/-- A day of the calendar in digits. -/
def dayText (year month day : Nat) : List Char :=
  padded 4 year ++ '-' :: padded 2 month ++ '-' :: padded 2 day

/-- A time of day in digits, and its distance from universal time. -/
def text (t : DateTime) : List Char :=
  let fraction := if t.microsecond = 0 then [] else '.' :: padded 6 t.microsecond
  let ahead := match t.offset with
    | none => []
    | some minutes =>
      (if minutes < 0 then '-' else '+') :: padded 2 (minutes.natAbs / 60) ++
        ':' :: padded 2 (minutes.natAbs % 60)
  dayText t.year t.month t.day ++ ' ' :: padded 2 t.hour ++ ':' :: padded 2 t.minute ++
    ':' :: padded 2 t.second ++ fraction ++ ahead

end DateTime

/-- A number of minutes as days and seconds, which is how a span of time is shown. -/
def spanText (minutes : Int) : List Char :=
  let days := minutes / 1440
  let seconds := minutes % 1440 * 60
  let parts := (if days = 0 then [] else ["days=".toList ++ intText days]) ++
    (if seconds = 0 then [] else ["seconds=".toList ++ intText seconds])
  "datetime.timedelta(".toList ++
    (if parts.isEmpty then ['0'] else joinWith [',', ' '] parts) ++ [')']

end RingTape
