import RingTape.Datum.Show

/-!
# Faults of a document

A text can fail to be a document for two kinds of reasons.  Either its structure is wrong, which is
one fault whatever the place, or a scalar, an escape or a version number has no value.
-/

namespace RingTape.Yaml

open Text

/-- Why a scalar has no value. -/
inductive ValueFault where
  /-- The text is no integer in the base. -/
  | malformedInteger (base : Nat) (text : List Char)
  /-- The integer has too many digits to be read. -/
  | integerTooLong (digits : Nat)
  /-- There is no text at all where a number is announced. -/
  | emptyNumber
  /-- The text is no number with a point. -/
  | malformedFloat (text : List Char)
  /-- A power of sixty is beyond the range of numbers with a point. -/
  | placeTooLarge
  /-- The text names no truth value. -/
  | noTruthValue (text : List Char)
  /-- The text has not the form of a timestamp. -/
  | malformedDate
  /-- There is no year with the number zero. -/
  | yearOutOfRange
  | monthOutOfRange
  | dayOutOfRange
  | hourOutOfRange
  | minuteOutOfRange
  | secondOutOfRange
  /-- A time is a whole day or more ahead of universal time, or behind it. -/
  | offsetOutOfRange (minutes : Int)
  /-- An escape names a number beyond the last code point. -/
  | codePointOutOfRange
  /-- An escape names a number that does not fit into a signed word of thirty-two bits. -/
  | codePointTooLarge
  /-- An escape names half of a surrogate pair, which is no character here. -/
  | surrogate
  /-- Whatever else stops a loader, known by its text. -/
  | other (text : String)
  deriving DecidableEq, Repr

def ValueFault.message : ValueFault → String
  | .malformedInteger base text =>
    "invalid literal for int() with base " ++ toString base ++ ": " ++
      String.ofList ((quotedChars text).take 200)
  | .integerTooLong digits =>
    "Exceeds the limit (4300 digits) for integer string conversion: value has " ++
      toString digits ++ " digits; use sys.set_int_max_str_digits() to increase the limit"
  | .emptyNumber => "string index out of range"
  | .malformedFloat text =>
    "could not convert string to float: " ++ String.ofList (quotedChars text)
  | .placeTooLarge => "int too large to convert to float"
  | .noTruthValue text => String.ofList (quotedChars text)
  | .malformedDate => "'NoneType' object has no attribute 'groupdict'"
  | .yearOutOfRange => "year 0 is out of range"
  | .monthOutOfRange => "month must be in 1..12"
  | .dayOutOfRange => "day is out of range for month"
  | .hourOutOfRange => "hour must be in 0..23"
  | .minuteOutOfRange => "minute must be in 0..59"
  | .secondOutOfRange => "second must be in 0..59"
  | .offsetOutOfRange minutes =>
    "offset must be a timedelta strictly between -timedelta(hours=24) and " ++
      "timedelta(hours=24), not " ++ String.ofList (spanText minutes)
  | .codePointOutOfRange => "chr() arg not in range(0x110000)"
  | .codePointTooLarge => "Python int too large to convert to C int"
  | .surrogate => "surrogates not allowed"
  | .other text => text

/-- Why a text is no document. -/
inductive Fault where
  | malformed
  | value (fault : ValueFault)
  deriving DecidableEq, Repr

/-- What reads the document in a text.  Tables are imported with any loader; `Yaml.load` is one. -/
abbrev Loader := List Char → Except Fault Datum

end RingTape.Yaml
