import RingTape.Yaml.Fault
import RingTape.Yaml.Tag

/-!
# Values of scalars

What the text of a scalar stands for, given its tag.
-/

namespace RingTape.Yaml

open Text Decimal

/-- The integer in a text, or the fault that it is none. -/
def integerIn (base : Nat) (text : List Char) : Except Fault Int :=
  match readInteger base text with
  | .ok n => .ok n
  | .error .malformed => .error (.value (.malformedInteger base text))
  | .error (.tooLong digits) => .error (.value (.integerTooLong digits))

/-- The number that digits in base sixty stand for, most significant first. -/
def ofSixtieths (digits : List Int) : Int :=
  digits.foldl (fun n d => n * 60 + d) 0

/-- The integer of a scalar.  The start of the text tells the base. -/
def intValue (text : List Char) : Except Fault Datum := do
  let (negative, body) := splitSign (text.filter (· != '_'))
  let magnitude ← match body with
    | [] => throw (.value .emptyNumber)
    | ['0'] => pure 0
    | '0' :: 'b' :: digits => integerIn 2 digits
    | '0' :: 'x' :: digits => integerIn 16 digits
    | '0' :: _ => integerIn 8 body
    | _ =>
      if body.contains ':' then
        ofSixtieths <$> (splitWhere (· == ':') body).mapM (integerIn 10)
      else integerIn 10 body
  return .int (if negative then -magnitude else magnitude)

/-- The digits of a text, if all its characters are digits. -/
def plainDigits? (text : List Char) : Option (List Nat) :=
  text.mapM decimalValue?

/-- The exponent that a text adds to a number, if it is one. -/
def exponent? : List Char → Option Int
  | [] => some 0
  | e :: rest =>
    if e == 'e' || e == 'E' then
      let (negative, digits) := splitSign rest
      if digits.isEmpty then none
      else (plainDigits? digits).map fun ds =>
        let n : Int := ofDigits 10 ds
        if negative then -n else n
    else none

/-- The number that a decimal text stands for, with a point and an exponent or without. -/
def decimal? (text : List Char) : Option Binary64 :=
  let (negative, body) := splitSign (trimWhere isNumeralPadding text)
  let isDigit (c : Char) := (decimalValue? c).isSome
  let lowered := String.ofList (body.map Char.toLower)
  if lowered == "inf" || lowered == "infinity" then some (.infinite negative)
  else if lowered == "nan" then some .nan
  else
    let whole := body.takeWhile isDigit
    let afterWhole := body.dropWhile isDigit
    let (fraction, tail) := match afterWhole with
      | '.' :: rest => (rest.takeWhile isDigit, rest.dropWhile isDigit)
      | rest => ([], rest)
    if whole.isEmpty && fraction.isEmpty then none
    else
      match plainDigits? (whole ++ fraction), exponent? tail with
      | some digits, some exponent =>
        some (.ofDecimal negative (ofDigits 10 digits) (exponent - fraction.length))
      | _, _ => none

/-- The number in a text, or the fault that it is none. -/
def decimalIn (text : List Char) : Except Fault Binary64 :=
  match decimal? text with
  | some x => .ok x
  | none => .error (.value (.malformedFloat text))

/-- The sum of digits in base sixty, least significant first, each step rounded. -/
def sumSixtieths : Int → Binary64 → List Binary64 → Except Fault Binary64
  | _, sum, [] => .ok sum
  | place, sum, digit :: digits =>
    match Binary64.ofInt? place with
    | none => .error (.value .placeTooLarge)
    | some weight => sumSixtieths (place * 60) (sum.add (digit.mul weight)) digits

def floatValue (text : List Char) : Except Fault Datum := do
  let text := (text.filter (· != '_')).map Char.toLower
  if text.isEmpty then throw (.value .emptyNumber)
  let (negative, body) := splitSign text
  let magnitude ←
    if body = ['.', 'i', 'n', 'f'] then pure (.infinite false)
    else if body = ['.', 'n', 'a', 'n'] then pure .nan
    else if body.contains ':' then do
      let digits ← (splitWhere (· == ':') body).mapM decimalIn
      sumSixtieths 1 (.finite false 0 Binary64.minExponent) digits.reverse
    else decimalIn body
  return .float (if negative then magnitude.neg else magnitude)

/-- The day of a scalar, or its day and time of day.  A line feed at the end of the text is passed
over. -/
def dateValue (text : List Char) : Except Fault Datum :=
  let text := if text.getLast? = some '\n' then text.dropLast else text
  match Timestamp.ofText? text with
  | some t => t.value.mapError .value
  | none => .error (.value .malformedDate)

def boolValue (text : List Char) : Except Fault Datum :=
  let lowered := text.map Char.toLower
  if trueTexts.contains (String.ofList lowered) then .ok (.bool true)
  else if falseTexts.contains (String.ofList lowered) then .ok (.bool false)
  else .error (.value (.noTruthValue lowered))

/-- The six bits that a character of encoded bytes stands for. -/
def sextet? (c : Char) : Option Nat :=
  let n := c.toNat
  if 65 ≤ n && n ≤ 90 then some (n - 65)
  else if 97 ≤ n && n ≤ 122 then some (n - 71)
  else if 48 ≤ n && n ≤ 57 then some (n + 4)
  else if n == 43 then some 62
  else if n == 47 then some 63
  else none

/-- The bytes of characters that stand for six bits each.  `held` are the sextets of a group of four
that is not complete, first one first, and `pads` the equals signs since the last sextet.  Other
characters are passed over.  A group that is cut short must be filled up with equals signs. -/
def sextetBytes (held : List Nat) (pads : Nat) : List Char → Option (List UInt8)
  | [] => if held.isEmpty then some [] else none
  | c :: rest =>
    if c == '=' then
      if 2 ≤ held.length && 4 ≤ held.length + (pads + 1) then some (partialBytes held)
      else sextetBytes held (if 2 ≤ held.length then pads + 1 else pads) rest
    else match sextet? c, held with
      | none, _ => sextetBytes held pads rest
      | some s, [a, b, d] =>
        (partialBytes [a, b, d] ++ [UInt8.ofNat (d % 4 * 64 + s)] ++ ·) <$> sextetBytes [] 0 rest
      | some s, _ => sextetBytes (held ++ [s]) 0 rest
where
  /-- The bytes that are complete after two or three sextets. -/
  partialBytes : List Nat → List UInt8
    | [a, b] => [UInt8.ofNat (a * 4 + b / 16)]
    | [a, b, c] => [UInt8.ofNat (a * 4 + b / 16), UInt8.ofNat (b % 16 * 16 + c / 4)]
    | _ => []

def binaryValue (text : List Char) : Except Fault Datum :=
  if text.all fun c => c.toNat < 128 then
    match sextetBytes [] 0 text with
    | some bytes => .ok (.bytes bytes)
    | none => .error .malformed
  else .error .malformed

/-- The value of a scalar.  Some tags are not for scalars. -/
def scalarValue (tag : Tag) (text : List Char) : Except Fault Datum :=
  match tag with
  | .null => .ok .null
  | .bool => boolValue text
  | .int => intValue text
  | .float => floatValue text
  | .date => dateValue text
  | .binary => binaryValue text
  | .text => .ok (.text (String.ofList text))
  | _ => .error .malformed

end RingTape.Yaml
