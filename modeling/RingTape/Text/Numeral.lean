import RingTape.Text.Blank
import RingTape.Text.DecimalDigit

/-!
# Integer numerals

An integer numeral is, between blanks, a sign or none and then digits of some base, in which single
underscores may stand between two digits.  A decimal numeral has a limit on its length, so that it
is converted in bounded time.
-/

namespace RingTape.Text

/-- The blanks that may surround a numeral: all but the separators U+001C to U+001F. -/
def isNumeralPadding (c : Char) : Bool :=
  isBlank c && !(28 ≤ c.toNat && c.toNat ≤ 31)

/-- The value of a digit in any base up to thirty-six: a decimal digit of any script, or a Latin
letter in either case. -/
def digitValue? (c : Char) : Option Nat :=
  match decimalValue? c with
  | some n => some n
  | none =>
    let n := c.toNat
    if 97 ≤ n && n ≤ 122 then some (n - 87)
    else if 65 ≤ n && n ≤ 90 then some (n - 55)
    else none

/-- The value of a digit of the base `base`. -/
def digitIn? (base : Nat) (c : Char) : Option Nat :=
  (digitValue? c).filter (· < base)

def isNumeralChar (base : Nat) (c : Char) : Bool :=
  c == '_' || (digitIn? base c).isSome

/-- The values of the digits, if the characters are digits with single underscores between them. -/
def digitValues? (base : Nat) : List Char → Option (List Nat)
  | [] => none
  | [c] => (digitIn? base c).map ([·])
  | c :: '_' :: rest =>
    match digitIn? base c, digitValues? base rest with
    | some d, some ds => some (d :: ds)
    | _, _ => none
  | c :: rest =>
    match digitIn? base c, digitValues? base rest with
    | some d, some ds => some (d :: ds)
    | _, _ => none

/-- The number that a list of digits stands for, most significant digit first. -/
def ofDigits (base : Nat) (digits : List Nat) : Nat :=
  digits.foldl (fun n d => n * base + d) 0

/-- The most digits of a decimal numeral. -/
def maxDecimalDigits : Nat := 4300

/-- The most digits of a numeral of a base: only a base that is not a power of two has a limit. -/
def digitLimit? (base : Nat) : Option Nat :=
  if base = 2 || base = 4 || base = 8 || base = 16 || base = 32 then none
  else some maxDecimalDigits

/-- Why a text is not read as an integer. -/
inductive NumeralFault where
  | malformed
  | tooLong (digits : Nat)
  deriving DecidableEq, Repr

/-- A sign and the rest of the text: whether the number is negative, and the text after the sign. -/
def splitSign : List Char → Bool × List Char
  | '-' :: rest => (true, rest)
  | '+' :: rest => (false, rest)
  | cs => (false, cs)

/-- The digits of a text in base sixteen, eight or two, without the zero and the letter that may
announce the base, and an underscore after them. -/
def dropBaseMark (base : Nat) (cs : List Char) : List Char :=
  let marked (lower upper : Char) : List Char :=
    match cs with
    | '0' :: c :: '_' :: rest => if c == lower || c == upper then rest else cs
    | '0' :: c :: rest => if c == lower || c == upper then rest else cs
    | _ => cs
  if base = 16 then marked 'x' 'X'
  else if base = 8 then marked 'o' 'O'
  else if base = 2 then marked 'b' 'B'
  else cs

/-- The integer that a text stands for in the given base. -/
def readInteger (base : Nat) (text : List Char) : Except NumeralFault Int :=
  let (negative, body) := splitSign (trimWhere isNumeralPadding text)
  let digits := dropBaseMark base body
  let run := digits.takeWhile (isNumeralChar base)
  match digitValues? base run with
  | none => .error .malformed
  | some values =>
    if (digitLimit? base).any (· < values.length) then .error (.tooLong values.length)
    else if run.length < digits.length then .error .malformed
    else
      let n : Int := ofDigits base values
      .ok (if negative then -n else n)

/-- The integer that a decimal text stands for, if it is one. -/
def integer? (text : List Char) : Option Int :=
  (readInteger 10 text).toOption

def natText (n : Nat) : List Char :=
  Nat.toDigits 10 n

/-- The decimal digits of an integer, after a minus sign if it is negative. -/
def intText (n : Int) : List Char :=
  if n < 0 then '-' :: natText n.natAbs else natText n.natAbs

end RingTape.Text
