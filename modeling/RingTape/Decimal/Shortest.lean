import RingTape.Decimal.Binary64

/-!
# Shortest decimals

A finite binary number is written with the fewest decimal digits that read back as that number, and
of the numerals with that many digits with the one nearest to it.  The search goes from coarse
decimal grids to fine ones and stops at the first grid with a point among the reals that round to
the number.
-/

namespace RingTape.Decimal

/-- The reals that round to a number: the number and the two ends, as numerators over one common
denominator, and whether the ends themselves belong. -/
structure RoundingInterval where
  low : Nat
  value : Nat
  high : Nat
  den : Nat
  closed : Bool
  deriving Repr

/-- The reals that round to `mantissa * 2 ^ exponent`.  Below a power of two the numbers lie twice
as close, except at the bottom of the range. -/
def roundingInterval (mantissa : Nat) (exponent : Int) : RoundingInterval :=
  let (up, down) := Binary64.powerRatio 2 (exponent - 2)
  let below := if mantissa = Binary64.leadingBit && Binary64.minExponent < exponent then 1 else 2
  { low := (4 * mantissa - below) * up
    value := 4 * mantissa * up
    high := (4 * mantissa + 2) * up
    den := down
    closed := mantissa % 2 == 0 }

/-- Whether the point `num / den` of the line lies in the interval. -/
def RoundingInterval.has (i : RoundingInterval) (num den : Nat) : Bool :=
  if i.closed then i.low * den ≤ num * i.den && num * i.den ≤ i.high * den
  else i.low * den < num * i.den && num * i.den < i.high * den

/-- The multiple of `10 ^ exponent` in the interval that is nearest to its value, if there is one.
A tie goes to the even multiple. -/
def RoundingInterval.gridPoint? (i : RoundingInterval) (exponent : Int) : Option Nat :=
  let (up, down) := Binary64.powerRatio 10 exponent
  let floor := i.value * down / (i.den * up)
  let nearest := roundHalfEven (i.value * down) (i.den * up)
  let other := if nearest = floor then floor + 1 else floor
  if nearest ≠ 0 && i.has (nearest * up) down then some nearest
  else if other ≠ 0 && i.has (other * up) down then some other
  else none

/-- The first grid with a point in the interval, from `10 ^ exponent` down: the point as a multiple,
and the exponent of the grid. -/
def RoundingInterval.search (i : RoundingInterval) : Nat → Int → Nat × Int
  | 0, exponent => (0, exponent)
  | steps + 1, exponent =>
    match i.gridPoint? exponent with
    | some digits => (digits, exponent)
    | none => search i steps (exponent - 1)

/-- The shortest digits of a positive number and the power of ten they count.  The first grid tried
is coarser than the number, and the nineteenth after it is fine enough for every number. -/
def shortestDigits (mantissa : Nat) (exponent : Int) : Nat × Int :=
  let i := roundingInterval mantissa exponent
  let size (n : Nat) : Int := (Nat.toDigits 10 n).length
  i.search 24 (size i.value - size i.den + 2)

/-- Where a numeral changes from positional to scientific notation: positional when the point stands
more than `least` and at most `greatest` digits after the front of the digits. -/
structure PointRange where
  least : Int
  greatest : Int
  deriving Repr

/-- A positive number in decimal notation, from its digits and the power of ten they count.  A whole
number shows one zero after the point; an exponent has a sign and at least two digits. -/
def decimalNotation (range : PointRange) (digits : Nat) (exponent : Int) : List Char :=
  let text := Nat.toDigits 10 digits
  let point : Int := text.length + exponent
  if range.least < point && point ≤ range.greatest then
    if point ≤ 0 then '0' :: '.' :: List.replicate (-point).toNat '0' ++ text
    else if text.length ≤ point.toNat then
      text ++ List.replicate (point.toNat - text.length) '0' ++ ['.', '0']
    else text.take point.toNat ++ '.' :: text.drop point.toNat
  else
    let tail := if text.length ≤ 1 then text else text.take 1 ++ '.' :: text.drop 1
    let power := point - 1
    let sign := if power < 0 then '-' else '+'
    let powerText := Nat.toDigits 10 power.natAbs
    tail ++ 'e' :: sign :: (if powerText.length < 2 then '0' :: powerText else powerText)

/-- A binary number in decimal notation, with the fewest digits that read back. -/
def Binary64.notate (range : PointRange) : Binary64 → List Char
  | .nan => ['n', 'a', 'n']
  | .infinite negative => (if negative then ['-'] else []) ++ ['i', 'n', 'f']
  | .finite negative mantissa exponent =>
    let (digits, power) := if mantissa = 0 then (0, 0) else shortestDigits mantissa exponent
    (if negative then ['-'] else []) ++ decimalNotation range digits power

end RingTape.Decimal
