/-!
# Binary floating-point numbers

The numbers of the binary64 format, as exact values: a sign, a natural mantissa below `2 ^ 53` and a
power of two, or an infinity, or the result that is no number.  Every operation takes the exact
result and rounds it to the nearest such number, a tie to the even mantissa.  Nothing here goes
through machine floats.
-/

namespace RingTape.Decimal

/-- The quotient of two natural numbers, rounded to the nearest, a half to the even neighbour. -/
def roundHalfEven (num den : Nat) : Nat :=
  let quotient := num / den
  let twice := 2 * (num % den)
  if twice < den then quotient
  else if den < twice then quotient + 1
  else quotient + quotient % 2

/-- A binary64 number. -/
inductive Binary64 where
  | finite (negative : Bool) (mantissa : Nat) (exponent : Int)
  | infinite (negative : Bool)
  | nan
  deriving DecidableEq, Repr

namespace Binary64

/-- The least exponent: that of the numbers nearest to zero. -/
def minExponent : Int := -1074

/-- The greatest exponent of a finite number. -/
def maxExponent : Int := 971

/-- The least mantissa of a number of full precision: the first of fifty-three bits alone. -/
def leadingBit : Nat := 4503599627370496

/-- An integer power of the base, as a quotient of natural numbers. -/
def powerRatio (base : Nat) (exponent : Int) : Nat × Nat :=
  (Nat.pow base exponent.toNat, Nat.pow base (-exponent).toNat)

/-- The number nearest to `num / den`, with the given sign. -/
def ofRatio (negative : Bool) (num den : Nat) : Binary64 :=
  if num = 0 then .finite negative 0 minExponent
  else
    let guess : Int := (num.log2 : Int) - den.log2
    let (up, down) := powerRatio 2 guess
    let top := if den * up ≤ num * down then guess else guess - 1
    let exponent := max (top - 52) minExponent
    let (up, down) := powerRatio 2 exponent
    let mantissa := roundHalfEven (num * down) (den * up)
    let (mantissa, exponent) :=
      if mantissa = 2 * leadingBit then (leadingBit, exponent + 1) else (mantissa, exponent)
    if maxExponent < exponent then .infinite negative
    else .finite negative mantissa exponent

/-- The number nearest to `digits * 10 ^ exponent`.  Far beyond the range of the format the power is
not formed at all. -/
def ofDecimal (negative : Bool) (digits : Nat) (exponent : Int) : Binary64 :=
  let size : Int := (Nat.toDigits 10 digits).length + exponent
  if digits = 0 || size < -400 then .finite negative 0 minExponent
  else if 400 < size then .infinite negative
  else
    let (up, down) := powerRatio 10 exponent
    ofRatio negative (digits * up) down

/-- The number nearest to an integer; an integer beyond the range has none. -/
def ofInt? (n : Int) : Option Binary64 :=
  match ofRatio (n < 0) n.natAbs 1 with
  | .infinite _ => none
  | x => some x

/-- The exact value of a finite number, as a sign and a quotient of natural numbers. -/
def magnitude (mantissa : Nat) (exponent : Int) : Nat × Nat :=
  let (up, down) := powerRatio 2 exponent
  (mantissa * up, down)

def neg : Binary64 → Binary64
  | .finite negative mantissa exponent => .finite (!negative) mantissa exponent
  | .infinite negative => .infinite (!negative)
  | .nan => .nan

/-- The rounded product. -/
def mul : Binary64 → Binary64 → Binary64
  | .finite s m e, .finite t n f =>
    let (a, b) := magnitude m e
    let (c, d) := magnitude n f
    ofRatio (s != t) (a * c) (b * d)
  | .nan, _ | _, .nan => .nan
  | .infinite s, .finite t n _ => if n = 0 then .nan else .infinite (s != t)
  | .finite s m _, .infinite t => if m = 0 then .nan else .infinite (s != t)
  | .infinite s, .infinite t => .infinite (s != t)

/-- The rounded sum.  A sum that is exactly zero has the common sign of its terms, else none. -/
def add : Binary64 → Binary64 → Binary64
  | .finite s m e, .finite t n f =>
    let (a, b) := magnitude m e
    let (c, d) := magnitude n f
    let left : Int := if s then -(a * d : Nat) else (a * d : Nat)
    let right : Int := if t then -(c * b : Nat) else (c * b : Nat)
    let total := left + right
    if total = 0 then .finite (s && t) 0 minExponent
    else ofRatio (total < 0) total.natAbs (b * d)
  | .nan, _ | _, .nan => .nan
  | .infinite s, .infinite t => if s = t then .infinite s else .nan
  | .infinite s, .finite .. => .infinite s
  | .finite .., .infinite t => .infinite t

def isZero : Binary64 → Bool
  | .finite _ mantissa _ => mantissa == 0
  | _ => false

def isInt (n : Int) : Binary64 → Bool
  | .finite negative mantissa exponent =>
    let (a, b) := magnitude mantissa exponent
    (if negative then -(a : Int) else a) == n * b
  | _ => false

/-- Whether two numbers name the same point of the line; the two zeros do. -/
def same (x y : Binary64) : Bool :=
  x == y || (x.isZero && y.isZero)

end Binary64

end RingTape.Decimal
