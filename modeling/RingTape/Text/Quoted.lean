import RingTape.Text.Printable

/-!
# Quoted text

The form in which messages show a piece of text: between single quotes, or between double quotes
when the text holds a single quote and no double one, with an escape for every character that could
be mistaken for another or for the end of the text.
-/

namespace RingTape.Text

def hexDigit (n : Nat) : Char :=
  if n < 10 then Char.ofNat (48 + n) else Char.ofNat (87 + n)

/-- The last `width` hexadecimal digits of a number. -/
def hexPadded : Nat → Nat → List Char
  | 0, _ => []
  | width + 1, n => hexPadded width (n / 16) ++ [hexDigit (n % 16)]

/-- The escape by code point: two digits after `x`, four after `u`, eight after `U`, the shortest
that holds the number. -/
def escapeCode (n : Nat) : List Char :=
  if n < 0x100 then '\\' :: 'x' :: hexPadded 2 n
  else if n < 0x10000 then '\\' :: 'u' :: hexPadded 4 n
  else '\\' :: 'U' :: hexPadded 8 n

/-- A character as it stands between quotes of the kind `quote`. -/
def escapeChar (quote c : Char) : List Char :=
  if c == quote || c == '\\' then ['\\', c]
  else if c == '\n' then ['\\', 'n']
  else if c == '\r' then ['\\', 'r']
  else if c == '\t' then ['\\', 't']
  else if isPrintable c then [c]
  else escapeCode c.toNat

/-- The quote that surrounds a text: a single one unless only a double one spares an escape. -/
def quoteFor (cs : List Char) : Char :=
  if cs.contains '\'' && !cs.contains '"' then '"' else '\''

/-- A text between quotes, escaped. -/
def quotedChars (cs : List Char) : List Char :=
  quoteFor cs :: cs.flatMap (escapeChar (quoteFor cs)) ++ [quoteFor cs]

/-- A text between quotes, escaped. -/
def quoted (s : String) : String :=
  String.ofList (quotedChars s.toList)

/-- A byte as it stands between quotes of the kind `quote`: only the printable part of ASCII is
written as itself. -/
def escapeByte (quote : Char) (b : UInt8) : List Char :=
  let c := Char.ofNat b.toNat
  if c == quote || c == '\\' then ['\\', c]
  else if c == '\n' then ['\\', 'n']
  else if c == '\r' then ['\\', 'r']
  else if c == '\t' then ['\\', 't']
  else if 32 ≤ b.toNat && b.toNat < 127 then [c]
  else '\\' :: 'x' :: hexPadded 2 b.toNat

def quotedBytes (bytes : List UInt8) : List Char :=
  let quote := quoteFor (bytes.map fun b => Char.ofNat b.toNat)
  'b' :: quote :: bytes.flatMap (escapeByte quote) ++ [quote]

end RingTape.Text
