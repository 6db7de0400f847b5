import RingTape.Text.Numeral
import RingTape.Text.Utf8
import RingTape.Yaml.Token.Basic

/-!
# Directives, anchors and tags

The tokens that say how other tokens are meant.
-/

namespace RingTape.Yaml

/-- The characters of a tag that are written as themselves. -/
def isTagChar (c : Char) : Bool :=
  c.isAlphanum || "-;/?:@&=+$,_.!~*'()[]".toList.contains c

def hexValue? (c : Char) : Option Nat :=
  if c.isDigit then some (c.toNat - 48)
  else if 'a' ≤ c && c ≤ 'f' then some (c.toNat - 87)
  else if 'A' ≤ c && c ≤ 'F' then some (c.toNat - 55)
  else none

/-- The number in the first `count` hexadecimal digits of a text. -/
def hexNumber? : Nat → Nat → List Char → Option Nat
  | 0, n, _ => some n
  | _ + 1, _, [] => none
  | count + 1, n, c :: rest =>
    match hexValue? c with
    | some d => hexNumber? count (n * 16 + d) rest
    | none => none

/-- The bytes of the escapes at the start of a text: a percent sign and two digits each. -/
def escapedBytes : List Char → Option (List UInt8)
  | '%' :: a :: b :: rest =>
    match hexNumber? 2 0 [a, b], escapedBytes rest with
    | some n, some bytes => some (UInt8.ofNat n :: bytes)
    | _, _ => none
  | '%' :: _ => none
  | _ => some []

/-- The text of a tag, in which escapes stand for the bytes of other characters. -/
def tagText : Nat → Reader (List Char)
  | 0, c => .ok ([], c)
  | fuel + 1, c =>
    match c.peek? with
    | some '%' =>
      match escapedBytes c.rest with
      | none => .error .malformed
      | some bytes =>
        match Text.decodeFrom 0 bytes with
        | .error _ => .error .malformed
        | .ok decoded => do
          let (more, c) ← tagText fuel (c.advance (3 * bytes.length))
          return (decoded ++ more, c)
    | some x =>
      if isTagChar x then do
        let (run, c) := c.takeWhile isTagChar
        let (more, c) ← tagText fuel c
        return (run ++ more, c)
      else .ok ([], c)
    | none => .ok ([], c)

/-- The text of a tag, which is not empty. -/
def readTagText : Reader (List Char) := fun c => do
  if (c.peek?.any fun x => isTagChar x || x == '%') then tagText (c.rest.length + 1) c
  else .error .malformed

/-- A handle of tags: an exclamation mark before a space, or a name, perhaps an empty one, between
two of them. -/
def readHandle : Reader (List Char) := fun c =>
  if c.at? '!' then
    let c := c.next
    if c.at? ' ' then .ok (['!'], c)
    else
      let (name, after) := c.takeWhile isNameChar
      if after.at? '!' then .ok ('!' :: name ++ ['!'], after.next) else .error .malformed
  else .error .malformed

def readTag : Reader Token := fun c => do
  let (token, c) ← match c.peekAt? 1 with
    | some '<' => do
      let (suffix, c) ← readTagText (c.advance 2)
      if c.at? '>' then pure (Token.tag none suffix, c.next) else throw .malformed
    | following =>
      if isGap following then pure (Token.tag none ['!'], c.next)
      else do
        let word := c.next.rest.takeWhile fun x => !isSpaceOrEnd (some x)
        let (handle, c) ←
          if word.contains '!' then readHandle c else pure (['!'], c.next)
        let (suffix, c) ← readTagText c
        pure (Token.tag (some handle) suffix, c)
  if isSpaceOrEnd c.peek? then return (token, c) else throw .malformed

def readAnchorName : Reader (List Char) := fun c =>
  let (name, c) := c.next.takeWhile isNameChar
  let ended := isGap c.peek? || c.peek?.any fun x => "?:,]\x7d%@`".toList.contains x
  if name.isEmpty || !ended then .error .malformed else .ok (name, c)

def readVersionNumber : Reader Nat := fun c =>
  let (digits, c) := c.takeWhile Char.isDigit
  if digits.isEmpty then .error .malformed
  else if Text.maxDecimalDigits < digits.length then
    .error (.value (.integerTooLong digits.length))
  else .ok (digits.foldl (fun n d => n * 10 + (d.toNat - 48)) 0, c)

/-- What follows the name of a version directive. -/
def readVersion : Reader Token := fun c => do
  let (major, c) ← readVersionNumber c.skipSpaces
  if c.at? '.' then
    let (_, c) ← readVersionNumber c.next
    if isSpaceOrEnd c.peek? then return (.version major, c) else throw .malformed
  else throw .malformed

/-- What follows the name of a handle directive. -/
def readHandleMeaning : Reader Token := fun c => do
  let (name, c) ← readHandle c.skipSpaces
  if c.at? ' ' then
    let (meaning, c) ← readTagText c.skipSpaces
    if isSpaceOrEnd c.peek? then return (.handle name meaning, c) else throw .malformed
  else throw .malformed

def readDirective : Reader Token := fun c => do
  let (name, c) := c.next.takeWhile isNameChar
  if name.isEmpty || !isSpaceOrEnd c.peek? then throw .malformed
  let (token, c) ←
    if name = ['Y', 'A', 'M', 'L'] then readVersion c
    else if name = ['T', 'A', 'G'] then readHandleMeaning c
    else pure (Token.reserved, c.skipWhile (!isBreak ·))
  return (token, ← endOfLine c)

end RingTape.Yaml
