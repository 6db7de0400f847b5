import RingTape.Text.Lines

/-!
# UTF-8 files

A file is a list of bytes.  Its text is what UTF-8 makes of them, after a byte order mark at the
very start, with every line end written as a line feed.  A file that is not UTF-8 is refused at the
first byte that no text can continue, and the refusal says which bytes are at fault.
-/

namespace RingTape.Text

/-- Why bytes are not UTF-8.  Positions count from the start of the bytes that are decoded. -/
inductive Utf8Fault where
  /-- No character starts with this byte. -/
  | invalidStart (position : Nat) (byte : UInt8)
  /-- `count` bytes start a character, and the byte after them does not go on with it. -/
  | invalidContinuation (position : Nat) (byte : UInt8) (count : Nat)
  /-- `count` bytes start a character, and the file ends there. -/
  | unexpectedEnd (position : Nat) (byte : UInt8) (count : Nat)
  deriving DecidableEq, Repr

/-- The bytes at fault, named by position. -/
private def Utf8Fault.place (position : Nat) (byte : UInt8) (count : Nat) : String :=
  if count ≤ 1 then
    "byte 0x" ++ String.ofList (hexByte byte) ++ " in position " ++ toString position
  else
    "bytes in position " ++ toString position ++ "-" ++ toString (position + count - 1)
where
  hexByte (b : UInt8) : List Char :=
    [Nat.digitChar (b.toNat / 16), Nat.digitChar (b.toNat % 16)]

def Utf8Fault.message : Utf8Fault → String
  | .invalidStart position byte =>
    "'utf-8' codec can't decode " ++ place position byte 1 ++ ": invalid start byte"
  | .invalidContinuation position byte count =>
    "'utf-8' codec can't decode " ++ place position byte count ++ ": invalid continuation byte"
  | .unexpectedEnd position byte count =>
    "'utf-8' codec can't decode " ++ place position byte count ++ ": unexpected end of data"

/-- Whether a byte can stand after the second one of a character. -/
def isTail (b : UInt8) : Bool :=
  0x80 ≤ b && b < 0xC0

/-- Whether a byte can stand second in a character that starts with `lead`.  Four leads narrow the
range, against overlong forms, surrogates and numbers beyond the last code point. -/
def isSecond (lead b : UInt8) : Bool :=
  if lead = 0xE0 then 0xA0 ≤ b && b < 0xC0
  else if lead = 0xED then 0x80 ≤ b && b < 0xA0
  else if lead = 0xF0 then 0x90 ≤ b && b < 0xC0
  else if lead = 0xF4 then 0x80 ≤ b && b < 0x90
  else isTail b

/-- The six low bits of a byte, after those of the number `n`. -/
def pushSix (n : Nat) (b : UInt8) : Nat :=
  n * 64 + b.toNat % 64

/-- The characters of the bytes from `position` on. -/
def decodeFrom (position : Nat) : List UInt8 → Except Utf8Fault (List Char)
  | [] => .ok []
  | a :: rest =>
    if a < 0x80 then
      (Char.ofNat a.toNat :: ·) <$> decodeFrom (position + 1) rest
    else if a < 0xC2 || 0xF5 ≤ a then .error (.invalidStart position a)
    else match rest with
      | [] => .error (.unexpectedEnd position a 1)
      | b :: rest =>
        if !isSecond a b then .error (.invalidContinuation position a 1)
        else if a < 0xE0 then
          (Char.ofNat (pushSix (a.toNat % 32) b) :: ·) <$> decodeFrom (position + 2) rest
        else match rest with
          | [] => .error (.unexpectedEnd position a 2)
          | c :: rest =>
            if !isTail c then .error (.invalidContinuation position a 2)
            else if a < 0xF0 then
              (Char.ofNat (pushSix (pushSix (a.toNat % 16) b) c) :: ·) <$>
                decodeFrom (position + 3) rest
            else match rest with
              | [] => .error (.unexpectedEnd position a 3)
              | d :: rest =>
                if !isTail d then .error (.invalidContinuation position a 3)
                else
                  (Char.ofNat (pushSix (pushSix (pushSix (a.toNat % 8) b) c) d) :: ·) <$>
                    decodeFrom (position + 4) rest

def encodeUtf8 (cs : List Char) : List UInt8 :=
  cs.flatMap String.utf8EncodeChar

def byteOrderMark : List UInt8 := [0xEF, 0xBB, 0xBF]

/-- The bytes after a byte order mark.  A file that ends inside its mark holds nothing else. -/
def dropByteOrderMark : List UInt8 → List UInt8
  | 0xEF :: 0xBB :: 0xBF :: rest => rest
  | [0xEF, 0xBB] => []
  | [0xEF] => []
  | bytes => bytes

/-- The text of a file. -/
def decodeFile (bytes : List UInt8) : Except Utf8Fault (List Char) :=
  unifyLineEnds <$> decodeFrom 0 (dropByteOrderMark bytes)

end RingTape.Text
