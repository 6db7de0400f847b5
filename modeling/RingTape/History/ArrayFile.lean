import RingTape.History.Encoding
import RingTape.Text.Numeral

/-!
# Array files

The file in which a matrix is kept.  It starts with a mark and the length of a header; the header
says that the cells are signed words of sixteen bits, low byte first, row by row, and how many rows
and columns there are.  Spaces fill the header up, so that the number of rows can grow in place and
the cells start at a multiple of sixty-four bytes.
-/

namespace RingTape

open Text

namespace ArrayFile

/-- The first eight bytes: a mark and the version of the format. -/
def magic : List UInt8 := [0x93, 0x4E, 0x55, 0x4D, 0x50, 0x59, 1, 0]

def asciiBytes (cs : List Char) : List UInt8 :=
  cs.map fun c => UInt8.ofNat c.toNat

/-- A natural number below `2 ^ 16` in two bytes, low byte first. -/
def word (n : Nat) : List UInt8 :=
  [UInt8.ofNat (n % 256), UInt8.ofNat (n / 256 % 256)]

/-- A cell in two bytes, in two's complement. -/
def cellBytes (n : Int) : List UInt8 :=
  word (n.emod 65536).toNat

/-- What the header says. -/
def description (m : Matrix) : List Char :=
  "\x7b'descr': '<i2', 'fortran_order': False, 'shape': (".toList ++ natText m.rows ++ ", ".toList ++
    natText m.columns ++ "), \x7d".toList

/-- The width that the number of rows may grow to. -/
def rowWidth : Nat := 21

/-- The header with its spaces and the line feed that ends it.  The ten bytes before it count for
the alignment. -/
def header (m : Matrix) : List Char :=
  let text := description m ++ List.replicate (rowWidth - (natText m.rows).length) ' '
  text ++ List.replicate (64 - (10 + text.length + 1) % 64) ' ' ++ ['\n']

def bytes (m : Matrix) : List UInt8 :=
  magic ++ word (header m).length ++ asciiBytes (header m) ++ m.cells.flatten.flatMap cellBytes

def suffix : String := ".npy"

/-- The name of the file: a path that does not end in the suffix of array files gets it. -/
def path (name : String) : String :=
  if suffix.toList.isSuffixOf name.toList then name else name ++ suffix

end ArrayFile

end RingTape
