/-!
# Blanks and fields

The characters that count as blank between the fields of a program line, and the operations that
trim and split a text at them.  Texts are lists of characters here, so that each operation is a
plain recursion.
-/

namespace RingTape.Text

/-- The blank characters: the controls U+0009 to U+000D and U+001C to U+001F, the next-line control
U+0085, and the space characters of Unicode. -/
def isBlank (c : Char) : Bool :=
  let n := c.toNat
  (9 ≤ n && n ≤ 13) || (28 ≤ n && n ≤ 32) || n == 0x85 || n == 0xA0 || n == 0x1680 ||
    (0x2000 ≤ n && n ≤ 0x200A) || n == 0x2028 || n == 0x2029 || n == 0x202F || n == 0x205F ||
    n == 0x3000

/-- The text without the characters of class `p` at its end. -/
def dropWhileEnd (p : Char → Bool) : List Char → List Char
  | [] => []
  | c :: rest =>
    match dropWhileEnd p rest with
    | [] => if p c then [] else [c]
    | kept => c :: kept

/-- The text without the characters of class `p` at its two ends. -/
def trimWhere (p : Char → Bool) (cs : List Char) : List Char :=
  dropWhileEnd p (cs.dropWhile p)

def trim (cs : List Char) : List Char :=
  trimWhere isBlank cs

/-- The pieces of a text between the characters of class `p`: one more than there are such
characters. -/
def splitWhere (p : Char → Bool) : List Char → List (List Char)
  | [] => [[]]
  | c :: rest =>
    if p c then [] :: splitWhere p rest
    else match splitWhere p rest with
      | [] => [[c]]
      | piece :: pieces => (c :: piece) :: pieces

theorem splitWhere_ne_nil
    (p : Char → Bool) (cs : List Char) :
    splitWhere p cs ≠ [] := by
  cases cs with
  | nil => simp [splitWhere]
  | cons c rest =>
    simp only [splitWhere]
    split
    · simp
    · split <;> simp

theorem length_splitWhere
    (p : Char → Bool) (cs : List Char) :
    (splitWhere p cs).length = cs.countP p + 1 := by
  induction cs with
  | nil => rfl
  | cons c rest ih =>
    simp only [splitWhere]
    split
    · simp [*]
    · split
      · next h => exact absurd h (splitWhere_ne_nil p rest)
      · next h =>
        rw [h] at ih
        simp_all

/-- The maximal runs of characters that are not blank. -/
def fields (cs : List Char) : List (List Char) :=
  (splitWhere isBlank cs).filter (!·.isEmpty)

/-- The first `n` fields, and then the rest of the text as one last field, blanks inside it
included. -/
def fieldsUpTo : Nat → List Char → List (List Char)
  | n, cs =>
    match cs.dropWhile isBlank with
    | [] => []
    | c :: rest =>
      match n with
      | 0 => [c :: rest]
      | n + 1 =>
        (c :: rest.takeWhile (!isBlank ·)) :: fieldsUpTo n (rest.dropWhile (!isBlank ·))

/-- The texts in order, with `separator` between each two. -/
def joinWith (separator : List Char) : List (List Char) → List Char
  | [] => []
  | [piece] => piece
  | piece :: pieces => piece ++ separator ++ joinWith separator pieces

end RingTape.Text
