import RingTape.Yaml.Cursor
import Mathlib.Data.List.TakeWhile

/-!
# Going through a line

What the operations on a cursor do to characters that stay on the line: the cursor moves on by as
many places and columns as there are characters.
-/

namespace RingTape.Yaml

/-- The characters that a document may hold within a line, each of them in a column of its own. -/
def isInline (c : Char) : Bool :=
  isAllowed c && !isBreak c && c != byteOrderMark

/-- A text within a line. -/
def IsInline (text : List Char) : Prop :=
  ∀ c ∈ text, isInline c = true

-- By the characters of the text: the instance for all characters there are would not evaluate.
instance (text : List Char) : Decidable (IsInline text) :=
  List.decidableBAll (isInline · = true) text

theorem not_isBreak_of_isInline
    {c : Char} (h : isInline c = true) :
    isBreak c = false := by
  rw [isInline, Bool.and_eq_true, Bool.and_eq_true, Bool.not_eq_true'] at h
  exact h.1.2

theorem ne_byteOrderMark_of_isInline
    {c : Char} (h : isInline c = true) :
    c ≠ byteOrderMark := by
  rw [isInline, Bool.and_eq_true, bne_iff_ne] at h
  exact h.2

theorem isAllowed_of_isInline
    {c : Char} (h : isInline c = true) :
    isAllowed c = true := by
  rw [isInline, Bool.and_eq_true, Bool.and_eq_true] at h
  exact h.1.1

theorem isInline_append
    {text more : List Char} :
    IsInline (text ++ more) ↔ IsInline text ∧ IsInline more :=
  List.forall_mem_append

theorem isInline_cons
    {c : Char} {text : List Char} :
    IsInline (c :: text) ↔ isInline c = true ∧ IsInline text :=
  List.forall_mem_cons

/-- Spaces in a row. -/
def spaces (n : Nat) : List Char :=
  List.replicate n ' '

theorem isInline_spaces
    (n : Nat) :
    IsInline (spaces n) := by
  intro c hc
  rw [List.eq_of_mem_replicate hc]
  decide

namespace Cursor

variable {index line column : Nat} {rest : List Char}

theorem next_of_isInline
    {c : Char} (h : isInline c = true) :
    next ⟨c :: rest, index, line, column⟩ = ⟨rest, index + 1, line, column + 1⟩ := by
  have hbreak := not_isBreak_of_isInline h
  have hmark : (c == byteOrderMark) = false := beq_false_of_ne (ne_byteOrderMark_of_isInline h)
  simp [next, hbreak, hmark]

/-- A line feed ends the line. -/
theorem next_lineFeed :
    next ⟨'\n' :: rest, index, line, column⟩ = ⟨rest, index + 1, line + 1, 0⟩ := by
  simp [next, isBreak]

theorem advance_of_isInline
    {text : List Char} (h : IsInline text) :
    advance text.length ⟨text ++ rest, index, line, column⟩ =
      ⟨rest, index + text.length, line, column + text.length⟩ := by
  induction text generalizing index column with
  | nil => rfl
  | cons c text ih =>
      rw [isInline_cons] at h
      rw [List.cons_append, List.length_cons, advance, next_of_isInline h.1, ih h.2]
      congr 1 <;> omega

theorem takeWhile_eq
    {p : Char → Bool} {text : List Char} (h : IsInline text) (hp : ∀ c ∈ text, p c = true)
    (hrest : rest.head?.any p = false) :
    takeWhile p ⟨text ++ rest, index, line, column⟩ =
      (text, ⟨rest, index + text.length, line, column + text.length⟩) := by
  have hnone : rest.takeWhile p = [] := by
    cases rest with
    | nil => rfl
    | cons c rest => exact List.takeWhile_cons_of_neg (by simpa using hrest)
  have hrun : (text ++ rest).takeWhile p = text := by
    rw [List.takeWhile_append_of_pos hp, hnone, List.append_nil]
  rw [takeWhile]
  dsimp only
  rw [hrun, advance_of_isInline h]

theorem takeWhile_spaces
    {n : Nat} (hrest : rest.head? ≠ some ' ') :
    takeWhile (· == ' ') ⟨spaces n ++ rest, index, line, column⟩ =
      (spaces n, ⟨rest, index + n, line, column + n⟩) := by
  have hnone : rest.head?.any (· == ' ') = false := by
    cases rest with
    | nil => rfl
    | cons c rest => simpa using hrest
  have hspaces : ∀ c ∈ spaces n, (c == ' ') = true :=
    fun c hc => beq_iff_eq.mpr (List.eq_of_mem_replicate hc)
  rw [takeWhile_eq (isInline_spaces n) hspaces hnone]
  simp [spaces]

theorem skipSpaces_eq
    {n : Nat} (hrest : rest.head? ≠ some ' ') :
    skipSpaces ⟨spaces n ++ rest, index, line, column⟩ = ⟨rest, index + n, line, column + n⟩ := by
  rw [skipSpaces, skipWhile, takeWhile_spaces hrest]

theorem takeBreak_lineFeed :
    takeBreak ⟨'\n' :: rest, index, line, column⟩ = (['\n'], ⟨rest, index + 1, line + 1, 0⟩) := by
  simp [takeBreak, next_lineFeed]

theorem takeBreak_of_not_isBreak
    (h : rest.head?.any isBreak = false) :
    takeBreak ⟨rest, index, line, column⟩ = ([], ⟨rest, index, line, column⟩) := by
  cases rest with
  | nil => rfl
  | cons c rest =>
      have hc : isBreak c = false := by simpa using h
      have hreturn : c ≠ '\r' := by
        rintro rfl
        exact absurd hc (by decide)
      have hfeed : c ≠ '\n' := by
        rintro rfl
        exact absurd hc (by decide)
      have hnext : c.toNat ≠ 0x85 := by
        intro hnext
        rw [isBreak, hnext] at hc
        exact absurd hc (by decide)
      simp [takeBreak, hreturn, hfeed, hnext, hc]

end Cursor

/-! ## What a token starts with -/

variable {index line column : Nat} {rest : List Char}

/-- A text that starts with a token, and so with no space and no comment, or that is at its end. -/
def StartsToken (rest : List Char) : Prop :=
  ∀ c, rest.head? = some c → isInline c = true ∧ c ≠ ' ' ∧ c ≠ '#'

theorem StartsToken.head?_ne
    (h : StartsToken rest) :
    rest.head? ≠ some ' ' :=
  fun hspace => (h ' ' hspace).2.1 rfl

theorem StartsToken.not_isBreak
    (h : StartsToken rest) :
    rest.head?.any isBreak = false := by
  cases rest with
  | nil => rfl
  | cons c rest => exact not_isBreak_of_isInline (h c rfl).1

theorem StartsToken.not_at
    (h : StartsToken rest) :
    (⟨rest, index, line, column⟩ : Cursor).at? '#' = false := by
  apply beq_false_of_ne
  intro heq
  exact (h '#' heq).2.2 rfl

theorem StartsToken.not_at_mark
    (h : StartsToken rest) :
    (⟨rest, index, line, column⟩ : Cursor).at? byteOrderMark = false := by
  apply beq_false_of_ne
  intro heq
  exact ne_byteOrderMark_of_isInline (h byteOrderMark heq).1 rfl

/-- A text that does not start like the border of a document. -/
def NoBorder (rest : List Char) : Prop :=
  rest.take 3 ≠ ['-', '-', '-'] ∧ rest.take 3 ≠ ['.', '.', '.']

theorem not_atSeparator
    (h : NoBorder rest) :
    (⟨rest, index, line, column⟩ : Cursor).atSeparator = false := by
  rw [Cursor.atSeparator, beq_false_of_ne h.1, beq_false_of_ne h.2]
  rfl

theorem noBorder_of_head?
    {c : Char} (h : rest.head? = some c) (hdash : c ≠ '-') (hpoint : c ≠ '.') :
    NoBorder rest := by
  obtain ⟨more, rfl⟩ := List.head?_eq_some_iff.mp h
  constructor <;> intro heq <;> rw [List.take_succ_cons, List.cons.injEq] at heq
  · exact hdash heq.1
  · exact hpoint heq.1

end RingTape.Yaml
