import RingTape.Text.Blank
import RingTape.Token

/-!
# The ring of cells

A tape is a ring of cells.  The head is an unbounded integer, and it reads the cell that its residue
modulo the number of cells names, so that there is no first cell and no last one.
-/

namespace RingTape

open Text

/-- The cells of a ring, from the one that the head starts on. -/
abbrev Tape := List Symbol

namespace Tape

/-- The residue of a head position, with the sign of the size.  A ring without cells has none. -/
def wrap? (head size : Int) : Option Int :=
  if size = 0 then none else some (head.fmod size)

/-- The cell of a ring of `size` cells that the head is on. -/
def cell (head : Int) (size : Nat) : Nat :=
  (head % (size : Int)).toNat

theorem cell_lt
    (head : Int) {size : Nat} (h : 0 < size) :
    cell head size < size := by
  have hpos : (0 : Int) < size := Int.natCast_pos.2 h
  have h0 := Int.emod_nonneg head (Int.ne_of_gt hpos)
  have h1 := Int.emod_lt_of_pos head hpos
  unfold cell
  omega

theorem cell_eq_iff
    {a b : Int} {size : Nat} (h : 0 < size) :
    cell a size = cell b size ↔ a % (size : Int) = b % (size : Int) := by
  have hpos : (0 : Int) < size := Int.natCast_pos.2 h
  have ha := Int.emod_nonneg a (Int.ne_of_gt hpos)
  have hb := Int.emod_nonneg b (Int.ne_of_gt hpos)
  unfold cell
  omega

/-- A ring of `size` cells that repeats the pattern, the last copy cut short where the cells end.
Without a pattern the cells are blank. -/
def tile (size : Nat) (pattern : List Symbol) : Tape :=
  match pattern with
  | [] => List.replicate size none
  | _ =>
    (List.replicate (size / pattern.length) pattern).flatten ++
      pattern.take (size % pattern.length)

@[simp]
theorem length_tile
    (size : Nat) (pattern : List Symbol) :
    (tile size pattern).length = size := by
  unfold tile
  split
  · simp
  · next h =>
    have hpos : 0 < pattern.length := List.length_pos_iff.2 h
    simp only [List.length_append, List.length_flatten, List.map_replicate,
      List.sum_replicate_nat, List.length_take]
    rw [Nat.min_eq_left (Nat.le_of_lt (Nat.mod_lt _ hpos))]
    exact Nat.div_add_mod' size pattern.length

/-- The cells in a line, a placeholder for the blank ones. -/
def render (blank separator : List Char) (tape : Tape) : List Char :=
  joinWith separator (tape.map fun
    | none => blank
    | some name => name.toList)

/-- The cells in a line, with spaces between them. -/
def line (blank : String) (tape : Tape) : String :=
  String.ofList (tape.render blank.toList [' '])

end Tape

end RingTape
