import RingTape.Datum.Show

/-!
# Tape sizes

A tape has a positive number of cells.  A size comes from outside as a datum of any kind, and only a
positive integer is accepted; a truth value is no integer here.  The refusal of a size shows it, and
is another one where it cannot be shown.
-/

namespace RingTape

/-- Why a datum is no tape size. -/
inductive TapeSizeFault where
  | illegal (shown : String)
  /-- The size, or what is in it, is an integer too long to be shown. -/
  | unshowable (cause : ShowFault)
  deriving DecidableEq, Repr

def TapeSizeFault.message : TapeSizeFault → String
  | .illegal shown => "Illegal Tape Size : " ++ shown
  | .unshowable cause => cause.message

/-- The refusal of a datum as a tape size. -/
def TapeSizeFault.ofSize (size : Datum) : TapeSizeFault :=
  match size.toText with
  | .ok shown => .illegal shown
  | .error cause => .unshowable cause

/-- The most cells of one kind that can be laid out at once: a signed word of sixty-four bits counts
them. -/
def maxCells : Nat := 9223372036854775807

def tooManyCellsMessage : String := "cannot fit 'int' into an index-sized integer"

/-- The number of cells that a datum stands for. -/
def tapeSize (size : Datum) : Except TapeSizeFault Nat :=
  match size with
  | .int n => if 0 < n then .ok n.toNat else .error (.ofSize size)
  | _ => .error (.ofSize size)

theorem tapeSize_natCast
    {n : Nat} (h : 0 < n) :
    tapeSize (.int n) = .ok n := by
  rw [tapeSize, if_pos (Int.natCast_pos.2 h), Int.toNat_natCast]

end RingTape
