import RingTape.Machine.Run
import RingTape.Program.Parse

/-!
# A demonstration

The busy beaver with four states, on a ring of sixteen cells.  It writes thirteen ones and halts.  A
ring of fourteen cells is the smallest on which it never meets what it has written.
-/

namespace RingTape

open Text

namespace Demonstration

/-- The program of the busy beaver. -/
def busyBeaver : String :=
  "\n; busy beaver, 4 states, 2 symbols\n" ++
  "~A\n#H\n@0\n" ++
  "A B 0 1 R\nA B 1 1 L\n" ++
  "B A 0 1 L\nB C 1 0 L\n" ++
  "C H 0 1 R    ; halt when in state C reading 0\nC D 1 1 L\n" ++
  "D D 0 1 R\nD A 1 0 R\n"

def tapeSize : Nat := 16

def ruler : String :=
  String.ofList (List.replicate 60 '=')

/-- How a truth value is written in the report. -/
def truth (b : Bool) : String :=
  if b then "True" else "False"

/-- What is told before the run. -/
def opening : List String :=
  [ ruler,
    "TURING MACHINE SIMULATOR",
    ruler,
    "\nRunning 4-State Busy Beaver on a 16-cell tape",
    "Expected: 13 ones written, 107 steps to halt\n" ]

/-- What is told of a run: its first five tapes, the last one, and the results. -/
def account (run : Run) : List String :=
  let m := run.machine
  (run.history.take 5).map (Tape.line "_") ++
    [ "...",
      m.tape.line "_",
      "\n" ++ ruler,
      "RESULTS:",
      "  Total steps: " ++ toString m.stepsTaken,
      "  Ones on tape: " ++ toString (m.tape.count (some "1")),
      "  Halted: " ++ truth m.halted,
      ruler ]

def run? : Option Run := do
  let ruleset ← (Program.parseText (.int tapeSize) busyBeaver.toList).toOption
  let m ← (Machine.ofRuleset ruleset).toOption
  return m.run .unlimited

def lines : List String :=
  opening ++ (run?.map account).getD []

def text : String :=
  String.join (lines.map (· ++ "\n"))

end Demonstration

end RingTape
