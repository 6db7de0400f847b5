import RingTape.Launch.Outcome
import RingTape.Yaml.Value

/-!
# The command line

The outer layer: files, the environment and the terminal.  All that is read here is handed to
`Launch`, and what a launch decides is written out.  A played run is followed step by step, so that
the terminal can be waited for.
-/

namespace RingTape.Terminal

open CommandLine Launch

def variableNames : List String :=
  ["TURING_TAPE_SIZE", "TURING_STEPS", "TURING_PAUSE_MS", "TURING_BLANK"]

def environment : IO Environment := do
  let mut found : Environment := []
  for name in variableNames do
    if let some value ← IO.getEnv name then
      found := found ++ [(name, value)]
  return found

/-- What is wrong with a path that cannot be opened. -/
def pathFault (path : String) : IO.Error → FileFault
  | .inappropriateType _ 21 _ => .isADirectory path
  | .inappropriateType .. => .notADirectory path
  | _ => .missing path

def readBytes (path : String) : IO (Except FileFault (List UInt8)) := do
  try return .ok (← IO.FS.readBinFile path).toList
  catch fault => return .error (pathFault path fault)

/-- Writes the history of a run to the file that the command line names, if it names one. -/
def saveHistory (path : Option String) (history : History) : IO Unit := do
  let some path := path | return
  if path.isEmpty then return
  match arrayBytes history with
  | .error fault => throw (.userError fault.message)
  | .ok bytes => IO.FS.writeBinFile (ArrayFile.path path) ⟨bytes.toArray⟩

/-- Waits as a played run does after a step. -/
def await (wait : Wait) : IO Unit := do
  match wait with
  | .none => return
  | .sleep milliseconds => IO.sleep milliseconds.toUInt32
  | .enter =>
    let stdout ← IO.getStdout
    stdout.putStr Playback.prompt
    stdout.flush
    if (← (← IO.getStdin).getLine).isEmpty then
      throw (.userError Escape.endOfInput.message)

/-- Plays a run on the terminal.  The history comes last tape first. -/
partial def play (blank : String) (wait : Wait) (budget : Budget) (history : History)
    (m : Machine) : IO (Machine × History) := do
  if budget = .steps 0 then return (m, history)
  IO.println (m.tape.line blank)
  match m.step with
  | (_, .error fault) => throw (.userError fault.message)
  | (next, .ok proceed) =>
    if proceed then
      await wait
      let rest :=
        match budget with
        | .steps count => .steps (count - 1)
        | .unlimited => .unlimited
      play blank wait rest (m.tape :: history) next
    else return (next, m.tape :: history)

/-- Runs a machine as the command line asks. -/
def perform (invocation : Invocation) (m : Machine) : IO (Machine × History) := do
  if invocation.finalOnly then
    let p := performFinal invocation m
    IO.print p.output
    return (p.machine, p.history)
  else
    let wait := .ofPause invocation.pause
    let (last, history) ← play invocation.blank wait (.ofInt invocation.steps) [] m
    return (last, history.reverse)

/-- Writes a complaint and gives the exit status. -/
def refuse (text : String) (status : UInt32) : IO UInt32 := do
  IO.eprint text
  return status

/-- Loads a machine and runs it. -/
def start (invocation : Invocation) : IO UInt32 := do
  let bytes := (← readBytes invocation.program).mapError LoadFault.file
  match bytes.bind (Machine.ofFile Yaml.load invocation.program invocation.tapeSize) with
  | .error fault => refuse (complaint fault) (if fault.isReported then 2 else 1)
  | .ok m =>
    let (last, history) ← perform invocation m
    saveHistory invocation.saveTo history
    IO.print (statusLine last)
    return 0

/-- A launch with the words of a command line. -/
def launch (words : List String) : IO UInt32 := do
  match (← environment).defaults with
  | .error fault => refuse (fault.message ++ "\n") 1
  | .ok defaults =>
    match CommandLine.parse defaults words with
    | .error fault => refuse (refusal fault) 2
    | .ok .help => do
      IO.print help
      return 0
    | .ok (.run invocation) => start invocation

end RingTape.Terminal

def main (words : List String) : IO UInt32 :=
  RingTape.Terminal.launch words
