import RingTape.History.Save
import RingTape.Launch.CommandLine
import RingTape.Launch.Load
import RingTape.Machine.Playback

/-!
# Launches

A launch reads the environment and the command line, loads a machine, runs it, and saves the history
of the run where it is asked to.  It either plays the run, with every tape shown, or shows the final
tape only.
-/

namespace RingTape

open Text CommandLine

/-- What a launch finds.  The environment is the one in which the variables of a settings file have
been set already, where there is such a file. -/
structure Surroundings where
  environment : Environment
  files : FileTree
  /-- The text that is typed. -/
  input : List Char
  loader : Yaml.Loader

/-- A fault that ends a launch without a report. -/
inductive Escape where
  | load (fault : LoadFault)
  | step (fault : StepFault)
  /-- A line was awaited and the input was at its end. -/
  | endOfInput
  | history (fault : HistoryFault)
  | save (fault : FileFault)
  deriving Repr

def Escape.message : Escape → String
  | .load fault => fault.message
  | .step fault => fault.message
  | .endOfInput => "EOF when reading a line"
  | .history fault => fault.message
  | .save fault => fault.message

/-- How a launch ends. -/
inductive Exit where
  | status (code : Nat)
  | escaped (fault : Escape)
  deriving Repr

/-- What a launch leaves. -/
structure Outcome where
  ending : Exit
  output : String
  complaint : String
  files : FileTree
  deriving Repr

namespace Launch

/-- A run that a launch makes: the machine after it, its history, what it shows, and the fault that
ended it, if one did. -/
structure Performance where
  machine : Machine
  history : History
  output : String
  fault : Option Escape
  deriving Repr

/-- A run that shows the final tape. -/
def performFinal (invocation : Invocation) (m : Machine) : Performance :=
  let run := m.run (.ofInt invocation.steps)
  match run.fault with
  | some fault => ⟨run.machine, run.history, "", some (.step fault)⟩
  | none =>
    ⟨run.machine, run.history, run.machine.tape.line invocation.blank ++ "\n", none⟩

/-- A run that is played. -/
def performPlayback (invocation : Invocation) (input : List Char) (m : Machine) : Performance :=
  let p := m.play (.ofInt invocation.steps) invocation.pause (inputLines input)
  let fault :=
    match p.ending with
    | .finished => none
    | .endOfInput => some .endOfInput
    | .fault fault => some (.step fault)
  ⟨p.machine, p.history, p.text invocation.blank, fault⟩

/-- The run that a command line asks for. -/
def perform (invocation : Invocation) (input : List Char) (m : Machine) : Performance :=
  if invocation.finalOnly then performFinal invocation m else performPlayback invocation input m

/-- The bytes of the array file of a history. -/
def arrayBytes (history : History) : Except HistoryFault (List UInt8) :=
  (fun result => ArrayFile.bytes result.1) <$> history.toMatrix none

/-- The files after the history of a run is saved.  An empty path stands for none. -/
def save (files : FileTree) (path : Option String) (history : History) :
    Except Escape FileTree :=
  match path with
  | none => .ok files
  | some path =>
    if path.isEmpty then .ok files
    else match history.save none path files with
      | (saved, .ok _) => .ok saved
      | (_, .error (.history fault)) => .error (.history fault)
      | (_, .error (.file fault)) => .error (.save fault)

/-- The last line of a launch. -/
def statusLine (m : Machine) : String :=
  "Machine " ++ (if m.halted then "halted" else "stopped") ++ " after " ++
    toString m.stepsTaken ++ " steps.\n"

def commandName : String := "turing_main.py"

def help : String :=
  "usage: " ++ commandName ++ " [-h] [--blank BLANK] [--final] [--save-npy PATH] " ++
    "program [tape_size] [steps] [pause_ms]\n"

/-- How a command line is refused. -/
def refusal (fault : UsageFault) : String :=
  commandName ++ ": error: " ++ fault.message ++ "\n"

/-- How a file is refused. -/
def complaint (fault : LoadFault) : String :=
  "error: " ++ fault.message ++ "\n"

/-- The launch of a machine. -/
def conclude (invocation : Invocation) (s : Surroundings) (m : Machine) : Outcome :=
  let p := perform invocation s.input m
  match p.fault with
  | some fault => ⟨.escaped fault, p.output, "", s.files⟩
  | none =>
    match save s.files invocation.saveTo p.history with
    | .error fault => ⟨.escaped fault, p.output, "", s.files⟩
    | .ok files => ⟨.status 0, p.output ++ statusLine p.machine, "", files⟩

/-- The launch of a program. -/
def start (invocation : Invocation) (s : Surroundings) : Outcome :=
  match Machine.load s.loader s.files invocation.program invocation.tapeSize with
  | .error fault =>
    if fault.isReported then ⟨.status 2, "", complaint fault, s.files⟩
    else ⟨.escaped (.load fault), "", "", s.files⟩
  | .ok m => conclude invocation s m

/-- The launch with the words of a command line. -/
def run (words : List String) (s : Surroundings) : Outcome :=
  match s.environment.defaults with
  | .error fault => ⟨.status 1, "", fault.message ++ "\n", s.files⟩
  | .ok defaults =>
    match CommandLine.parse defaults words with
    | .error fault => ⟨.status 2, "", refusal fault, s.files⟩
    | .ok .help => ⟨.status 0, help, "", s.files⟩
    | .ok (.run invocation) => start invocation s

end Launch

end RingTape
