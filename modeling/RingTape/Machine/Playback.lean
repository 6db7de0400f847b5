import RingTape.Machine.Run

/-!
# Playback

A playback shows the tape before every step and waits between steps: for some time, or for a line of
input.  It goes on until a step follows no rule or the budget is used up, and it ends early when a
line is awaited and the input has no more.
-/

namespace RingTape

/-- What a playback does after showing a tape. -/
inductive Wait where
  | none
  | sleep (milliseconds : Nat)
  | enter
  deriving DecidableEq, Repr

/-- The wait that a pause stands for: a negative one is for a line of input. -/
def Wait.ofPause (pause : Int) : Wait :=
  if pause < 0 then .enter else .sleep pause.toNat

/-- A tape as it is shown, and the wait after it. -/
structure Frame where
  tape : Tape
  wait : Wait
  deriving DecidableEq, Repr

/-- How a playback ends. -/
inductive PlaybackEnd where
  | finished
  /-- A line was awaited and the input was at its end. -/
  | endOfInput
  | fault (fault : StepFault)
  deriving DecidableEq, Repr

/-- What a playback leaves. -/
structure Playback where
  machine : Machine
  frames : List Frame
  ending : PlaybackEnd
  deriving DecidableEq, Repr

namespace Playback

/-- The playback after one more frame in front of it. -/
def after (frame : Frame) (p : Playback) : Playback :=
  { p with frames := frame :: p.frames }

def history (p : Playback) : List Tape :=
  p.frames.map (·.tape)

/-- What asks for a line of input. -/
def prompt : String := "Execution Paused - Press Enter to continue."

/-- What a frame writes. -/
def Frame.text (blank : String) (frame : Frame) : String :=
  frame.tape.line blank ++ "\n" ++ (if frame.wait = .enter then prompt else "")

/-- What a playback writes. -/
def text (blank : String) (p : Playback) : String :=
  String.join (p.frames.map (Frame.text blank))

end Playback

namespace Machine

/-- At most `limit` steps with a wait after each that follows a rule.  The input has `input` lines
left. -/
def playSteps (wait : Wait) : Nat → Nat → Machine → Playback
  | 0, _, m => ⟨m, [], .finished⟩
  | limit + 1, input, m =>
    match m.step with
    | (next, .error fault) => ⟨next, [⟨m.tape, .none⟩], .fault fault⟩
    | (next, .ok false) => ⟨next, [⟨m.tape, .none⟩], .finished⟩
    | (next, .ok true) =>
      match wait, input with
      | .enter, 0 => ⟨next, [⟨m.tape, .enter⟩], .endOfInput⟩
      | .enter, input + 1 => .after ⟨m.tape, .enter⟩ (playSteps wait limit input next)
      | other, _ => .after ⟨m.tape, other⟩ (playSteps wait limit input next)

/-- The most steps that a playback tries.  Where it awaits a line after each step, the input ends it
one step after its last line at the latest. -/
def playLimit (m : Machine) (budget : Budget) (wait : Wait) (input : Nat) : Nat :=
  match budget, wait with
  | .unlimited, .enter => input + 1
  | budget, _ => m.stepLimit budget

theorem playLimit_of_ne_enter
    (m : Machine) (budget : Budget) {wait : Wait} (h : wait ≠ .enter) (input : Nat) :
    m.playLimit budget wait input = m.stepLimit budget := by
  unfold playLimit
  split
  · exact absurd rfl h
  · rfl

/-- A playback with the given pause, on input of so many lines. -/
def play (m : Machine) (budget : Budget) (pause : Int) (input : Nat) : Playback :=
  m.playSteps (.ofPause pause) (m.playLimit budget (.ofPause pause) input) input

end Machine

def inputLines (input : List Char) : Nat :=
  let ends := input.count '\n'
  match input.getLast? with
  | none => 0
  | some '\n' => ends
  | some _ => ends + 1

end RingTape
