import RingTape.Proofs.Machine.Composition
import RingTape.Proofs.Machine.Playback
import Mathlib.Algebra.Order.Group.Int
import Mathlib.Algebra.Order.Group.Unbundled.Int
import Mathlib.Algebra.Order.Group.Abs

/-!
# Sessions

A session is a sequence of operations on one machine: single steps, runs with a budget or without
one, and playbacks.  Each operation is a number of steps and nothing else.  What every step keeps is
therefore kept by every session: the ring and its length, the symbols on the tape, the states, and
the head within as many positions of its start as steps have followed a rule.  No operation fails.
A machine that has halted stays so, and after a step that follows no rule nothing changes any more.
-/

namespace RingTape

/-- What can be done with a machine.  A playback waits for some time between its steps. -/
inductive Operation where
  | step
  | run (budget : Budget) (verbose : Bool)
  | runToFinal (budget : Budget)
  | play (budget : Budget) (pause : Nat) (input : Nat)
  deriving DecidableEq, Repr

/-- What a session leaves: the machine, what each of its steps has answered, and how it ends. -/
structure Session where
  machine : Machine
  answers : List Bool
  ending : PlaybackEnd
  deriving DecidableEq, Repr

/-- How an operation ends that a fault may stop. -/
def PlaybackEnd.ofFault : Option StepFault → PlaybackEnd
  | none => .finished
  | some cause => .fault cause

/-- A session that is followed by another one. -/
def Session.append (first second : Session) : Session :=
  { second with answers := first.answers ++ second.answers }

namespace Machine

/-- What each of the first `count` steps answers. -/
def answers (m : Machine) (count : Nat) : List Bool :=
  (List.range count).map fun i => (m.after i).fires

/-- How many steps a run tries that keeps only the machine. -/
def advanceLength : Nat → Machine → Nat
  | 0, _ => 0
  | limit + 1, m =>
    if m.halted then 0
    else match m.step with
      | (_, .error _) => 1
      | (next, .ok _) => advanceLength limit next + 1

end Machine

namespace Operation

/-- The budget of an operation. -/
def budget : Operation → Budget
  | .step => .steps 1
  | .run budget _ | .runToFinal budget | .play budget _ _ => budget

/-- What an operation leaves.  Runs and playbacks try a step for each tape of their history. -/
def perform (m : Machine) : Operation → Session
  | .step =>
    match m.step with
    | (next, .ok proceed) => ⟨next, [proceed], .finished⟩
    | (next, .error fault) => ⟨next, [], .fault fault⟩
  | .run budget verbose =>
    let run := if verbose then (m.report budget).run else m.run budget
    ⟨run.machine, m.answers run.history.length, .ofFault run.fault⟩
  | .runToFinal budget =>
    let last := m.runToFinal budget
    ⟨last.1, m.answers (m.advanceLength (m.stepLimit budget)), .ofFault last.2⟩
  | .play budget pause input =>
    let p := m.play budget pause input
    ⟨p.machine, m.answers p.frames.length, p.ending⟩

end Operation

namespace Machine

/-- A session with the given operations.  It ends early where one of them does not finish. -/
def perform (m : Machine) : List Operation → Session
  | [] => ⟨m, [], .finished⟩
  | operation :: rest =>
    let first := operation.perform m
    match first.ending with
    | .finished => first.append (first.machine.perform rest)
    | _ => first

/-- Each operation of a session comes to an end. -/
def Permits (m : Machine) : List Operation → Prop
  | [] => True
  | operation :: rest =>
    m.Ends operation.budget ∧ (operation.perform m).machine.Permits rest

/-! ## Sessions as iterated steps -/

theorem answers_add
    (m : Machine) (first second : Nat) :
    m.answers (first + second) = m.answers first ++ (m.after first).answers second := by
  simp [answers, List.range_add, after_add, Function.comp_def]

theorem answers_succ
    (m : Machine) (count : Nat) :
    m.answers (count + 1) = m.answers count ++ [(m.after count).fires] :=
  m.answers_add count 1

theorem advanceLength_eq
    (m : Machine) (limit : Nat) :
    m.advanceLength limit = (m.runSteps limit).history.length := by
  induction limit generalizing m with
  | zero => rfl
  | succ limit ih =>
      rw [advanceLength, runSteps]
      by_cases hhalted : m.halted = true
      · rw [if_pos hhalted, if_pos hhalted]
        rfl
      · rw [if_neg hhalted, if_neg hhalted]
        rcases m.step with ⟨next, fault | proceed⟩
        · rfl
        · exact congrArg (· + 1) (ih next)

/-- What a number of steps leaves. -/
def stepsSession (m : Machine) (count : Nat) : Session :=
  ⟨m.after count, m.answers count, .finished⟩

theorem stepsSession_append
    (m : Machine) (first second : Nat) :
    (m.stepsSession first).append ((m.after first).stepsSession second) =
      m.stepsSession (first + second) := by
  rw [stepsSession, stepsSession, stepsSession, Session.append, after_add, answers_add]

/-- A playback that awaits no input leaves what as many steps leave as it shows tapes. -/
theorem Sound.play_eq
    {m : Machine} (h : m.Sound) {budget : Budget} (hends : m.Ends budget) (pause input : Nat) :
    (m.play budget pause input).machine = m.after (m.play budget pause input).frames.length ∧
      (m.play budget pause input).ending = .finished := by
  obtain ⟨count, -, -, hplay, -⟩ :=
    h.exists_accompanies_play hends (Int.natCast_nonneg pause) input
  refine ⟨?_, hplay.finished⟩
  have hlength : (m.play budget pause input).frames.length =
      (m.play budget pause input).history.length := (List.length_map _).symm
  rw [hlength]
  by_cases huntold : m.HaltsUntold (m.stepLimit budget) count
  · -- the step that shows the last tape again gives up the head position
    obtain ⟨hmachine, hhistory⟩ := hplay.untold huntold
    rw [hmachine, hhistory, length_tapes, after_succ', next_of_halted huntold.halted]
  · obtain ⟨hmachine, hhistory⟩ := hplay.told huntold
    rw [hmachine, hhistory, length_tapes]

/-- An operation is a number of steps. -/
theorem Sound.perform_operation_eq
    {m : Machine} (h : m.Sound) {operation : Operation} (hends : m.Ends operation.budget) :
    ∃ count, operation.perform m = m.stepsSession count := by
  cases operation with
  | step =>
      refine ⟨1, ?_⟩
      rw [Operation.perform, h.step_eq]
      rfl
  | run budget verbose =>
      obtain ⟨count, -, hrun⟩ := h.runSteps_eq (m.stepLimit budget)
      have hreport : (m.report budget).run = m.run budget :=
        m.reportSteps_run (m.stepLimit budget) 1
      refine ⟨count, ?_⟩
      rw [Operation.perform, hreport, ite_self, run, hrun, length_tapes]
      rfl
  | runToFinal budget =>
      obtain ⟨count, -, hrun⟩ := h.runSteps_eq (m.stepLimit budget)
      refine ⟨count, ?_⟩
      rw [Operation.perform, runToFinal, advance_eq, advanceLength_eq, hrun, length_tapes]
      rfl
  | play budget pause input =>
      have hplayed : m.Ends budget := hends
      obtain ⟨hmachine, hending⟩ := h.play_eq hplayed pause input
      refine ⟨(m.play budget pause input).frames.length, ?_⟩
      change Session.mk (m.play budget pause input).machine _ (m.play budget pause input).ending = _
      rw [hmachine, hending]
      rfl

/-- A session is a number of steps. -/
theorem Sound.perform_eq
    {m : Machine} (h : m.Sound) {operations : List Operation} (hends : m.Permits operations) :
    ∃ count, m.perform operations = m.stepsSession count := by
  induction operations generalizing m with
  | nil => exact ⟨0, rfl⟩
  | cons operation rest ih =>
      obtain ⟨first, hfirst⟩ := h.perform_operation_eq hends.1
      have hrest := hends.2
      rw [hfirst] at hrest
      obtain ⟨second, hsecond⟩ := ih (h.after first) hrest
      refine ⟨first + second, ?_⟩
      rw [perform, hfirst, ← stepsSession_append, ← hsecond]
      rfl

/-! ## What steps keep -/

theorem Sound.stepsTaken_after
    {m : Machine} (h : m.Sound) (count : Nat) :
    (m.after count).stepsTaken = m.stepsTaken + (m.answers count).count true := by
  induction count with
  | zero => rfl
  | succ count ih =>
      rw [after_succ', answers_succ, List.count_append, ← Nat.add_assoc, ← ih]
      cases hfires : (m.after count).fires with
      | false =>
          rw [(h.after count).next_of_not_fires hfires]
          rfl
      | true =>
          obtain ⟨head, rule, direction, -, -, -, -, hnext⟩ := (h.after count).next_of_fires hfires
          rw [hnext]
          rfl

/-- The head is within as many positions of the first one as steps have followed a rule. -/
def Near (m : Machine) : Prop :=
  ∀ head, m.head = some head → |head| ≤ m.stepsTaken

theorem abs_offset_le
    (d : Direction) :
    |d.offset| ≤ 1 := by
  cases d <;> decide

theorem Near.next
    {m : Machine} (h : m.Near) (hsound : m.Sound) :
    m.next.Near := by
  cases hfires : m.fires with
  | false =>
      rw [hsound.next_of_not_fires hfires]
      intro head hhead
      cases hhead
  | true =>
      obtain ⟨position, rule, direction, hposition, -, -, -, hnext⟩ := hsound.next_of_fires hfires
      rw [hnext]
      intro head hhead
      cases hhead
      calc |position + direction.offset| ≤ |position| + |direction.offset| := abs_add_le _ _
        _ ≤ m.stepsTaken + 1 := add_le_add (h position hposition) (abs_offset_le direction)

theorem Near.after
    {m : Machine} (h : m.Near) (hsound : m.Sound) (count : Nat) :
    (m.after count).Near := by
  induction count with
  | zero => exact h
  | succ count ih =>
      rw [after_succ']
      exact ih.next (hsound.after count)

/-- What holds of each machine that a session on the machine `m` leads to.  The session has tried
steps with these answers. -/
structure Keeps (m other : Machine) (answers : List Bool) : Prop where
  ruleset : other.ruleset = m.ruleset
  tapeSize : other.tapeSize = m.tapeSize
  size_pos : 0 < other.tapeSize
  length_tape : other.tape.length = other.tapeSize
  cells : ∀ symbol ∈ other.tape,
    symbol ∈ m.tape ∨ ∃ rule ∈ m.ruleset.rules, rule.nextValue = symbol
  state : other.state = none ∨ other.state = m.state ∨
    ∃ rule ∈ m.ruleset.rules, rule.nextState = other.state
  stepsTaken : other.stepsTaken = answers.count true
  state_of_head : other.head = none → other.state = none
  head : ∀ head, other.head = some head → |head| ≤ other.stepsTaken

theorem Sound.keeps_after
    {m : Machine} (h : m.Sound) (hnear : m.Near) (hsteps : m.stepsTaken = 0) (count : Nat) :
    m.Keeps (m.after count) (m.answers count) := by
  have hsound := h.after count
  have hconfines := Confines.after h count
  exact {
    ruleset := hconfines.ruleset
    tapeSize := hconfines.tapeSize
    size_pos := hsound.size_pos
    length_tape := hsound.length_tape
    cells := fun symbol hsymbol => mem_symbols.mp (hconfines.tape symbol hsymbol)
    state := by
      cases hstate : (m.after count).state with
      | none => exact .inl rfl
      | some name =>
          refine .inr ((mem_states.mp (hconfines.state name hstate)).imp Eq.symm id)
    stepsTaken := by rw [h.stepsTaken_after, hsteps, Nat.zero_add]
    state_of_head := hsound.state_of_head
    head := hnear.after h count }

/-! ## Halting -/

theorem halt_halt
    (m : Machine) :
    m.halt.halt = m.halt :=
  rfl

/-- Steps of a machine that has given up its head position change nothing. -/
theorem after_halt
    (m : Machine) (count : Nat) :
    m.halt.after count = m.halt := by
  induction count with
  | zero => rfl
  | succ count ih => rw [after_succ', ih, next_of_halted m.halted_halt, halt_halt]

/-- The first step of a halted machine is the last one that changes it. -/
theorem after_of_halted
    {m : Machine} (h : m.halted = true) {count : Nat} (hcount : 0 < count) :
    m.after count = m.halt := by
  obtain ⟨more, rfl⟩ := Nat.exists_eq_succ_of_ne_zero hcount.ne'
  rw [after_succ, next_of_halted h, after_halt]

/-- Steps of a machine that has halted change at most the head. -/
theorem Sound.after_of_halted
    {m : Machine} (h : m.Sound) (hhalted : m.halted = true) (count : Nat) :
    (m.after count).halted = true ∧ (m.after count).tape = m.tape ∧
      (m.after count).state = m.state ∧ (m.after count).stepsTaken = m.stepsTaken := by
  cases count with
  | zero => exact ⟨hhalted, rfl, rfl, rfl⟩
  | succ count =>
      rw [Machine.after_of_halted hhalted (Nat.succ_pos count)]
      exact ⟨rfl, rfl, (h.state_of_halted hhalted).symm, rfl⟩

/-- A step that has followed no rule is the last one that changes the machine. -/
theorem Sound.after_add_of_false_mem
    {m : Machine} (h : m.Sound) {count : Nat} (hfalse : false ∈ m.answers count) (more : Nat) :
    m.after (count + more) = m.after count := by
  obtain ⟨i, hi, hfires⟩ := List.mem_map.mp hfalse
  have hlater : ∀ k, m.after (i + 1 + k) = (m.after i).halt := by
    intro k
    rw [after_add, after_succ', (h.after i).next_of_not_fires hfires, after_halt]
  obtain ⟨k, rfl⟩ := Nat.exists_eq_add_of_le (Nat.succ_le_of_lt (List.mem_range.mp hi))
  rw [Nat.add_assoc (i + 1), hlater, hlater]

/-! ## The invariant -/

/-- Whatever is done with a machine that has just been built, it keeps its ring, its alphabet and
its states, and nothing fails.  What is done later leaves a halted machine halted, with its tape,
its state and its count of steps, and changes nothing after a step that has followed no rule. -/
theorem keeps_perform
    {r : Ruleset} (hr : r.Directed) {size : Datum} {m : Machine} (hm : create r size = .ok m)
    {operations : List Operation} (hends : m.Permits operations) :
    let session := m.perform operations
    session.ending = .finished ∧ m.Keeps session.machine session.answers ∧
      ∀ later, session.machine.Permits later →
        let more := session.machine.perform later
        (session.machine.halted = true →
          more.machine.halted = true ∧ more.machine.tape = session.machine.tape ∧
            more.machine.state = session.machine.state ∧
            more.machine.stepsTaken = session.machine.stepsTaken) ∧
          (false ∈ session.answers → more.machine = session.machine) := by
  obtain ⟨n, hn, rfl⟩ := create_eq_ok hm
  have hsound : (start r n).Sound := sound_start hr (size_pos_of_tapeSize hn)
  have hnear : (start r n).Near := fun head hhead => by
    cases hhead
    exact abs_zero.le
  obtain ⟨count, hcount⟩ := hsound.perform_eq hends
  rw [hcount]
  refine ⟨rfl, hsound.keeps_after hnear rfl count, fun later hlater => ?_⟩
  have hafter := hsound.after count
  obtain ⟨more, hmore⟩ := hafter.perform_eq hlater
  have hmachine : (((start r n).after count).perform later).machine =
      ((start r n).after count).after more := congrArg Session.machine hmore
  constructor
  · intro hhalted
    simp only [stepsSession, hmachine]
    exact hafter.after_of_halted hhalted more
  · intro hfalse
    simp only [stepsSession, hmachine, ← after_add]
    exact hsound.after_add_of_false_mem hfalse more

/-- A ruleset for three cells on two of them: after a step and a run with a budget the machine has
halted with its head on, a playback takes the head away, and a run changes nothing more. -/
theorem keeps_perform_on_two_cells :
    let r : Ruleset := ⟨[⟨some "a", some "b", some "p", some "x", .toward .left⟩,
      ⟨some "b", none, some "q", none, .toward .left⟩], some "a", .ofNames [],
      some [some "p", some "q", some "s"], 3⟩
    let m := start r 2
    let operations := [.step, .run (.steps 3) true, .play .unlimited 0 0]
    let later := [.runToFinal .unlimited, .step]
    let session := m.perform operations
    r.Directed ∧ create r (.int 2) = .ok m ∧ m.Permits operations ∧
      session = ⟨⟨r, 2, ⟨none, none, [some "x", none]⟩, 2⟩, [true, true, false], .finished⟩ ∧
      m.Keeps session.machine session.answers ∧ session.machine.Permits later ∧
      false ∈ session.answers ∧
      (session.machine.perform later).machine = session.machine := by
  intro r m operations later session
  have hr : r.Directed := by decide
  have hm : create r (.int 2) = .ok m := create_eq_start r (by decide) (by decide)
  have hends : m.Permits operations := ⟨trivial, trivial, ⟨0, by decide⟩, trivial⟩
  have hlater : session.machine.Permits later := ⟨⟨0, by decide⟩, trivial, trivial⟩
  have hfalse : false ∈ session.answers := by decide
  obtain ⟨-, hkeeps, hstays⟩ := keeps_perform hr hm hends
  exact ⟨hr, hm, hends, by decide, hkeeps, hlater, hfalse, (hstays later hlater).2 hfalse⟩

end Machine

end RingTape
