import RingTape.Proofs.Checked
import RingTape.Proofs.Machine.History

/-!
# What a report tells

A report has a line for each step that follows a rule: the number of the step in this run, and the
state and the cell of the head before it and after it.  The lines hang together, since each step
starts where the one before it has led.  A step that follows no rule has a line of its own, which is
the last one of the steps, and a machine that has halted at the end is told to have done so, with
all steps that it has ever taken.
-/

namespace RingTape

open Text

/-- Where a machine stands: its state, and the residue of its head position. -/
structure Standing where
  state : State
  residue : Int
  deriving DecidableEq, Repr

/-- What a report tells of a step that follows a rule. -/
structure TraceEntry where
  number : Nat
  before : Standing
  after : Standing
  deriving DecidableEq, Repr

/-- A state as a token of a program. -/
def stateText (s : State) : String :=
  String.ofList (toToken s)

/-- The line of a step that follows a rule. -/
def TraceEntry.line (e : TraceEntry) : String :=
  "Step " ++ toString e.number ++ ": State=" ++ stateText e.before.state ++ ", Head=" ++
    toString e.before.residue ++ " -> Next=" ++ stateText e.after.state ++ ", Head=" ++
    toString e.after.residue

/-- The line of a step that follows no rule. -/
def stuckLine (s : State) : String :=
  "\nNo further progress from state=" ++ stateText s ++ ". Halting."

/-- The line of a machine that has halted at the end. -/
def haltedLine (steps : Nat) : String :=
  "\nMachine halted after " ++ toString steps ++ " steps."

namespace Machine

/-! ## Steps and their lines -/

/-- Where the machine stands, if it has a head position. -/
def standing? (m : Machine) : Option Standing :=
  m.headResidue?.map fun residue => ⟨m.state, residue⟩

/-- What is told of the step after `i` steps. -/
def traceEntry (m : Machine) (i : Nat) : TraceEntry where
  number := i + 1
  before := (m.after i).standing?.getD ⟨none, 0⟩
  after := (m.after (i + 1)).standing?.getD ⟨none, 0⟩

/-- What is told of the first `count` steps. -/
def trace (m : Machine) (count : Nat) : List TraceEntry :=
  (List.range count).map m.traceEntry

@[simp] theorem length_trace
    (m : Machine) (count : Nat) :
    (m.trace count).length = count := by
  simp [trace]

theorem getElem?_trace
    (m : Machine) {count i : Nat} (hi : i < count) :
    (m.trace count)[i]? = some (m.traceEntry i) := by
  rw [trace, List.getElem?_map, List.getElem?_range hi]
  rfl

theorem eq_traceEntry
    {m : Machine} {count i : Nat} {e : TraceEntry} (h : (m.trace count)[i]? = some e) :
    i < count ∧ e = m.traceEntry i := by
  have hi : i < (m.trace count).length := (List.getElem?_eq_some_iff.mp h).1
  rw [length_trace] at hi
  rw [m.getElem?_trace hi] at h
  exact ⟨hi, (Option.some.inj h).symm⟩

/-- The cell under the head, as a report writes it, is the residue of the head position. -/
theorem Sound.headText_eq
    {m : Machine} (h : m.Sound) {residue : Int} (hresidue : m.headResidue? = some residue) :
    m.headText = toString residue := by
  obtain ⟨head, hhead, hwrap⟩ := Option.bind_eq_some_iff.mp hresidue
  have hpos : (0 : Int) < m.tapeSize := Int.natCast_pos.mpr h.size_pos
  rw [Tape.wrap?, if_neg hpos.ne', Int.fmod_eq_emod_of_nonneg head hpos.le,
    Option.some.injEq] at hwrap
  have hcell : (Tape.cell head m.tapeSize : Int) = residue := by
    rw [Tape.cell, Int.toNat_of_nonneg (Int.emod_nonneg head hpos.ne'), hwrap]
  rw [headText, hhead, ← hcell]
  rfl

theorem Sound.exists_standing?
    {m : Machine} (h : m.Sound) (hfires : m.fires = true) :
    ∃ before after, m.standing? = some before ∧ m.next.standing? = some after := by
  obtain ⟨hbefore, hafter⟩ := h.headResidue?_of_fires hfires
  obtain ⟨residue, hresidue⟩ := Option.isSome_iff_exists.mp hbefore
  obtain ⟨residue', hresidue'⟩ := Option.isSome_iff_exists.mp hafter
  exact ⟨⟨m.state, residue⟩, ⟨m.next.state, residue'⟩, by rw [standing?, hresidue, Option.map_some],
    by rw [standing?, hresidue', Option.map_some]⟩

/-- The entry of a step that follows a rule tells where the machine stands before and after it. -/
theorem Sound.standing?_traceEntry
    {m : Machine} (h : m.Sound) {i : Nat} (hfires : (m.after i).fires = true) :
    (m.after i).standing? = some (m.traceEntry i).before ∧
      (m.after (i + 1)).standing? = some (m.traceEntry i).after := by
  obtain ⟨before, after, hbefore, hafter⟩ := (h.after i).exists_standing? hfires
  rw [← after_succ'] at hafter
  rw [traceEntry, hbefore, hafter]
  exact ⟨rfl, rfl⟩

theorem Sound.text_of_standing?
    {m : Machine} (h : m.Sound) {s : Standing} (hstanding : m.standing? = some s) :
    m.stateToken = stateText s.state ∧ m.headText = toString s.residue := by
  obtain ⟨residue, hresidue, rfl⟩ := Option.map_eq_some_iff.mp hstanding
  exact ⟨rfl, h.headText_eq hresidue⟩

theorem Sound.stepLine_eq
    {m : Machine} (h : m.Sound) {i : Nat} (hfires : (m.after i).fires = true) :
    stepLine (i + 1) true (m.after i) (m.after (i + 1)) = (m.traceEntry i).line := by
  obtain ⟨hbefore, hafter⟩ := h.standing?_traceEntry hfires
  obtain ⟨hstate, hhead⟩ := (h.after i).text_of_standing? hbefore
  obtain ⟨hstate', hhead'⟩ := (h.after (i + 1)).text_of_standing? hafter
  rw [stepLine, if_pos rfl, hstate, hhead, hstate', hhead']
  rfl

/-- A report writes a line for each step of the run, and no other one between its opening and its
closing. -/
theorem Sound.lines_reportSteps
    {m : Machine} (h : m.Sound) {limit count : Nat} (hstops : m.StopsAt limit count)
    (number : Nat) :
    (m.reportSteps limit number).lines = (List.range count).map fun i =>
      stepLine (number + i) (m.after i).fires (m.after i) (m.after (i + 1)) := by
  induction limit generalizing m count number with
  | zero =>
      rw [Nat.le_zero.mp hstops.le_limit]
      rfl
  | succ limit ih =>
      by_cases hhalted : m.halted = true
      · rw [reportSteps, if_pos hhalted, hstops.eq_zero_of_halted hhalted]
        rfl
      · obtain ⟨rest, rfl, hrest⟩ := hstops.of_succ (eq_false_of_ne_true hhalted)
        rw [reportSteps, if_neg hhalted, h.step_eq]
        simp only [ih h.next hrest (number + 1), List.range_succ_eq_map, List.map_cons,
          List.map_map, Function.comp_def, after_succ, after_zero, Nat.add_zero, Nat.add_assoc,
          Nat.add_comm 1]

/-! ## The steps of a run -/

/-- The steps of a run follow rules, all of them, or all but the last one. -/
theorem Sound.exists_fired
    {m : Machine} (h : m.Sound) {limit count : Nat} (hstops : m.StopsAt limit count) :
    ∃ fired, m.FiresThrough fired ∧
      (count = fired ∨ count = fired + 1 ∧ (m.after fired).fires = false) := by
  cases count with
  | zero => exact ⟨0, fun i hi => absurd hi (Nat.not_lt_zero i), .inl rfl⟩
  | succ last =>
      have hbefore : m.FiresThrough last := h.firesThrough_of_stopsAt hstops
      by_cases hlast : (m.after last).fires = true
      · refine ⟨last + 1, fun i hi => ?_, .inl rfl⟩
        rcases Nat.lt_succ_iff_lt_or_eq.mp hi with hlt | rfl
        · exact hbefore i hlt
        · exact hlast
      · exact ⟨last, hbefore, .inr ⟨rfl, eq_false_of_ne_true hlast⟩⟩

theorem Sound.map_stepLine_eq
    {m : Machine} (h : m.Sound) {fired : Nat} (hfires : m.FiresThrough fired) :
    ((List.range fired).map fun i =>
      stepLine (1 + i) (m.after i).fires (m.after i) (m.after (i + 1))) =
      (m.trace fired).map TraceEntry.line := by
  rw [trace, List.map_map]
  apply List.map_congr_left
  intro i hi
  have hfires' := hfires i (List.mem_range.mp hi)
  rw [hfires', Nat.add_comm, h.stepLine_eq hfires']
  rfl

/-- The trace of a run of the machine `m`, and the state from which its last step has followed no
rule, if it has. -/
structure TracedBy (m : Machine) (run : Run) (entries : List TraceEntry) (stuck : Option State) :
    Prop where
  machine : run.machine = m.after run.history.length
  /-- There is an entry for each step of this run that follows a rule. -/
  length : entries.length = (m.answers run.history.length).count true
  stepsTaken : run.machine.stepsTaken = m.stepsTaken + entries.length
  numbered : ∀ i e, entries[i]? = some e → e.number = i + 1
  /-- An entry tells where the machine stands before and after its step. -/
  tells : ∀ i e, entries[i]? = some e → (m.after i).step = (m.after (i + 1), .ok true) ∧
    (m.after i).standing? = some e.before ∧ (m.after (i + 1)).standing? = some e.after
  linked : ∀ i e e', entries[i]? = some e → entries[i + 1]? = some e' → e.after = e'.before
  first : ∀ e, entries.head? = some e → m.standing? = some e.before
  /-- The last entry ends where the last rule that is followed leads to. -/
  last : ∀ e, entries.getLast? = some e → ∃ head rule direction,
    (m.after (entries.length - 1)).head = some head ∧
      (m.after (entries.length - 1)).rule? = some rule ∧ rule.move = .toward direction ∧
      e.after.state = rule.nextState ∧
      Tape.wrap? (head + direction.offset) m.tapeSize = some e.after.residue
  /-- The last step of this run has followed no rule, and it was made from this state. -/
  stuck_iff : ∀ state, stuck = some state ↔ ∃ last, run.history.length = last + 1 ∧
    (m.after last).step = (run.machine, .ok false) ∧ (m.after last).state = state

/-- The last of the steps that follow rules leads where its rule says. -/
theorem Sound.last_trace
    {m : Machine} (h : m.Sound) {i : Nat} (hfires : (m.after i).fires = true) :
    ∃ head rule direction, (m.after i).head = some head ∧ (m.after i).rule? = some rule ∧
      rule.move = .toward direction ∧ (m.traceEntry i).after.state = rule.nextState ∧
      Tape.wrap? (head + direction.offset) m.tapeSize = some (m.traceEntry i).after.residue := by
  obtain ⟨head, rule, direction, hhead, hrule, -, hmove, hnext⟩ := (h.after i).next_of_fires hfires
  obtain ⟨-, hafter⟩ := h.standing?_traceEntry hfires
  rw [after_succ', hnext] at hafter
  obtain ⟨residue, hresidue, heq⟩ := Option.map_eq_some_iff.mp hafter
  have hsize : (m.after i).tapeSize = m.tapeSize := (h.onRing.after i).2
  rw [← heq, ← hsize]
  exact ⟨head, rule, direction, hhead, hrule, hmove, rfl, hresidue⟩

/-- What holds of the entries of steps that follow rules, whatever comes after them. -/
theorem Sound.tracedBy_trace
    {m : Machine} (h : m.Sound) {run : Run} {fired : Nat} (hfires : m.FiresThrough fired)
    (hmachine : run.machine = m.after run.history.length)
    (hanswers : (m.answers run.history.length).count true = fired)
    {stuck : Option State}
    (hstuck : ∀ state, stuck = some state ↔ ∃ last, run.history.length = last + 1 ∧
      (m.after last).step = (run.machine, .ok false) ∧ (m.after last).state = state) :
    m.TracedBy run (m.trace fired) stuck where
  machine := hmachine
  length := by rw [length_trace, hanswers]
  stepsTaken := by rw [length_trace, hmachine, h.stepsTaken_after, hanswers]
  numbered := by
    intro i e he
    rw [(eq_traceEntry he).2]
    rfl
  tells := by
    intro i e he
    obtain ⟨hi, rfl⟩ := eq_traceEntry he
    refine ⟨?_, h.standing?_traceEntry (hfires i hi)⟩
    rw [after_succ', ← hfires i hi]
    exact (h.after i).step_eq
  linked := by
    intro i e e' he he'
    rw [(eq_traceEntry he).2, (eq_traceEntry he').2]
    rfl
  first := by
    intro e he
    rw [List.head?_eq_getElem?] at he
    obtain ⟨hi, rfl⟩ := eq_traceEntry he
    exact (h.standing?_traceEntry (hfires 0 hi)).1
  last := by
    intro e he
    rw [List.getLast?_eq_getElem?] at he
    obtain ⟨hi, rfl⟩ := eq_traceEntry he
    exact h.last_trace (hfires _ hi)
  stuck_iff := hstuck

/-- A run whose steps all follow rules. -/
theorem Sound.tracedBy_of_firesThrough
    {m : Machine} (h : m.Sound) {fired : Nat} (hfires : m.FiresThrough fired) :
    m.TracedBy ⟨m.after fired, m.tapes fired, none⟩ (m.trace fired) none := by
  have hcount : (m.answers fired).count true = fired := by
    rw [answers_of_firesThrough hfires, List.count_replicate_self]
  apply h.tracedBy_trace hfires
  · rw [length_tapes]
  · rw [length_tapes, hcount]
  · refine fun state => ⟨nofun, ?_⟩
    rintro ⟨last, hlength, hstep, -⟩
    rw [length_tapes] at hlength
    have hlast : (m.after last).fires = true := hfires last (hlength ▸ Nat.lt_succ_self last)
    rw [(h.after last).step_eq, hlast] at hstep
    cases congrArg Prod.snd hstep

/-- A run whose last step follows no rule. -/
theorem Sound.tracedBy_of_not_fires
    {m : Machine} (h : m.Sound) {fired : Nat} (hfires : m.FiresThrough fired)
    (hlast : (m.after fired).fires = false) :
    m.TracedBy ⟨m.after (fired + 1), m.tapes (fired + 1), none⟩ (m.trace fired)
      (some (m.after fired).state) := by
  have hcount : (m.answers (fired + 1)).count true = fired := by
    rw [answers_succ, hlast, answers_of_firesThrough hfires, List.count_append,
      List.count_replicate_self]
    rfl
  apply h.tracedBy_trace hfires
  · rw [length_tapes]
  · rw [length_tapes, hcount]
  · intro state
    rw [length_tapes, Option.some.injEq]
    constructor
    · rintro rfl
      refine ⟨fired, rfl, ?_, rfl⟩
      rw [after_succ', ← hlast]
      exact (h.after fired).step_eq
    · rintro ⟨last, hlength, -, rfl⟩
      rw [Nat.succ.inj hlength]

/-- A report has the lines of the trace of its run, and after them a line if the last step has
followed no rule, and a line if the machine has halted. -/
theorem Reachable.report_lines
    {m : Machine} (h : m.Reachable) (hdirected : m.ruleset.Directed) {budget : Budget}
    (hends : m.Ends budget) :
    m.DriversAgree budget ∧ ∃ entries stuck, m.TracedBy (m.run budget) entries stuck ∧
      (m.report budget).lines = m.openingLines ++ entries.map TraceEntry.line ++
        stuck.toList.map stuckLine ++
        if (m.run budget).machine.halted then [haltedLine (m.run budget).machine.stepsTaken]
        else [] := by
  have hsound := h.sound hdirected
  refine ⟨hsound.driversAgree hends, ?_⟩
  obtain ⟨count, hstops, hrun⟩ := hsound.runSteps_eq (m.stepLimit budget)
  have hclosing : (m.report budget).lines = m.openingLines ++
      (m.reportSteps (m.stepLimit budget) 1).lines ++ (m.run budget).machine.closingLines := by
    rw [report, m.reportSteps_run]
    rfl
  have hlines := hsound.lines_reportSteps hstops 1
  change m.run budget = _ at hrun
  -- a step that follows no rule can only be the last one
  obtain ⟨fired, hfires, rfl | ⟨rfl, hlast⟩⟩ := hsound.exists_fired hstops
  · refine ⟨m.trace count, none, hrun ▸ hsound.tracedBy_of_firesThrough hfires, ?_⟩
    rw [hclosing, hlines, hsound.map_stepLine_eq hfires, Option.toList_none, List.map_nil,
      List.append_nil]
    rfl
  · refine ⟨m.trace fired, some (m.after fired).state,
      hrun ▸ hsound.tracedBy_of_not_fires hfires hlast, ?_⟩
    rw [hclosing, hlines, List.range_succ, List.map_append, hsound.map_stepLine_eq hfires,
      List.map_singleton, hlast, Option.toList_some, List.append_assoc (openingLines m)]
    rfl

/-- A machine that has already made a step, on two cells.  The head passes the position before the
first one, which is on the second cell, and the third step of the machine finds a terminal state.  A
run with no steps left to make tells only that the machine has halted. -/
theorem report_lines_of_resumed_run :
    let r : Ruleset := ⟨[⟨some "a", some "b", none, some "x", .toward .stay⟩,
      ⟨some "b", some "c", some "*", none, .toward .left⟩], some "a", .ofNames ["c"], none, 2⟩
    let m := (start r 2).next
    let last := m.after 2
    m.Reachable ∧ m.ruleset.Directed ∧ m.Ends .unlimited ∧
      (∃ entries stuck, m.TracedBy (m.run .unlimited) entries stuck ∧
        (m.report .unlimited).lines = m.openingLines ++ entries.map TraceEntry.line ++
          stuck.toList.map stuckLine ++
          if (m.run .unlimited).machine.halted
          then [haltedLine (m.run .unlimited).machine.stepsTaken] else []) ∧
      (m.report .unlimited).lines.drop 3 = ["Step 1: State=b, Head=0 -> Next=c, Head=1",
        "\nNo further progress from state=c. Halting.", "\nMachine halted after 2 steps."] ∧
      (last.report (.steps 5)).lines.drop 3 = ["\nMachine halted after 2 steps."] := by
  intro r m last
  have hstart : (start r 2).Reachable := reachable_start r (by decide) (by decide)
  have hstep : (start r 2).step = (m, .ok true) := rfl
  have hreachable : m.Reachable := .step hstart hstep
  have hdirected : m.ruleset.Directed := by decide
  have hends : m.Ends .unlimited := ⟨2, by decide⟩
  exact ⟨hreachable, hdirected, hends, (hreachable.report_lines hdirected hends).2,
    by decide, by decide⟩

end Machine

end RingTape
