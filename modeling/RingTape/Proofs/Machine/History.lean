import RingTape.Proofs.Machine.Session

/-!
# The history of a run

A run records the tape before each step that it makes, and no other tape.  All its steps but the
last one follow rules, as a step that follows none halts the machine and ends the run.  So the
history is longer by one than the number of rules that are followed if the last step has followed
none, and otherwise as long.  From each tape to the next one at most the cell under the head
changes.
-/

namespace RingTape

namespace Machine

/-! ## What a step writes -/

/-- The next tape after that of the machine `m`.  A step that follows a rule changes at most the
cell under the head, where it writes the value of the first rule that applies. -/
structure Writes (m : Machine) (next : Tape) : Prop where
  kept : m.fires = false → next = m.tape
  written : m.fires = true → ∃ head symbol rule, m.head = some head ∧
    m.tape[Tape.cell head m.tapeSize]? = some symbol ∧
    m.ruleset.findRule m.state symbol = some rule ∧
    next[Tape.cell head m.tapeSize]? = some rule.nextValue ∧
    ∀ i, i ≠ Tape.cell head m.tapeSize → next[i]? = m.tape[i]?

theorem exists_symbol_of_rule?
    {m : Machine} {head : Int} (hhead : m.head = some head) {rule : Rule}
    (hrule : m.rule? = some rule) :
    ∃ symbol, m.tape[Tape.cell head m.tapeSize]? = some symbol ∧
      m.ruleset.findRule m.state symbol = some rule := by
  rw [rule?, hhead] at hrule
  cases hstate : m.state with
  | none =>
      rw [hstate] at hrule
      cases hrule
  | some name =>
      simp only [hstate] at hrule
      split at hrule
      · cases hrule
      · exact Option.bind_eq_some_iff.mp hrule

theorem Sound.writes_next
    {m : Machine} (h : m.Sound) :
    m.Writes m.next.tape := by
  refine ⟨fun hfires => ?_, fun hfires => ?_⟩
  · rw [h.next_of_not_fires hfires]
    rfl
  · obtain ⟨head, rule, direction, hhead, hrule, -, -, hnext⟩ := h.next_of_fires hfires
    obtain ⟨symbol, hsymbol, hfind⟩ := exists_symbol_of_rule? hhead hrule
    have hcell : Tape.cell head m.tapeSize < m.tape.length :=
      lt_of_lt_of_eq (Tape.cell_lt head h.size_pos) h.length_tape.symm
    have htape : m.next.tape = m.tape.set (Tape.cell head m.tapeSize) rule.nextValue := by
      rw [hnext]
      rfl
    refine ⟨head, symbol, rule, hhead, hsymbol, hfind, ?_, fun i hi => ?_⟩
    · rw [htape, List.getElem?_set_self hcell]
    · rw [htape, List.getElem?_set_ne hi.symm]

/-! ## What the steps of a run answer -/

theorem answers_of_firesThrough
    {m : Machine} {count : Nat} (h : m.FiresThrough count) :
    m.answers count = List.replicate count true := by
  apply List.eq_replicate_iff.mpr
  refine ⟨by simp [answers], ?_⟩
  intro answer hanswer
  obtain ⟨i, hi, rfl⟩ := List.mem_map.mp hanswer
  exact h i (List.mem_range.mp hi)

/-- All steps of a run follow rules, but perhaps the last one. -/
theorem Sound.firesThrough_of_stopsAt
    {m : Machine} (h : m.Sound) {limit last : Nat} (hstops : m.StopsAt limit (last + 1)) :
    m.FiresThrough last := by
  intro i hi
  by_contra hfires
  have hrunning := hstops.running (i + 1) (Nat.succ_lt_succ hi)
  rw [after_succ', (h.after i).next_of_not_fires (eq_false_of_ne_true hfires), halted_halt]
    at hrunning
  cases hrunning

/-- Of the steps of a run only the last one can follow no rule. -/
theorem Sound.length_eq_count_add
    {m : Machine} (h : m.Sound) {limit count : Nat} (hstops : m.StopsAt limit count) :
    count = (m.answers count).count true +
      if (m.answers count).getLast? = some false then 1 else 0 := by
  cases count with
  | zero => rfl
  | succ last =>
      have hanswers : m.answers (last + 1) =
          List.replicate last true ++ [(m.after last).fires] := by
        rw [answers_succ, answers_of_firesThrough (h.firesThrough_of_stopsAt hstops)]
      rw [hanswers, List.count_append, List.count_replicate_self, List.getLast?_concat]
      cases (m.after last).fires <;> rfl

/-! ## The history -/

/-- What the history of a run tells of its steps. -/
structure Traces (m : Machine) (budget : Budget) (run : Run) : Prop where
  faultless : run.fault = none
  /-- Each tape of the history is the one before a step, which the run makes. -/
  snapshots : ∀ i < run.history.length, run.history[i]? = some (m.after i).tape ∧
    (m.after i).halted = false ∧ (m.after i).step = (m.after (i + 1), .ok (m.after i).fires)
  machine : run.machine = m.after run.history.length
  /-- The steps that follow a rule are counted by the machine. -/
  stepsTaken : run.machine.stepsTaken =
    m.stepsTaken + (m.answers run.history.length).count true
  /-- The length of the history is the number of rules that are followed, and one more if the last
  step has followed none. -/
  length : run.history.length = run.machine.stepsTaken - m.stepsTaken +
    if (m.answers run.history.length).getLast? = some false then 1 else 0
  within : ∀ limit, budget = .steps limit → run.history.length ≤ limit
  /-- A run that leaves some of its budget, as one without a limit does, has halted the machine. -/
  halted : budget.LeavesAfter run.history.length → run.machine.halted = true
  /-- From each tape to the next one, which after the last is the tape that the run ends on. -/
  changes : ∀ i < run.history.length,
    ∃ next, (run.history ++ [run.machine.tape])[i + 1]? = some next ∧ (m.after i).Writes next
  /-- A last step that follows no rule leaves the last tape. -/
  ending : (m.answers run.history.length).getLast? = some false →
    run.history.getLast? = some run.machine.tape

theorem getElem?_tapes
    (m : Machine) {count i : Nat} (hi : i < count) :
    (m.tapes count)[i]? = some (m.after i).tape := by
  rw [tapes, List.getElem?_map, List.getElem?_range hi]
  rfl

theorem Sound.ending_of_answers
    {m : Machine} (h : m.Sound) {count : Nat}
    (hanswer : (m.answers count).getLast? = some false) :
    (m.tapes count).getLast? = some (m.after count).tape := by
  cases count with
  | zero => cases hanswer
  | succ last =>
      rw [answers_succ, List.getLast?_concat, Option.some.injEq] at hanswer
      rw [tapes_succ, List.getLast?_concat, after_succ', (h.after last).next_of_not_fires hanswer]
      rfl

/-- The history of a run of a machine that can be reached is the trace of its steps. -/
theorem Reachable.traces_run
    {m : Machine} (h : m.Reachable) (hdirected : m.ruleset.Directed) {budget : Budget}
    (hends : m.Ends budget) :
    m.Traces budget (m.run budget) := by
  have hsound := h.sound hdirected
  obtain ⟨count, hstops, hrun⟩ := hsound.runSteps_eq (m.stepLimit budget)
  have hlength : (m.run budget).history.length = count := by
    rw [run, hrun, length_tapes]
  have htaken := hsound.stepsTaken_after count
  change m.run budget = _ at hrun
  refine
    { faultless := by rw [hrun]
      snapshots := ?_
      machine := by rw [hlength, hrun]
      stepsTaken := by rw [hlength, hrun, htaken]
      length := ?_
      within := ?_
      halted := ?_
      changes := ?_
      ending := ?_ } <;> rw [hlength]
  · intro i hi
    rw [hrun, after_succ']
    exact ⟨m.getElem?_tapes hi, hstops.running i hi, (hsound.after i).step_eq⟩
  · rw [hrun, htaken, Nat.add_sub_cancel_left]
    exact hsound.length_eq_count_add hstops
  · rintro limit rfl
    exact hstops.le_limit
  · intro hleaves
    rw [hrun]
    exact hstops.stops.resolve_left ((hsound.leavesAfter_iff hends hstops).mp hleaves).ne
  · intro i hi
    refine ⟨(m.after (i + 1)).tape, ?_, ?_⟩
    · rw [hrun]
      change (m.tapes count ++ [(m.after count).tape])[i + 1]? = _
      rw [← tapes_succ, m.getElem?_tapes (Nat.succ_lt_succ hi)]
    · rw [after_succ']
      exact (hsound.after i).writes_next
  · intro hanswer
    rw [hrun]
    exact hsound.ending_of_answers hanswer

/-- On two cells three rules are followed, the third one in the first cell again, and the fourth
step finds a terminal state: four tapes for three rules.  A budget of two steps ends the run
before. -/
theorem traces_run_around_two_cells :
    let m := start ⟨[⟨some "a", some "b", none, some "x", .toward .right⟩,
      ⟨some "b", some "b", none, some "x", .toward .right⟩,
      ⟨some "*", some "c", some "x", none, .toward .left⟩], some "a", .ofNames ["c"], none, 2⟩ 2
    let x := some "x"
    m.Reachable ∧ m.ruleset.Directed ∧ m.Ends .unlimited ∧
      (m.run .unlimited).history = [[none, none], [x, none], [x, x], [none, x]] ∧
      (m.run .unlimited).machine.stepsTaken = 3 ∧ m.Traces .unlimited (m.run .unlimited) ∧
      (m.run (.steps 2)).history = [[none, none], [x, none]] ∧
      m.Traces (.steps 2) (m.run (.steps 2)) := by
  intro m x
  have hreachable : m.Reachable := reachable_start _ (by decide) (by decide)
  have hdirected : m.ruleset.Directed := by decide
  have hends : m.Ends .unlimited := ⟨4, by decide⟩
  exact ⟨hreachable, hdirected, hends, by decide, by decide,
    hreachable.traces_run hdirected hends, by decide, hreachable.traces_run hdirected trivial⟩

end Machine

end RingTape
