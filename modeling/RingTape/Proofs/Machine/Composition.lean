import RingTape.Machine.Report
import RingTape.Proofs.Machine.Unlimited

/-!
# Runs in a row

A run that is resumed goes on where it has stopped: two runs one after the other leave what one run
with both budgets leaves, and their histories follow each other.  A run that keeps only the machine
and a run that tells what it does are the same run.  The latter can tell all it has to, as a step
that follows a rule has a head position before it and after it.
-/

namespace RingTape

/-- What a run leaves that is followed by another one. -/
def Run.append (first second : Run) : Run :=
  { second with history := first.history ++ second.history }

namespace Machine

/-! ## Two runs and one -/

theorem Sound.machine_run
    {m : Machine} (h : m.Sound) (budget : Budget) :
    ∃ count, (m.run budget).machine = m.after count := by
  obtain ⟨count, -, hrun⟩ := h.runSteps_eq (m.stepLimit budget)
  exact ⟨count, by rw [run, hrun]⟩

/-- A run that is resumed is the run with both limits. -/
theorem Sound.runSteps_add
    {m : Machine} (h : m.Sound) (first second : Nat) :
    m.runSteps (first + second) =
      (m.runSteps first).append ((m.runSteps first).machine.runSteps second) := by
  induction first generalizing m with
  | zero =>
      rw [Nat.zero_add]
      rfl
  | succ first ih =>
      cases hhalted : m.halted with
      | true =>
          rw [runSteps_of_halted hhalted, runSteps_of_halted hhalted, runSteps_of_halted hhalted]
          rfl
      | false =>
          rw [Nat.add_right_comm]
          simp only [runSteps, hhalted, h.step_eq, ih h.next]
          rfl

/-- A machine that a run leaves halts if and only if the machine that the run started on does. -/
theorem Sound.ends_machine_run_iff
    {m : Machine} (h : m.Sound) (limit : Nat) :
    (m.run (.steps limit)).machine.Ends .unlimited ↔ m.Ends .unlimited := by
  obtain ⟨count, hcount⟩ := h.machine_run (.steps limit)
  rw [hcount]
  constructor
  · rintro ⟨more, hhalted⟩
    exact ⟨count + more, by rw [after_add]; exact hhalted⟩
  · rintro ⟨more, hhalted⟩
    refine ⟨more, ?_⟩
    rw [← after_add, Nat.add_comm, after_add]
    exact halted_after hhalted count

theorem Sound.halted_run_unlimited
    {m : Machine} (h : m.Sound) (hends : m.Ends .unlimited) :
    (m.run .unlimited).machine.halted = true := by
  obtain ⟨count, hstops, hrun⟩ := h.runSteps_eq (m.stepLimit .unlimited)
  rw [run, hrun]
  exact (h.lt_stepLimit_of_unlimited hends hstops).2

theorem Sound.run_unlimited_eq_append
    {m : Machine} (h : m.Sound) (hends : m.Ends .unlimited) (limit : Nat) :
    m.run .unlimited =
      (m.run (.steps limit)).append ((m.run (.steps limit)).machine.run .unlimited) := by
  obtain ⟨count, hcount⟩ := h.machine_run (.steps limit)
  have hsound : (m.run (.steps limit)).machine.Sound := hcount ▸ h.after count
  have hhalted := hsound.halted_run_unlimited ((h.ends_machine_run_iff limit).mpr hends)
  have hadd := h.runSteps_add limit ((m.run (.steps limit)).machine.stepLimit .unlimited)
  generalize limit + (m.run (.steps limit)).machine.stepLimit .unlimited = total at hadd
  -- the machine has halted within both limits together
  have hwithin : (m.run (.steps total)).machine.halted = true := by
    rw [run, stepLimit, hadd]
    exact hhalted
  rw [h.run_unlimited_eq hwithin]
  exact hadd

/-! ## Reports -/

/-- The residue of the head position, by which a report names the cell under the head. -/
def headResidue? (m : Machine) : Option Int :=
  m.head.bind (Tape.wrap? · m.tapeSize)

theorem Sound.headResidue?_isSome
    {m : Machine} (h : m.Sound) (hhead : m.head ≠ none) :
    m.headResidue?.isSome = true := by
  obtain ⟨head, hhead⟩ := Option.ne_none_iff_exists'.mp hhead
  have hsize : (m.tapeSize : Int) ≠ 0 := Int.natCast_ne_zero.mpr h.size_pos.ne'
  rw [headResidue?, hhead, Option.bind_some, Tape.wrap?, if_neg hsize, Option.isSome_some]

/-- The line of a step that follows a rule names two cells, and there are both. -/
theorem Sound.headResidue?_of_fires
    {m : Machine} (h : m.Sound) (hfires : m.fires = true) :
    m.headResidue?.isSome = true ∧ m.next.headResidue?.isSome = true := by
  obtain ⟨head, rule, direction, hhead, -, -, -, hnext⟩ := h.next_of_fires hfires
  refine ⟨h.headResidue?_isSome ?_, h.next.headResidue?_isSome ?_⟩
  · rw [hhead]
    exact Option.some_ne_none head
  · rw [hnext]
    exact Option.some_ne_none _

theorem reportSteps_run
    (m : Machine) (limit number : Nat) :
    (m.reportSteps limit number).run = m.runSteps limit := by
  induction limit generalizing m number with
  | zero => rfl
  | succ limit ih =>
      rw [reportSteps, runSteps]
      by_cases hhalted : m.halted = true
      · rw [if_pos hhalted, if_pos hhalted]
      · rw [if_neg hhalted, if_neg hhalted]
        rcases m.step with ⟨next, fault | proceed⟩
        · rfl
        · change Run.mk _ _ _ = _
          rw [ih]

/-- What the drivers of a run make of the same budget. -/
structure DriversAgree (m : Machine) (budget : Budget) : Prop where
  faultless : (m.run budget).fault = none
  /-- A run without a budget is the loop without a bound on its steps. -/
  unlimited : budget = .unlimited →
    m.RunsTo (m.run .unlimited) ∧ m.AdvancesTo (m.runToFinal .unlimited)
  runToFinal : m.runToFinal budget = ((m.run budget).machine, none)
  report : (m.report budget).run = m.run budget
  /-- Each step of a report that follows a rule has the cells that its line names. -/
  tellable : ∀ i < (m.run budget).history.length, (m.after i).fires = true →
    (m.after i).headResidue?.isSome = true ∧ (m.after (i + 1)).headResidue?.isSome = true

theorem Sound.driversAgree
    {m : Machine} (h : m.Sound) {budget : Budget} (hends : m.Ends budget) :
    m.DriversAgree budget where
  faultless := h.fault_run budget
  unlimited := by
    rintro rfl
    have hhalted := h.halted_run_unlimited hends
    exact ⟨h.runsTo_iff.mpr ⟨rfl, hhalted⟩, h.advancesTo_iff.mpr ⟨rfl, hhalted⟩⟩
  runToFinal := by
    rw [Machine.runToFinal, advance_eq]
    exact congrArg _ (h.fault_run budget)
  report := m.reportSteps_run (m.stepLimit budget) 1
  tellable := fun i _ hfires => by
    rw [after_succ']
    exact (h.after i).headResidue?_of_fires hfires

/-- A run that is resumed, with a budget or without one, leaves what one run leaves; the history for
a smaller budget is the beginning of that for a larger one, and all ways to run agree. -/
theorem Reachable.run_steps_append
    {m : Machine} (h : m.Reachable) (hdirected : m.ruleset.Directed) :
    (∀ first second, m.run (.steps (first + second)) =
        (m.run (.steps first)).append ((m.run (.steps first)).machine.run (.steps second))) ∧
      (m.Ends .unlimited → ∀ first,
        (m.run (.steps first)).machine.Ends .unlimited ∧
          m.run .unlimited =
            (m.run (.steps first)).append ((m.run (.steps first)).machine.run .unlimited)) ∧
      (∀ first second, first ≤ second →
        (m.run (.steps first)).history <+: (m.run (.steps second)).history) ∧
      (m.Ends .unlimited → ∀ first,
        (m.run (.steps first)).history <+: (m.run .unlimited).history) ∧
      ∀ budget, m.Ends budget → m.DriversAgree budget := by
  have hsound := h.sound hdirected
  refine ⟨hsound.runSteps_add, fun hends first => ?_, fun first second hle => ?_,
    fun hends first => ?_, fun budget => hsound.driversAgree⟩
  · exact ⟨(hsound.ends_machine_run_iff first).mpr hends,
      hsound.run_unlimited_eq_append hends first⟩
  · obtain ⟨more, rfl⟩ := Nat.exists_eq_add_of_le hle
    have hadd := hsound.runSteps_add first more
    exact ⟨_, (congrArg Run.history hadd).symm⟩
  · have happend := hsound.run_unlimited_eq_append hends first
    exact ⟨_, (congrArg Run.history happend).symm⟩

/-- The second of two steps, taken by a run of its own, is the one that finds no rule. -/
theorem run_steps_append_of_two_steps :
    let m := start ⟨[⟨some "a", some "b", some "*", some "x", .toward .right⟩], some "a",
      .ofNames [], none, 2⟩ 2
    m.Reachable ∧ m.ruleset.Directed ∧ m.Ends .unlimited ∧ 1 ≤ 2 ∧
      m.run (.steps 2) =
        (m.run (.steps 1)).append ((m.run (.steps 1)).machine.run (.steps 1)) ∧
      (m.run (.steps 1)).machine.Ends .unlimited ∧
      m.run .unlimited =
        (m.run (.steps 1)).append ((m.run (.steps 1)).machine.run .unlimited) ∧
      (m.run (.steps 1)).history <+: (m.run (.steps 2)).history ∧
      (m.run .unlimited).history = [[none, none], [some "x", none]] ∧
      m.DriversAgree .unlimited := by
  intro m
  have hreachable : m.Reachable := reachable_start _ (by decide) (by decide)
  have hdirected : m.ruleset.Directed := by decide
  have hends : m.Ends .unlimited := ⟨2, rfl⟩
  obtain ⟨hsteps, hunlimited, hprefix, -, hdrivers⟩ := hreachable.run_steps_append hdirected
  obtain ⟨hrest, happend⟩ := hunlimited hends 1
  exact ⟨hreachable, hdirected, hends, by decide, hsteps 1 1, hrest, happend,
    hprefix 1 2 (by decide), by decide, hdrivers .unlimited hends⟩

end Machine

end RingTape
