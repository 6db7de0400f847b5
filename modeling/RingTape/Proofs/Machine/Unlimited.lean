import RingTape.Proofs.Machine.Run

/-!
# Runs without a limit

A run without a limit is a loop that may go on forever.  Here the loop is a relation of its own,
without any bound on its steps, and so is the loop that keeps only the machine.  Both come to an end
exactly when the machine has halted after one step more than there are places for it, and then they
leave what that many steps leave.  The bound in the definition of a run is therefore no restriction.
-/

namespace RingTape

namespace Machine

/-- A run without a limit comes to an end and leaves this. -/
inductive RunsTo : Machine → Run → Prop
  | halted {m : Machine} (h : m.halted = true) : RunsTo m ⟨m, [], none⟩
  | fault {m next : Machine} {fault : StepFault} (h : m.halted = false)
      (hstep : m.step = (next, .error fault)) : RunsTo m ⟨next, [m.tape], some fault⟩
  | step {m next : Machine} {proceed : Bool} {rest : Run} (h : m.halted = false)
      (hstep : m.step = (next, .ok proceed)) (hrest : RunsTo next rest) :
      RunsTo m { rest with history := m.tape :: rest.history }

/-- A run without a limit that keeps only the machine comes to an end and leaves this. -/
inductive AdvancesTo : Machine → Machine × Option StepFault → Prop
  | halted {m : Machine} (h : m.halted = true) : AdvancesTo m (m, none)
  | fault {m next : Machine} {fault : StepFault} (h : m.halted = false)
      (hstep : m.step = (next, .error fault)) : AdvancesTo m (next, some fault)
  | step {m next : Machine} {proceed : Bool} {last : Machine × Option StepFault}
      (h : m.halted = false) (hstep : m.step = (next, .ok proceed))
      (hrest : AdvancesTo next last) : AdvancesTo m last

/-- A run without a limit ends exactly when some limit is enough for it. -/
theorem runsTo_iff
    {m : Machine} {run : Run} :
    m.RunsTo run ↔
      ∃ limit, m.runSteps limit = run ∧ (run.machine.halted = true ∨ run.fault ≠ none) := by
  constructor
  · intro h
    induction h with
    | halted h => exact ⟨0, rfl, .inl h⟩
    | fault h hstep => exact ⟨1, by simp [runSteps, h, hstep], .inr (by simp)⟩
    | step h hstep hrest ih =>
        obtain ⟨limit, hrun, hends⟩ := ih
        exact ⟨limit + 1, by simp [runSteps, h, hstep, hrun], hends⟩
  · rintro ⟨limit, rfl, hends⟩
    induction limit generalizing m with
    | zero => exact .halted (hends.resolve_right fun hfault => hfault rfl)
    | succ limit ih =>
        rw [runSteps] at hends ⊢
        by_cases hhalted : m.halted = true
        · rw [if_pos hhalted]
          exact .halted hhalted
        · have hrunning : m.halted = false := by simpa using hhalted
          rw [if_neg hhalted] at hends ⊢
          rcases hstep : m.step with ⟨next, fault | proceed⟩
          · exact .fault hrunning hstep
          · rw [hstep] at hends
            exact .step hrunning hstep (ih hends)

theorem advancesTo_iff
    {m : Machine} {last : Machine × Option StepFault} :
    m.AdvancesTo last ↔ ∃ run, m.RunsTo run ∧ (run.machine, run.fault) = last := by
  constructor
  · intro h
    induction h with
    | halted h => exact ⟨_, .halted h, rfl⟩
    | fault h hstep => exact ⟨_, .fault h hstep, rfl⟩
    | step h hstep hrest ih =>
        obtain ⟨rest, hrest, hlast⟩ := ih
        exact ⟨_, .step h hstep hrest, hlast⟩
  · rintro ⟨run, hrun, rfl⟩
    induction hrun with
    | halted h => exact .halted h
    | fault h hstep => exact .fault h hstep
    | step h hstep hrest ih => exact .step h hstep ih

theorem advance_eq
    (m : Machine) (limit : Nat) :
    m.advance limit = ((m.runSteps limit).machine, (m.runSteps limit).fault) := by
  induction limit generalizing m with
  | zero => rfl
  | succ limit ih =>
      rw [advance, runSteps]
      by_cases hhalted : m.halted = true
      · rw [if_pos hhalted, if_pos hhalted]
      · rw [if_neg hhalted, if_neg hhalted]
        rcases m.step with ⟨next, fault | proceed⟩
        · rfl
        · exact ih next

namespace Sound

variable {m : Machine}

theorem fault_run
    (h : m.Sound) (budget : Budget) :
    (m.run budget).fault = none := by
  obtain ⟨count, -, hrun⟩ := h.runSteps_eq (m.stepLimit budget)
  rw [run, hrun]

/-- What a run without a limit leaves is what the run with the step limit leaves. -/
theorem runsTo_iff
    (h : m.Sound) {run : Run} :
    m.RunsTo run ↔ run = m.run .unlimited ∧ (m.run .unlimited).machine.halted = true := by
  rw [Machine.runsTo_iff]
  constructor
  · rintro ⟨limit, rfl, hends⟩
    have hhalted : (m.run (.steps limit)).machine.halted = true :=
      hends.resolve_right fun hfault => hfault (h.fault_run (.steps limit))
    have hrun : m.run .unlimited = m.runSteps limit := h.run_unlimited_eq hhalted
    rw [hrun]
    exact ⟨rfl, hhalted⟩
  · rintro ⟨rfl, hhalted⟩
    exact ⟨m.stepLimit .unlimited, rfl, .inl hhalted⟩

theorem advancesTo_iff
    (h : m.Sound) {last : Machine × Option StepFault} :
    m.AdvancesTo last ↔
      last = m.runToFinal .unlimited ∧ (m.run .unlimited).machine.halted = true := by
  have hfinal : m.runToFinal .unlimited =
      ((m.run .unlimited).machine, (m.run .unlimited).fault) :=
    m.advance_eq (m.stepLimit .unlimited)
  rw [Machine.advancesTo_iff, hfinal]
  constructor
  · rintro ⟨run, hrun, rfl⟩
    obtain ⟨rfl, hhalted⟩ := h.runsTo_iff.mp hrun
    exact ⟨rfl, hhalted⟩
  · rintro ⟨rfl, hhalted⟩
    exact ⟨_, h.runsTo_iff.mpr ⟨rfl, hhalted⟩, rfl⟩

end Sound

/-! ## The bound -/

theorem nodup_eraseDups
    {α : Type} [BEq α] [LawfulBEq α] (xs : List α) :
    xs.eraseDups.Nodup := by
  cases xs with
  | nil => exact List.nodup_nil
  | cons x rest =>
      rw [List.eraseDups_cons, List.nodup_cons]
      constructor
      · simp [List.mem_eraseDups]
      · exact nodup_eraseDups (rest.filter fun y => !y == x)
termination_by xs.length
decreasing_by exact Nat.lt_succ_of_le (List.length_filter_le _ rest)

theorem card_toFinset_eq_length_eraseDups
    {α : Type} [DecidableEq α] [BEq α] [LawfulBEq α] (xs : List α) :
    xs.toFinset.card = xs.eraseDups.length := by
  have hset : xs.toFinset = xs.eraseDups.toFinset := by
    ext x
    simp
  rw [hset, List.toFinset_card_of_nodup (nodup_eraseDups xs)]

/-- Whether a run without a limit ends, and what it leaves, is told by as many steps as a machine
that has just been built has places, and one more. -/
theorem unlimited_run_decided
    {r : Ruleset} (hr : r.Directed) {size : Datum} {m : Machine} (hm : create r size = .ok m) :
    let states := ((r.initialState :: r.rules.map (·.nextState)).filterMap id).toFinset
    let symbols := (initialTape r m.tapeSize ++ r.rules.map (·.nextValue)).toFinset
    let bound := m.tapeSize * states.card * symbols.card ^ m.tapeSize
    ((∀ i < bound + 1, (m.after i).fires = true) → ∀ i, (m.after i).fires = true) ∧
      ((∃ run, m.RunsTo run) ↔ (m.run (.steps (bound + 1))).machine.halted = true) ∧
      ((∃ last, m.AdvancesTo last) ↔ (m.run (.steps (bound + 1))).machine.halted = true) ∧
      (∀ run, m.RunsTo run → run = m.run (.steps (bound + 1)) ∧ run = m.run .unlimited) ∧
      ∀ last, m.AdvancesTo last →
        last = ((m.run (.steps (bound + 1))).machine, none) ∧ last = m.runToFinal .unlimited := by
  intro states symbols bound
  obtain ⟨n, hn, rfl⟩ := create_eq_ok hm
  have hsound : (start r n).Sound := sound_start hr (size_pos_of_tapeSize hn)
  have hbound : bound = (start r n).configurationBound := by
    simp only [bound, states, symbols, card_toFinset_eq_length_eraseDups]
    rfl
  -- the step limit of a run without a limit is the bound and one more
  have hrun : (start r n).run (.steps (bound + 1)) = (start r n).run .unlimited := by
    rw [hbound]
    rfl
  refine ⟨fun hfires => ?_, ?_, ?_, fun run h => ?_, fun last h => ?_⟩
  · refine hsound.fires_of_forall_le_configurationBound fun i hi => hfires i ?_
    rw [hbound]
    exact Nat.lt_succ_of_le hi
  · simp [hsound.runsTo_iff, hrun]
  · simp [hsound.advancesTo_iff, hrun]
  · rw [hrun]
    exact ⟨(hsound.runsTo_iff.mp h).1, (hsound.runsTo_iff.mp h).1⟩
  · obtain ⟨hlast, -⟩ := hsound.advancesTo_iff.mp h
    refine ⟨?_, hlast⟩
    rw [hlast, hrun, runToFinal, advance_eq, ← hsound.fault_run .unlimited]
    rfl

/-- On two cells there are eight places for a machine that goes right in one state and writes one
symbol.  Nine steps that follow a rule show that it never halts. -/
theorem unlimited_run_decided_of_nine_steps :
    let r : Ruleset :=
      ⟨[⟨some "a", some "a", some "*", some "x", .toward .right⟩], some "a", .ofNames [], none, 2⟩
    let m := start r 2
    r.Directed ∧ create r (.int 2) = .ok m ∧ (∀ i, (m.after i).fires = true) ∧
      ¬ ∃ run, m.RunsTo run := by
  intro r m
  have hr : r.Directed := by decide
  have hm : create r (.int 2) = .ok m := create_eq_start r (by decide) (by decide)
  obtain ⟨hfires, hends, -⟩ := unlimited_run_decided hr hm
  refine ⟨hr, hm, hfires (by decide), fun hrun => ?_⟩
  exact absurd (hends.mp hrun) (by decide)

end Machine

end RingTape
