import RingTape.Proofs.Machine.Session

/-!
# Steps that cannot be made

A machine that is put together by hand may have a configuration without a cell under the head, and
rules without a direction.  A step fails in these two cases and in no other, and the machine is then
what it was before the step.  A run, a report or a playback that fails leaves the machine after the
steps that have been made, each of which has followed a rule, and the next step fails again.
-/

namespace RingTape

namespace Machine

/-! ## When a step fails -/

/-- The head is on no cell of the tape, and the machine would read one. -/
structure OffTape (m : Machine) (c : Configuration) : Prop where
  running : c.halted = false
  not_terminal : m.ruleset.isTerminal c.state = false
  cell : ∃ head, c.head = some head ∧ c.tape.length ≤ Tape.cell head m.tapeSize

/-- The first rule that applies has something else in the place of a direction. -/
structure Misdirected (m : Machine) (c : Configuration) (shown : String) : Prop where
  running : c.halted = false
  not_terminal : m.ruleset.isTerminal c.state = false
  rule : ∃ head symbol rule, c.head = some head ∧
    c.tape[Tape.cell head m.tapeSize]? = some symbol ∧
    m.ruleset.findRule c.state symbol = some rule ∧ rule.move = .undefined shown

section

variable {m : Machine} {c : Configuration}

theorem transition_of_halted
    (h : c.halted = true ∨ m.ruleset.isTerminal c.state = true) :
    m.transition c = .ok ⟨false, ⟨none, none, c.tape⟩⟩ := by
  rw [transition]
  cases hhead : c.head with
  | none => rfl
  | some head =>
      cases hstate : c.state with
      | none => rfl
      | some name =>
          have hterminal : m.ruleset.isTerminal (some name) = true := by
            rw [← hstate]
            apply h.resolve_left
            simp [Configuration.halted, hhead, hstate]
          exact if_pos hterminal

/-- What a configuration leads to whose machine is running and in no terminal state. -/
theorem transition_of_running
    {head : Int} (hhead : c.head = some head) {name : String} (hstate : c.state = some name)
    (hterminal : m.ruleset.isTerminal c.state = false) :
    m.transition c =
      match c.tape[Tape.cell head m.tapeSize]? with
      | none => .error .offTape
      | some symbol =>
        match m.ruleset.findRule c.state symbol with
        | none => .ok ⟨false, ⟨none, none, c.tape⟩⟩
        | some rule =>
          match rule.move with
          | .undefined shown => .error (.undefinedMove shown)
          | .toward direction => .ok ⟨true, ⟨some (head + direction.offset), rule.nextState,
              c.tape.set (Tape.cell head m.tapeSize) rule.nextValue⟩⟩ := by
  rw [hstate] at hterminal
  rw [transition, hhead, hstate]
  exact if_neg (ne_true_of_eq_false hterminal)

theorem exists_of_not_halted
    (h : c.halted = false) :
    ∃ head name, c.head = some head ∧ c.state = some name := by
  rw [← Bool.not_eq_true, Configuration.halted_iff, not_or] at h
  obtain ⟨head, hhead⟩ := Option.ne_none_iff_exists'.mp h.1
  obtain ⟨name, hstate⟩ := Option.ne_none_iff_exists'.mp h.2
  exact ⟨head, name, hhead, hstate⟩

theorem OffTape.transition_eq
    (h : m.OffTape c) :
    m.transition c = .error .offTape := by
  obtain ⟨hrunning, hterminal, head, hhead, hcell⟩ := h
  obtain ⟨-, name, -, hstate⟩ := exists_of_not_halted hrunning
  rw [transition_of_running hhead hstate hterminal, List.getElem?_eq_none hcell]

theorem Misdirected.transition_eq
    {shown : String} (h : m.Misdirected c shown) :
    m.transition c = .error (.undefinedMove shown) := by
  obtain ⟨hrunning, hterminal, head, symbol, rule, hhead, hsymbol, hrule, hmove⟩ := h
  obtain ⟨-, name, -, hstate⟩ := exists_of_not_halted hrunning
  simp only [transition_of_running hhead hstate hterminal, hsymbol, hrule, hmove]

/-- All that a configuration can lead to. -/
theorem transition_cases
    (m : Machine) (c : Configuration) :
    m.OffTape c ∨ (∃ shown, m.Misdirected c shown) ∨
      m.transition c = .ok ⟨false, ⟨none, none, c.tape⟩⟩ ∨
      ∃ (head : Int) (rule : Rule) (direction : Direction), c.head = some head ∧
        m.transition c = .ok ⟨true, ⟨some (head + direction.offset), rule.nextState,
          c.tape.set (Tape.cell head m.tapeSize) rule.nextValue⟩⟩ := by
  by_cases hstops : c.halted = true ∨ m.ruleset.isTerminal c.state = true
  · exact .inr (.inr (.inl (transition_of_halted hstops)))
  rw [not_or, Bool.not_eq_true, Bool.not_eq_true] at hstops
  obtain ⟨hrunning, hterminal⟩ := hstops
  obtain ⟨head, name, hhead, hstate⟩ := exists_of_not_halted hrunning
  have htransition := transition_of_running hhead hstate hterminal
  by_cases hcell : Tape.cell head m.tapeSize < c.tape.length
  · rw [List.getElem?_eq_getElem hcell] at htransition
    cases hrule : m.ruleset.findRule c.state c.tape[Tape.cell head m.tapeSize] with
    | none =>
        simp only [hrule] at htransition
        exact .inr (.inr (.inl htransition))
    | some rule =>
        cases hmove : rule.move with
        | undefined shown =>
            exact .inr (.inl ⟨shown, hrunning, hterminal, head, _, rule, hhead,
              List.getElem?_eq_getElem hcell, hrule, hmove⟩)
        | toward direction =>
            simp only [hrule, hmove] at htransition
            exact .inr (.inr (.inr ⟨head, rule, direction, hhead, htransition⟩))
  · exact .inl ⟨hrunning, hterminal, head, hhead, Nat.le_of_not_lt hcell⟩

theorem transition_eq_error
    {fault : StepFault} (h : m.transition c = .error fault) :
    (fault = .offTape ∧ m.OffTape c) ∨
      ∃ shown, fault = .undefinedMove shown ∧ m.Misdirected c shown := by
  rcases m.transition_cases c with
    hoff | ⟨shown, hshown⟩ | hhalts | ⟨head, rule, direction, -, hmoves⟩
  · rw [hoff.transition_eq] at h
    exact .inl ⟨(Except.error.inj h).symm, hoff⟩
  · rw [hshown.transition_eq] at h
    exact .inr ⟨shown, (Except.error.inj h).symm, hshown⟩
  · rw [hhalts] at h
    cases h
  · rw [hmoves] at h
    cases h

theorem transition_eq_offTape_iff :
    m.transition c = .error .offTape ↔ m.OffTape c := by
  refine ⟨fun h => ?_, OffTape.transition_eq⟩
  rcases transition_eq_error h with ⟨-, hoff⟩ | ⟨shown, hshown, -⟩
  · exact hoff
  · cases hshown

theorem transition_eq_undefinedMove_iff
    {shown : String} :
    m.transition c = .error (.undefinedMove shown) ↔ m.Misdirected c shown := by
  refine ⟨fun h => ?_, Misdirected.transition_eq⟩
  rcases transition_eq_error h with ⟨hoff, -⟩ | ⟨other, hshown, hmisdirected⟩
  · cases hoff
  · cases hshown
    exact hmisdirected

/-- A tape that a transition leads to has as many cells as the one before, and the cells beyond the
ring are the same. -/
theorem exists_transition_eq_ok
    (hsize : 0 < m.tapeSize) (hoff : ¬ m.OffTape c) (hdirected : ∀ shown, ¬ m.Misdirected c shown) :
    ∃ result, m.transition c = .ok result ∧
      result.configuration.tape.length = c.tape.length ∧
      ∀ i, m.tapeSize ≤ i → result.configuration.tape[i]? = c.tape[i]? := by
  rcases m.transition_cases c with h | ⟨shown, h⟩ | hhalts | ⟨head, rule, direction, -, hmoves⟩
  · exact absurd h hoff
  · exact absurd h (hdirected shown)
  · exact ⟨_, hhalts, rfl, fun _ _ => rfl⟩
  · refine ⟨_, hmoves, List.length_set, fun i hi => ?_⟩
    exact List.getElem?_set_ne ((Tape.cell_lt head hsize).trans_le hi).ne

end

/-- All that a step can lead to which can be made. -/
theorem eq_of_step
    {m next : Machine} {proceed : Bool} (h : m.step = (next, .ok proceed)) :
    (proceed = false ∧ next = m.halt) ∨
      ∃ head rule direction, proceed = true ∧ next = m.follow head rule direction := by
  rw [step] at h
  rcases m.transition_cases m.configuration with
    hoff | ⟨shown, hshown⟩ | hhalts | ⟨head, rule, direction, -, hmoves⟩
  · rw [hoff.transition_eq] at h
    cases h
  · rw [hshown.transition_eq] at h
    cases h
  · rw [hhalts] at h
    cases h
    exact .inl ⟨rfl, rfl⟩
  · rw [hmoves] at h
    cases h
    exact .inr ⟨head, rule, direction, rfl, rfl⟩

theorem stepsTaken_of_step_eq_true
    {m next : Machine} (h : m.step = (next, .ok true)) :
    next.stepsTaken = m.stepsTaken + 1 := by
  rcases eq_of_step h with ⟨hproceed, -⟩ | ⟨head, rule, direction, -, rfl⟩
  · cases hproceed
  · rfl

/-- A step fails where the transition does. -/
theorem step_eq_error_iff
    {m : Machine} {fault : StepFault} :
    m.step.2 = .error fault ↔ m.transition m.configuration = .error fault := by
  rw [step]
  cases m.transition m.configuration with
  | error cause => simp
  | ok result => simp

theorem step_of_error
    {m : Machine} {fault : StepFault} (h : m.step.2 = .error fault) :
    m.step = (m, .error fault) :=
  Prod.ext (eq_of_step_eq_error (Prod.ext rfl h)) h

theorem not_halted_of_step_eq_error
    {m next : Machine} {fault : StepFault} (h : m.step = (next, .error fault)) :
    ¬ m.halted = true := by
  intro hhalted
  rw [step_of_halted hhalted] at h
  cases h

theorem not_halted_of_step_eq_true
    {m next : Machine} (h : m.step = (next, .ok true)) :
    ¬ m.halted = true := by
  intro hhalted
  rw [step_of_halted hhalted] at h
  cases h

/-! ## Where a run fails -/

/-- The machine `last` is where the steps of `m` come to a fault: the first `count` of them follow
rules and lead there, and the next one cannot be made, however often it is tried. -/
structure FailsAfter (m : Machine) (count : Nat) (fault : StepFault) (last : Machine) : Prop where
  machine : last = m.after count
  completed : ∀ i < count, (m.after i).step = (m.after (i + 1), .ok true)
  stepsTaken : last.stepsTaken = m.stepsTaken + count
  fails : last.step = (last, .error fault)
  stays : ∀ more, last.after more = last

namespace FailsAfter

variable {m next last : Machine} {count : Nat} {fault : StepFault}

theorem zero
    (h : m.step = (m, .error fault)) :
    m.FailsAfter 0 fault m := by
  refine ⟨rfl, fun i hi => absurd hi (Nat.not_lt_zero i), rfl, h, fun more => ?_⟩
  have hnext : m.next = m := by rw [Machine.next, h]
  exact Function.iterate_fixed hnext more

theorem succ
    (hstep : m.step = (next, .ok true)) (h : next.FailsAfter count fault last) :
    m.FailsAfter (count + 1) fault last := by
  have hnext := next_of_step hstep
  refine ⟨?_, fun i hi => ?_, ?_, h.fails, h.stays⟩
  · rw [after_succ, hnext]
    exact h.machine
  · cases i with
    | zero =>
        rw [after_succ, hnext]
        exact hstep
    | succ i =>
        rw [after_succ, after_succ, hnext]
        exact h.completed i (Nat.lt_of_succ_lt_succ hi)
  · rw [h.stepsTaken, stepsTaken_of_step_eq_true hstep, Nat.add_right_comm, Nat.add_assoc]

theorem of_succ
    (h : m.FailsAfter (count + 1) fault last) :
    m.step = (m.next, .ok true) ∧ m.next.FailsAfter count fault last := by
  have hstep : m.step = (m.next, .ok true) := h.completed 0 (Nat.succ_pos count)
  refine ⟨hstep, ?_, fun i hi => ?_, ?_, h.fails, h.stays⟩
  · rw [← after_succ]
    exact h.machine
  · have hcompleted := h.completed (i + 1) (Nat.succ_lt_succ hi)
    rwa [after_succ, after_succ] at hcompleted
  · rw [h.stepsTaken, stepsTaken_of_step_eq_true hstep, Nat.add_right_comm, Nat.add_assoc]

/-- A run with a limit that the steps come to a fault within. -/
theorem runSteps_eq
    (h : m.FailsAfter count fault last) {limit : Nat} (hlimit : count < limit) :
    m.runSteps limit = ⟨last, m.tapes (count + 1), some fault⟩ := by
  induction count generalizing m limit with
  | zero =>
      obtain ⟨limit, rfl⟩ := Nat.exists_eq_succ_of_ne_zero hlimit.ne'
      have hlast : last = m := h.machine
      have hfails := h.fails
      rw [hlast] at hfails ⊢
      rw [runSteps, if_neg (not_halted_of_step_eq_error hfails), hfails]
      rfl
  | succ count ih =>
      obtain ⟨limit, rfl⟩ := Nat.exists_eq_succ_of_ne_zero (Nat.ne_zero_of_lt hlimit)
      obtain ⟨hstep, hrest⟩ := h.of_succ
      rw [runSteps, if_neg (not_halted_of_step_eq_true hstep), hstep, tapes_succ_eq_cons]
      simp only [ih hrest (Nat.lt_of_succ_lt_succ hlimit)]

end FailsAfter

/-- A run that fails has come to a fault within its limit. -/
theorem exists_failsAfter_of_runSteps
    {m : Machine} {limit : Nat} {fault : StepFault} (h : (m.runSteps limit).fault = some fault) :
    ∃ count < limit, m.FailsAfter count fault (m.runSteps limit).machine := by
  induction limit generalizing m with
  | zero => cases h
  | succ limit ih =>
      rw [runSteps] at h ⊢
      by_cases hhalted : m.halted = true
      · rw [if_pos hhalted] at h
        cases h
      rw [if_neg hhalted] at h ⊢
      rcases hstep : m.step with ⟨next, cause | proceed⟩
      · rw [hstep] at h
        cases h
        obtain rfl := eq_of_step_eq_error hstep
        exact ⟨0, Nat.succ_pos limit, .zero hstep⟩
      · rw [hstep] at h
        obtain ⟨count, hcount, hfails⟩ := ih h
        rcases eq_of_step hstep with ⟨-, rfl⟩ | ⟨head, rule, direction, rfl, -⟩
        · -- a machine that has halted comes to no fault any more
          dsimp only at h
          rw [runSteps_of_halted m.halted_halt] at h
          cases h
        · exact ⟨count + 1, Nat.succ_lt_succ hcount, hfails.succ hstep⟩

theorem fault_runSteps_eq_some_iff
    {m : Machine} {limit : Nat} {fault : StepFault} :
    (m.runSteps limit).fault = some fault ↔
      ∃ count < limit, ∃ last, m.FailsAfter count fault last := by
  constructor
  · intro h
    obtain ⟨count, hcount, hfails⟩ := exists_failsAfter_of_runSteps h
    exact ⟨count, hcount, _, hfails⟩
  · rintro ⟨count, hcount, last, hfails⟩
    rw [hfails.runSteps_eq hcount]

theorem exists_failsAfter_of_playSteps
    {m : Machine} {wait : Wait} {limit input : Nat} {fault : StepFault}
    (h : (m.playSteps wait limit input).ending = .fault fault) :
    ∃ count < limit, m.FailsAfter count fault (m.playSteps wait limit input).machine := by
  induction limit generalizing m input with
  | zero => cases h
  | succ limit ih =>
      rw [playSteps] at h ⊢
      rcases hstep : m.step with ⟨next, cause | _ | _⟩
      · rw [hstep] at h
        cases h
        obtain rfl := eq_of_step_eq_error hstep
        exact ⟨0, Nat.succ_pos limit, .zero hstep⟩
      · rw [hstep] at h
        cases h
      · rw [hstep] at h
        have hrest : ∀ left, (next.playSteps wait limit left).ending = .fault fault →
            ∃ count < limit + 1,
              m.FailsAfter count fault (next.playSteps wait limit left).machine := by
          intro left hleft
          obtain ⟨count, hcount, hfails⟩ := ih hleft
          exact ⟨count + 1, Nat.succ_lt_succ hcount, hfails.succ hstep⟩
        cases wait with
        | none => exact hrest input h
        | sleep milliseconds => exact hrest input h
        | enter =>
            cases input with
            | zero => cases h
            | succ input => exact hrest input h

/-- The loop without a bound on its steps fails where the steps come to a fault. -/
theorem exists_runsTo_fault_iff
    {m : Machine} {fault : StepFault} {last : Machine} :
    (∃ run, m.RunsTo run ∧ run.fault = some fault ∧ run.machine = last) ↔
      ∃ count, m.FailsAfter count fault last := by
  constructor
  · rintro ⟨run, hrun, hfault, rfl⟩
    obtain ⟨limit, rfl, -⟩ := runsTo_iff.mp hrun
    obtain ⟨count, -, hfails⟩ := exists_failsAfter_of_runSteps hfault
    exact ⟨count, hfails⟩
  · rintro ⟨count, hfails⟩
    have hrun := hfails.runSteps_eq (Nat.lt_succ_self count)
    refine ⟨_, runsTo_iff.mpr ⟨count + 1, hrun, .inr ?_⟩, rfl, rfl⟩
    exact Option.some_ne_none fault

/-- A step fails for want of a cell or of a direction, and only then.  One that fails leaves the
machine as it is, and whatever has made steps before it leaves the machine after those steps. -/
theorem fails_exactly
    (m : Machine) (hsize : 0 < m.tapeSize) :
    (∀ c, (m.transition c = .error .offTape ↔ m.OffTape c) ∧
        (∀ shown, m.transition c = .error (.undefinedMove shown) ↔ m.Misdirected c shown) ∧
        (¬ m.OffTape c → (∀ shown, ¬ m.Misdirected c shown) →
          ∃ result, m.transition c = .ok result ∧
            result.configuration.tape.length = c.tape.length ∧
            ∀ i, m.tapeSize ≤ i → result.configuration.tape[i]? = c.tape[i]?)) ∧
      (∀ fault, (m.step.2 = .error fault ↔ m.transition m.configuration = .error fault) ∧
        (m.step.2 = .error fault → m.step.1 = m ∧
          Operation.step.perform m = ⟨m, [], .fault fault⟩ ∧ m.FailsAfter 0 fault m)) ∧
      (∀ limit fault, (m.run (.steps limit)).fault = some fault ↔
        ∃ count < limit, ∃ last, m.FailsAfter count fault last) ∧
      (∀ fault last, (∃ run, m.RunsTo run ∧ run.fault = some fault ∧ run.machine = last) ↔
        ∃ count, m.FailsAfter count fault last) ∧
      (∀ budget verbose fault, let session := (Operation.run budget verbose).perform m
        session.ending = .fault fault → ∃ count, m.FailsAfter count fault session.machine) ∧
      (∀ budget fault, let session := (Operation.runToFinal budget).perform m
        session.ending = .fault fault → ∃ count, m.FailsAfter count fault session.machine) ∧
      ∀ budget pause input fault, (m.play budget pause input).ending = .fault fault →
        ∃ count, m.FailsAfter count fault (m.play budget pause input).machine := by
  have hrun : ∀ budget fault, PlaybackEnd.ofFault (m.run budget).fault = .fault fault →
      ∃ count, m.FailsAfter count fault (m.run budget).machine := by
    intro budget fault hending
    cases hfault : (m.run budget).fault with
    | none =>
        rw [hfault] at hending
        cases hending
    | some cause =>
        rw [hfault] at hending
        cases hending
        obtain ⟨count, -, hfails⟩ := exists_failsAfter_of_runSteps hfault
        exact ⟨count, hfails⟩
  refine ⟨fun c => ⟨transition_eq_offTape_iff, fun _ => transition_eq_undefinedMove_iff,
    exists_transition_eq_ok hsize⟩, ?_, fun _ _ => fault_runSteps_eq_some_iff,
    fun _ _ => exists_runsTo_fault_iff, ?_, ?_, ?_⟩
  · refine fun fault => ⟨step_eq_error_iff, fun hfault => ?_⟩
    have hstep := step_of_error hfault
    exact ⟨by rw [hstep], by rw [Operation.perform, hstep], .zero hstep⟩
  · intro budget verbose fault session hending
    have hreport : (m.report budget).run = m.run budget :=
      m.reportSteps_run (m.stepLimit budget) 1
    simp only [session, Operation.perform, hreport, ite_self] at hending ⊢
    exact hrun budget fault hending
  · intro budget fault session hending
    simp only [session, Operation.perform, runToFinal, advance_eq] at hending ⊢
    exact hrun budget fault hending
  · intro budget pause input fault hending
    obtain ⟨count, -, hfails⟩ := exists_failsAfter_of_playSteps hending
    exact ⟨count, hfails⟩

/-- The second of two rules has the number five in the place of a direction: a run fails after one
step, and the machine is then in the second state.  On a tape of a single cell a head position of
the second cell is on no cell, and on a tape of three cells the third one is left alone. -/
theorem fails_exactly_after_one_step :
    let r : Ruleset := ⟨[⟨some "a", some "b", none, some "x", .toward .right⟩,
      ⟨some "b", some "b", some "*", some "y", .undefined "5"⟩], some "a", .ofNames [], none, 2⟩
    let m := start r 2
    let last : Machine := ⟨r, 2, ⟨some 1, some "b", [some "x", none]⟩, 1⟩
    let short : Configuration := ⟨some 1, some "a", [none]⟩
    let long : Configuration := ⟨some 3, some "a", [none, none, some "z"]⟩
    0 < m.tapeSize ∧ (m.run .unlimited).machine = last ∧
      (m.run (.steps 5)).fault = some (.undefinedMove "5") ∧
      (∃ count < 5, ∃ last, m.FailsAfter count (.undefinedMove "5") last) ∧
      last.step = (last, .error (.undefinedMove "5")) ∧
      last.FailsAfter 0 (.undefinedMove "5") last ∧
      m.transition short = .error .offTape ∧ m.OffTape short ∧
      ∃ result, m.transition long = .ok result ∧
        result.configuration.tape = [none, some "x", some "z"] := by
  intro r m last short long
  have hsize : 0 < m.tapeSize := Nat.two_pos
  obtain ⟨hm, -, hrun, -⟩ := m.fails_exactly hsize
  obtain ⟨-, hlast, -⟩ := last.fails_exactly hsize
  have hfault : (m.run (.steps 5)).fault = some (.undefinedMove "5") := by decide
  have hanswer : last.step.2 = .error (.undefinedMove "5") := by rfl
  obtain ⟨hsame, -, hfails⟩ := (hlast _).2 hanswer
  have hshort : m.transition short = .error .offTape := by decide
  exact ⟨hsize, by decide, hfault, (hrun 5 _).mp hfault, Prod.ext hsame hanswer, hfails, hshort,
    (hm short).1.mp hshort, ⟨true, ⟨some 4, some "b", [none, some "x", some "z"]⟩⟩, by decide, rfl⟩

end Machine

end RingTape
