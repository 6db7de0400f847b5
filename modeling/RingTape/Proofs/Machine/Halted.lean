import RingTape.Proofs.Machine.Session

/-!
# Machines that have halted

A machine halts in two ways.  A step that follows no rule takes the head and the state away, and
after it nothing changes any more.  A step that follows a rule into the halt state leaves the head
where the rule moves it, and the next step takes it away.  All else stays in both cases.
-/

namespace RingTape

namespace Machine

/-! ## What can be reached -/

/-- All that a step can lead to on a tape that has a cell for every head position. -/
theorem OnRing.eq_of_step
    {m next : Machine} (h : m.OnRing) {proceed : Bool} (hstep : m.step = (next, .ok proceed)) :
    (proceed = false ∧ next = m.halt) ∨
      ∃ head rule direction, proceed = true ∧ m.rule? = some rule ∧
        next = m.follow head rule direction := by
  rcases h.step_cases with ⟨-, hhalts⟩ | ⟨head, rule, -, hrule, -, hfollows⟩
  · rw [hhalts] at hstep
    cases hstep
    exact .inl ⟨rfl, rfl⟩
  · rw [hfollows] at hstep
    cases hmove : rule.move with
    | toward direction =>
        rw [hmove] at hstep
        cases hstep
        exact .inr ⟨head, rule, direction, rfl, hrule, rfl⟩
    | undefined shown =>
        rw [hmove] at hstep
        cases hstep

namespace Reachable

variable {m : Machine}

theorem onRing
    (h : m.Reachable) :
    m.OnRing := by
  induction h with
  | create hcreate =>
      obtain ⟨n, hn, rfl⟩ := create_eq_ok hcreate
      exact onRing_start _ (size_pos_of_tapeSize hn)
  | step _ hstep ih =>
      rw [← next_of_step hstep]
      exact ih.next.1

/-- Without a head position a machine that can be reached is in no state. -/
theorem state_of_head
    (h : m.Reachable) (hhead : m.head = none) :
    m.state = none := by
  cases h with
  | create hcreate =>
      obtain ⟨n, -, rfl⟩ := create_eq_ok hcreate
      cases hhead
  | step hreachable hstep =>
      rcases hreachable.onRing.eq_of_step hstep with ⟨-, rfl⟩ | ⟨head, rule, direction, -, -, rfl⟩
      · rfl
      · cases hhead

theorem state_of_halted
    (h : m.Reachable) (hhalted : m.halted = true) :
    m.state = none :=
  (m.halted_iff.mp hhalted).elim h.state_of_head id

theorem runSteps
    (h : m.Reachable) (limit : Nat) :
    (m.runSteps limit).machine.Reachable := by
  induction limit generalizing m with
  | zero => exact h
  | succ limit ih =>
      rw [Machine.runSteps]
      split
      · exact h
      · split
        · next hstep => exact (eq_of_step_eq_error hstep).symm ▸ h
        · next hstep => exact ih (h.step hstep)

theorem playSteps
    (h : m.Reachable) (wait : Wait) (limit input : Nat) :
    (m.playSteps wait limit input).machine.Reachable := by
  induction limit generalizing m input with
  | zero => exact h
  | succ limit ih =>
      rw [Machine.playSteps]
      split
      · next hstep => exact (eq_of_step_eq_error hstep).symm ▸ h
      · next hstep => exact h.step hstep
      · next hstep =>
          split
          · exact h.step hstep
          · exact ih (h.step hstep) _
          · exact ih (h.step hstep) _

theorem perform_operation
    (h : m.Reachable) (operation : Operation) :
    (operation.perform m).machine.Reachable := by
  cases operation with
  | step =>
      rw [Operation.perform]
      split
      · next hstep => exact h.step hstep
      · next hstep => exact (eq_of_step_eq_error hstep).symm ▸ h
  | run budget verbose =>
      have hreport : (m.report budget).run = m.run budget :=
        m.reportSteps_run (m.stepLimit budget) 1
      rw [Operation.perform, hreport, ite_self]
      exact h.runSteps (m.stepLimit budget)
  | runToFinal budget =>
      rw [Operation.perform, runToFinal, advance_eq]
      exact h.runSteps (m.stepLimit budget)
  | play budget pause input => exact h.playSteps _ _ input

/-- Whatever is done with a machine that can be reached leads to one, also where a step fails. -/
theorem perform
    (h : m.Reachable) (operations : List Operation) :
    (m.perform operations).machine.Reachable := by
  induction operations generalizing m with
  | nil => exact h
  | cons operation rest ih =>
      rw [Machine.perform]
      split
      · exact ih (h.perform_operation operation)
      · exact h.perform_operation operation

/-! ## How a machine halts -/

/-- A machine without a head position has made a step that follows no rule. -/
theorem head_eq_none_iff
    (h : m.Reachable) :
    m.head = none ↔ ∃ before : Machine, before.Reachable ∧ before.step = (m, .ok false) := by
  constructor
  · intro hhead
    cases h with
    | create hcreate =>
        obtain ⟨n, -, rfl⟩ := create_eq_ok hcreate
        cases hhead
    | @step before next proceed hreachable hstep =>
        rcases hreachable.onRing.eq_of_step hstep with ⟨rfl, -⟩ | ⟨head, rule, direction, -, -, rfl⟩
        · exact ⟨before, hreachable, hstep⟩
        · cases hhead
  · rintro ⟨before, hreachable, hstep⟩
    rcases hreachable.onRing.eq_of_step hstep with ⟨-, rfl⟩ | ⟨_, _, _, hproceed, -⟩
    · rfl
    · cases hproceed

/-- A halted machine with a head position has just followed a rule into the halt state, or it was
built in that state. -/
theorem head_ne_none_iff
    (h : m.Reachable) (hhalted : m.halted = true) :
    m.head ≠ none ↔
      (∃ r size, Machine.create r size = .ok m ∧ r.initialState = none) ∨
        ∃ (before : Machine) (rule : Rule), before.Reachable ∧ before.rule? = some rule ∧
          rule.nextState = none ∧ before.step = (m, .ok true) := by
  have hstate := h.state_of_halted hhalted
  constructor
  · intro hhead
    cases h with
    | @create r size _ hcreate =>
        refine .inl ⟨r, size, hcreate, ?_⟩
        obtain ⟨n, -, rfl⟩ := create_eq_ok hcreate
        exact hstate
    | @step before next proceed hreachable hstep =>
        rcases hreachable.onRing.eq_of_step hstep with ⟨-, rfl⟩ | ⟨_, rule, _, rfl, hrule, rfl⟩
        · exact absurd rfl hhead
        · exact .inr ⟨before, rule, hreachable, hrule, hstate, hstep⟩
  · rintro (⟨r, size, hcreate, -⟩ | ⟨before, rule, hreachable, -, -, hstep⟩)
    · obtain ⟨n, -, rfl⟩ := create_eq_ok hcreate
      exact Option.some_ne_none 0
    · rcases hreachable.onRing.eq_of_step hstep with ⟨hproceed, -⟩ | ⟨head, _, _, -, -, rfl⟩
      · cases hproceed
      · exact Option.some_ne_none _

end Reachable

/-- The machine `other` is the machine `m`, up to the head position. -/
structure SameButHead (m other : Machine) : Prop where
  ruleset : other.ruleset = m.ruleset
  tapeSize : other.tapeSize = m.tapeSize
  state : other.state = m.state
  tape : other.tape = m.tape
  halted : other.halted = m.halted
  stepsTaken : other.stepsTaken = m.stepsTaken

theorem Reachable.sameButHead_halt
    {m : Machine} (h : m.Reachable) (hhalted : m.halted = true) :
    m.SameButHead m.halt where
  ruleset := rfl
  tapeSize := rfl
  state := (h.state_of_halted hhalted).symm
  tape := rfl
  halted := hhalted.symm
  stepsTaken := rfl

theorem step_after_of_halted
    {m : Machine} (h : m.halted = true) (count : Nat) :
    (m.after count).step = (m.halt, .ok false) := by
  cases count with
  | zero => exact step_of_halted h
  | succ count =>
      rw [after_of_halted h (Nat.succ_pos count)]
      exact step_of_halted m.halted_halt

theorem Reachable.halt_eq_self_iff
    {m : Machine} (h : m.Reachable) (hhalted : m.halted = true) :
    m.halt = m ↔ m.head = none := by
  constructor
  · intro heq
    rw [← heq]
    rfl
  · intro hhead
    have hstate := h.state_of_halted hhalted
    obtain ⟨ruleset, tapeSize, ⟨head, state, tape⟩, stepsTaken⟩ := m
    cases hhead
    cases hstate
    rfl

/-- Steps change nothing of a halted machine if it has no head position. -/
theorem Reachable.forall_after_eq_iff
    {m : Machine} (h : m.Reachable) (hhalted : m.halted = true) :
    (∀ count, m.after count = m) ↔ m.head = none := by
  rw [← h.halt_eq_self_iff hhalted]
  constructor
  · intro hsame
    -- the first step is the one that may take the head away
    have hfirst := hsame 1
    rwa [after_of_halted hhalted Nat.one_pos] at hfirst
  · intro hsame count
    rw [← hsame]
    exact m.after_halt count

/-- A step of a machine that has halted follows no rule and changes at most the head, whatever has
been done with the machine before.  Nothing changes at all unless the machine has its head yet: it
was built in the halt state, or its last step has followed a rule there.  Then the next step takes
the head away. -/
theorem Reachable.steps_of_halted
    {first : Machine} (h : first.Reachable) {operations : List Operation} {m : Machine}
    (hm : (first.perform operations).machine = m) (hhalted : m.halted = true) :
    (∀ count, ∃ next, (m.after count).step = (next, .ok false) ∧ next = m.after (count + 1) ∧
        m.SameButHead next ∧ next.head = none) ∧
      ((∀ count, m.after count = m) ↔ m.head = none) ∧
      (m.head = none ↔ ∃ before : Machine, before.Reachable ∧ before.step = (m, .ok false)) ∧
      (m.head ≠ none ↔
        (∃ r size, Machine.create r size = .ok m ∧ r.initialState = none) ∨
          ∃ (before : Machine) (rule : Rule), before.Reachable ∧ before.rule? = some rule ∧
            rule.nextState = none ∧ before.step = (m, .ok true)) := by
  have hreachable : m.Reachable := by
    rw [← hm]
    exact h.perform operations
  refine ⟨?_, hreachable.forall_after_eq_iff hhalted, hreachable.head_eq_none_iff,
    hreachable.head_ne_none_iff hhalted⟩
  intro count
  refine ⟨m.halt, step_after_of_halted hhalted count, ?_, hreachable.sameButHead_halt hhalted, rfl⟩
  exact (after_of_halted hhalted (Nat.succ_pos count)).symm

/-- One rule leads into the halt state: the step that follows it leaves a halted machine with its
head on, the next step takes the head away, and from then on nothing changes. -/
theorem steps_of_halted_of_rule_to_halt :
    let r : Ruleset := ⟨[⟨some "a", none, none, some "x", .toward .right⟩], some "a",
      .ofNames [], none, 3⟩
    let first := start r 3
    let m : Machine := ⟨r, 3, ⟨some 1, none, [some "x", none, none]⟩, 1⟩
    let last : Machine := ⟨r, 3, ⟨none, none, [some "x", none, none]⟩, 1⟩
    first.Reachable ∧ (first.perform [.run .unlimited false]).machine = m ∧ m.halted = true ∧
      (first.perform [.step, .play (.steps 1) 0 0]).machine = last ∧ last.halted = true ∧
      (∃ count, m.after count ≠ m) ∧ (∀ count, last.after count = last) := by
  intro r first m last
  have hfirst : first.Reachable := reachable_start r (by decide) (by decide)
  have hm : (first.perform [.run .unlimited false]).machine = m := by decide
  have hlast : (first.perform [.step, .play (.steps 1) 0 0]).machine = last := by decide
  obtain ⟨-, hstays, -, -⟩ := hfirst.steps_of_halted hm rfl
  obtain ⟨-, hstays', -, -⟩ := hfirst.steps_of_halted hlast rfl
  refine ⟨hfirst, hm, rfl, hlast, rfl, ?_, hstays'.mpr rfl⟩
  exact not_forall.mp fun hall => Option.some_ne_none (1 : Int) (hstays.mp hall)

/-- A machine that has followed a rule into the halt state is halted, and yet a step changes it. -/
theorem exists_step_of_halted_ne :
    ∃ m next : Machine, m.Reachable ∧ m.halted = true ∧ m.step = (next, .ok false) ∧
      m.head = some 1 ∧ next.head = none := by
  let r : Ruleset := ⟨[⟨some "a", none, none, some "x", .toward .right⟩], some "a",
    .ofNames [], none, 3⟩
  let m : Machine := ⟨r, 3, ⟨some 1, none, [some "x", none, none]⟩, 1⟩
  have hstart : (start r 3).Reachable := reachable_start r (by decide) (by decide)
  have hstep : (start r 3).step = (m, .ok true) := rfl
  exact ⟨m, m.halt, hstart.step hstep, rfl, rfl, rfl, rfl⟩

end Machine

end RingTape
