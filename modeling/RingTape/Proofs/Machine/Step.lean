import RingTape.Machine.Basic
import Mathlib.Logic.Function.Iterate

/-!
# Steps of a machine

All that one step can do is said here once.  On a tape with a cell for every head position a step
follows the first rule that applies, halts the machine, or fails because the rule has no direction;
on a machine that is sound it does not fail.  The facts about runs go back to the iteration of this
step and to what it preserves.
-/

namespace RingTape

namespace Machine

/-- A machine whose ring has cells, and whose tape has as many as its ring. -/
structure OnRing (m : Machine) : Prop where
  size_pos : 0 < m.tapeSize
  length_tape : m.tape.length = m.tapeSize

/-- A machine on which no step can fail: its ring has cells, its tape has as many as its ring, its
rules have directions, and without a head position it is in no state. -/
structure Sound (m : Machine) : Prop where
  size_pos : 0 < m.tapeSize
  length_tape : m.tape.length = m.tapeSize
  directed : m.ruleset.Directed
  state_of_head : m.head = none → m.state = none

/-- The rule that the next step follows, if there is one. -/
def rule? (m : Machine) : Option Rule :=
  match m.head, m.state with
  | some head, some state =>
    if m.ruleset.isTerminal (some state) then none
    else (m.tape[Tape.cell head m.tapeSize]?).bind (m.ruleset.findRule (some state))
  | _, _ => none

/-- The machine after a step that follows no rule. -/
def halt (m : Machine) : Machine :=
  { m with configuration := ⟨none, none, m.tape⟩ }

/-- The machine after a step that follows a rule from the given head position. -/
def follow (m : Machine) (head : Int) (rule : Rule) (direction : Direction) : Machine :=
  { m with
    configuration :=
      ⟨some (head + direction.offset), rule.nextState,
        m.tape.set (Tape.cell head m.tapeSize) rule.nextValue⟩
    stepsTaken := m.stepsTaken + 1 }

/-- The machine after a step, whether it can be made or not. -/
def next (m : Machine) : Machine :=
  m.step.1

/-- Whether a step follows a rule. -/
def fires (m : Machine) : Bool :=
  match m.step.2 with
  | .ok proceed => proceed
  | .error _ => false

/-- The machine after a number of steps. -/
def after (m : Machine) (count : Nat) : Machine :=
  next^[count] m

theorem halted_iff
    (m : Machine) :
    m.halted = true ↔ m.head = none ∨ m.state = none :=
  m.configuration.halted_iff

@[simp] theorem halted_halt
    (m : Machine) :
    m.halt.halted = true :=
  rfl

/-- A step of a halted machine follows no rule and gives up the head position. -/
theorem step_of_halted
    {m : Machine} (h : m.halted = true) :
    m.step = (m.halt, .ok false) := by
  have htransition : m.transition m.configuration = .ok ⟨false, ⟨none, none, m.tape⟩⟩ := by
    rw [transition]
    rcases m.halted_iff.mp h with hhead | hstate
    · change m.configuration.head = none at hhead
      rw [hhead]
      rfl
    · change m.configuration.state = none at hstate
      rw [hstate]
      cases m.configuration.head <;> rfl
  rw [step, htransition]
  rfl

theorem rule?_of_halted
    {m : Machine} (h : m.halted = true) :
    m.rule? = none := by
  rw [rule?]
  rcases m.halted_iff.mp h with hhead | hstate
  · rw [hhead]
  · rw [hstate]
    cases m.head <;> rfl

theorem not_halted_of_rule?_ne_none
    {m : Machine} (h : m.rule? ≠ none) :
    m.halted = false := by
  by_contra hhalted
  exact h (rule?_of_halted (eq_true_of_ne_false hhalted))

namespace OnRing

variable {m : Machine}

/-- All that a step can do on a tape that has a cell for every head position. -/
theorem step_cases
    (h : m.OnRing) :
    (m.rule? = none ∧ m.step = (m.halt, .ok false)) ∨
      ∃ head rule, m.head = some head ∧ m.rule? = some rule ∧ rule ∈ m.ruleset.rules ∧
        m.step = match rule.move with
          | .toward direction => (m.follow head rule direction, .ok true)
          | .undefined shown => (m, .error (.undefinedMove shown)) := by
  by_cases hhalted : m.halted = true
  · exact .inl ⟨rule?_of_halted hhalted, step_of_halted hhalted⟩
  · rw [halted_iff, not_or] at hhalted
    obtain ⟨head, hhead⟩ := Option.ne_none_iff_exists'.mp hhalted.1
    obtain ⟨state, hstate⟩ := Option.ne_none_iff_exists'.mp hhalted.2
    change m.configuration.head = some head at hhead
    change m.configuration.state = some state at hstate
    obtain ⟨symbol, hsymbol⟩ : ∃ symbol,
        m.configuration.tape[Tape.cell head m.tapeSize]? = some symbol := by
      have hcell : Tape.cell head m.tapeSize < m.configuration.tape.length :=
        lt_of_lt_of_eq (Tape.cell_lt head h.size_pos) h.length_tape.symm
      exact ⟨_, List.getElem?_eq_getElem hcell⟩
    by_cases hterminal : m.ruleset.isTerminal (some state) = true
    · left
      simp [rule?, step, transition, Machine.head, Machine.state, hhead, hstate, hterminal, halt,
        tape]
    · cases hrule : m.ruleset.findRule (some state) symbol with
      | none =>
          left
          simp [rule?, step, transition, Machine.head, Machine.state, hhead, hstate, hterminal,
            hsymbol, hrule, halt, tape]
      | some rule =>
          have hmem := (Ruleset.appliesTo_of_findRule hrule).1
          refine .inr ⟨head, rule, hhead, ?_, hmem, ?_⟩
          · simp [rule?, Machine.head, Machine.state, hhead, hstate, hterminal, hsymbol, hrule,
              tape]
          · cases hmove : rule.move <;>
              simp [step, transition, hhead, hstate, hterminal, hsymbol, hrule, hmove, follow, tape]

theorem step_of_rule?_eq_none
    (h : m.OnRing) (hrule : m.rule? = none) :
    m.step = (m.halt, .ok false) := by
  rcases h.step_cases with ⟨-, hstep⟩ | ⟨head, rule, -, hrule', -⟩
  · exact hstep
  · rw [hrule] at hrule'
    cases hrule'

theorem step_of_rule?_eq_some
    (h : m.OnRing) {head : Int} (hhead : m.head = some head) {rule : Rule}
    (hrule : m.rule? = some rule) :
    m.step = match rule.move with
      | .toward direction => (m.follow head rule direction, .ok true)
      | .undefined shown => (m, .error (.undefinedMove shown)) := by
  rcases h.step_cases with ⟨hrule', -⟩ | ⟨head', rule', hhead', hrule', -, hstep⟩
  · rw [hrule] at hrule'
    cases hrule'
  · rw [hhead, Option.some.injEq] at hhead'
    rw [hrule, Option.some.injEq] at hrule'
    rw [hstep, hhead', hrule']

/-- A step leaves the ring and its cells in place, whether it can be made or not. -/
protected theorem next
    (h : m.OnRing) :
    m.next.OnRing ∧ m.next.tapeSize = m.tapeSize := by
  rw [Machine.next]
  rcases h.step_cases with ⟨-, hstep⟩ | ⟨head, rule, -, -, -, hstep⟩
  · rw [hstep]
    exact ⟨⟨h.size_pos, h.length_tape⟩, rfl⟩
  · rw [hstep]
    cases rule.move with
    | toward direction => exact ⟨⟨h.size_pos, List.length_set.trans h.length_tape⟩, rfl⟩
    | undefined shown => exact ⟨h, rfl⟩

protected theorem after
    (h : m.OnRing) (count : Nat) :
    (m.after count).OnRing ∧ (m.after count).tapeSize = m.tapeSize := by
  induction count with
  | zero => exact ⟨h, rfl⟩
  | succ count ih =>
      rw [after, Function.iterate_succ_apply']
      exact ⟨ih.1.next.1, ih.1.next.2.trans ih.2⟩

end OnRing

theorem Sound.onRing
    {m : Machine} (h : m.Sound) :
    m.OnRing :=
  ⟨h.size_pos, h.length_tape⟩

/-- All that a step of a sound machine can do. -/
theorem Sound.step_cases
    {m : Machine} (h : m.Sound) :
    (m.rule? = none ∧ m.step = (m.halt, .ok false)) ∨
      ∃ head rule direction, m.head = some head ∧ m.rule? = some rule ∧
        rule ∈ m.ruleset.rules ∧ rule.move = .toward direction ∧
        m.step = (m.follow head rule direction, .ok true) := by
  rcases h.onRing.step_cases with hhalts | ⟨head, rule, hhead, hrule, hmem, hstep⟩
  · exact .inl hhalts
  · obtain ⟨direction, hmove⟩ := h.directed rule hmem
    rw [hmove] at hstep
    exact .inr ⟨head, rule, direction, hhead, hrule, hmem, hmove, hstep⟩

namespace Sound

variable {m : Machine}

theorem state_of_halted
    (h : m.Sound) (hhalted : m.halted = true) :
    m.state = none :=
  (m.halted_iff.mp hhalted).elim h.state_of_head id

theorem step_eq
    (h : m.Sound) :
    m.step = (m.next, .ok m.fires) := by
  rw [fires, next]
  rcases h.step_cases with ⟨-, hstep⟩ | ⟨head, rule, direction, -, -, -, -, hstep⟩
  · rw [hstep]
  · rw [hstep]

theorem fires_iff
    (h : m.Sound) :
    m.fires = true ↔ m.rule? ≠ none := by
  rw [fires]
  rcases h.step_cases with ⟨hrule, hstep⟩ | ⟨head, rule, direction, -, hrule, -, -, hstep⟩
  · simp [hstep, hrule]
  · simp [hstep, hrule]

theorem not_halted_of_fires
    (h : m.Sound) (hfires : m.fires = true) :
    m.halted = false :=
  not_halted_of_rule?_ne_none (h.fires_iff.mp hfires)

theorem next_of_not_fires
    (h : m.Sound) (hfires : m.fires = false) :
    m.next = m.halt := by
  rcases h.step_cases with ⟨-, hstep⟩ | ⟨head, rule, direction, -, -, -, -, hstep⟩
  · rw [next, hstep]
  · rw [fires, hstep] at hfires
    cases hfires

/-- A step that follows a rule, with the rule, the position and the direction it has. -/
theorem next_of_fires
    (h : m.Sound) (hfires : m.fires = true) :
    ∃ head rule direction, m.head = some head ∧ m.rule? = some rule ∧
      rule ∈ m.ruleset.rules ∧ rule.move = .toward direction ∧
      m.next = m.follow head rule direction := by
  rcases h.step_cases with ⟨-, hstep⟩ | ⟨head, rule, direction, hhead, hrule, hmem, hmove, hstep⟩
  · rw [fires, hstep] at hfires
    cases hfires
  · exact ⟨head, rule, direction, hhead, hrule, hmem, hmove, by rw [next, hstep]⟩

/-- Whatever halting and following a rule preserve is preserved by a step. -/
theorem next_induction
    (h : m.Sound) {P : Machine → Prop} (hhalt : P m.halt)
    (hfollow : ∀ head rule direction, m.rule? = some rule → rule ∈ m.ruleset.rules →
      P (m.follow head rule direction)) :
    P m.next := by
  cases hfires : m.fires with
  | false =>
      rw [h.next_of_not_fires hfires]
      exact hhalt
  | true =>
      obtain ⟨head, rule, direction, -, hrule, hmem, -, hnext⟩ := h.next_of_fires hfires
      rw [hnext]
      exact hfollow head rule direction hrule hmem

protected theorem halt
    (h : m.Sound) :
    m.halt.Sound :=
  ⟨h.size_pos, h.length_tape, h.directed, fun _ => rfl⟩

protected theorem next
    (h : m.Sound) :
    m.next.Sound := by
  refine h.next_induction h.halt fun head rule direction _ _ => ?_
  refine ⟨h.size_pos, ?_, h.directed, fun hhead => ?_⟩
  · exact List.length_set.trans h.length_tape
  · cases hhead

protected theorem after
    (h : m.Sound) (count : Nat) :
    (m.after count).Sound := by
  induction count with
  | zero => exact h
  | succ count ih =>
      rw [after, Function.iterate_succ_apply']
      exact ih.next

end Sound

/-! ## Iterated steps -/

@[simp] theorem after_zero
    (m : Machine) :
    m.after 0 = m :=
  rfl

theorem after_succ
    (m : Machine) (count : Nat) :
    m.after (count + 1) = m.next.after count :=
  Function.iterate_succ_apply next count m

theorem after_succ'
    (m : Machine) (count : Nat) :
    m.after (count + 1) = (m.after count).next :=
  Function.iterate_succ_apply' next count m

theorem after_add
    (m : Machine) (first second : Nat) :
    m.after (first + second) = (m.after first).after second := by
  rw [after, Nat.add_comm, Function.iterate_add_apply]
  rfl

theorem next_of_halted
    {m : Machine} (h : m.halted = true) :
    m.next = m.halt := by
  rw [next, step_of_halted h]

/-- A machine that has halted stays so. -/
theorem halted_after
    {m : Machine} (h : m.halted = true) (count : Nat) :
    (m.after count).halted = true := by
  induction count with
  | zero => exact h
  | succ count ih =>
      rw [after_succ', next_of_halted ih]
      rfl

/-! ## Machines that can be reached -/

/-- The machines that are built from a ruleset, and those that their steps lead to. -/
inductive Reachable : Machine → Prop
  | create {r : Ruleset} {size : Datum} {m : Machine} :
    create r size = .ok m → Reachable m
  | step {m next : Machine} {proceed : Bool} :
    Reachable m → m.step = (next, .ok proceed) → Reachable next

theorem size_pos_of_tapeSize
    {size : Datum} {n : Nat} (h : RingTape.tapeSize size = .ok n) :
    0 < n := by
  unfold RingTape.tapeSize at h
  split at h
  · split at h
    · cases h
      omega
    · cases h
  · cases h

theorem eq_of_tapeSize
    {size n : Nat} (h : RingTape.tapeSize (.int size) = .ok n) :
    n = size := by
  unfold RingTape.tapeSize at h
  dsimp only at h
  split at h
  · cases h
    rfl
  · cases h

theorem onRing_start
    (r : Ruleset) {n : Nat} (hn : 0 < n) :
    (start r n).OnRing :=
  ⟨hn, length_initialTape r n⟩

theorem sound_start
    {r : Ruleset} (hr : r.Directed) {n : Nat} (hn : 0 < n) :
    (start r n).Sound :=
  ⟨hn, length_initialTape r n, hr, fun h => by cases h⟩

theorem create_eq_ok
    {r : Ruleset} {size : Datum} {m : Machine} (h : create r size = .ok m) :
    ∃ n, RingTape.tapeSize size = .ok n ∧ m = start r n := by
  rw [create] at h
  split at h
  · cases h
  · next n hn =>
      split at h
      · cases h
      · cases h
        exact ⟨n, hn, rfl⟩

/-- What has to be counted are the copies of the filler, or the cells if there is none. -/
theorem create_eq_start_of_copies
    (r : Ruleset) {n : Nat} (hn : 0 < n)
    (hcopies : n / max 1 (r.filler.getD []).length ≤ maxCells) :
    create r (.int n) = .ok (start r n) := by
  rw [create, tapeSize_natCast hn]
  exact if_neg (Nat.not_lt.mpr hcopies)

theorem create_eq_start
    (r : Ruleset) {n : Nat} (hn : 0 < n) (hmax : n ≤ maxCells) :
    create r (.int n) = .ok (start r n) :=
  create_eq_start_of_copies r hn (Nat.le_trans (Nat.div_le_self _ _) hmax)

theorem reachable_start
    (r : Ruleset) {n : Nat} (hn : 0 < n) (hmax : n ≤ maxCells) :
    (start r n).Reachable :=
  .create (create_eq_start r hn hmax)

theorem next_of_step
    {m next : Machine} {answer : Except StepFault Bool} (h : m.step = (next, answer)) :
    m.next = next := by
  rw [Machine.next, h]

theorem ruleset_of_step
    {m next : Machine} {answer : Except StepFault Bool} (h : m.step = (next, answer)) :
    next.ruleset = m.ruleset := by
  rw [step] at h
  split at h
  · cases h
    rfl
  · cases h
    rfl

/-- A step that cannot be made changes nothing. -/
theorem eq_of_step_eq_error
    {m next : Machine} {fault : StepFault} (h : m.step = (next, .error fault)) :
    next = m := by
  rw [step] at h
  split at h
  · exact (congrArg Prod.fst h).symm
  · cases congrArg Prod.snd h

/-- A machine that can be reached is sound when its rules have directions. -/
theorem Reachable.sound
    {m : Machine} (h : m.Reachable) (hdirected : m.ruleset.Directed) :
    m.Sound := by
  induction h with
  | create hcreate =>
      obtain ⟨n, hn, rfl⟩ := create_eq_ok hcreate
      exact sound_start hdirected (size_pos_of_tapeSize hn)
  | @step m next proceed _ hstep ih =>
      rw [ruleset_of_step hstep] at hdirected
      rw [← next_of_step hstep]
      exact (ih hdirected).next

end Machine

end RingTape
