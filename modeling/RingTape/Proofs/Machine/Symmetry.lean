import RingTape.Proofs.Machine.Unlimited
import Mathlib.Data.List.FinRange

/-!
# Symmetries of the ring

A ring of cells has no seam and no preferred side.  Rotating the tape and moving the head along
changes nothing in what a machine does, and neither does turning the ring over, if the machine goes
left where it went right.  Both are motions of the ring.  A motion acts on positions, tapes, rules
and machines, and a step of the moved machine is the moved step of the machine; so are the runs.
-/

namespace RingTape

/-- The direction the other way around. -/
def Direction.opposite : Direction → Direction
  | .left => .right
  | .right => .left
  | .stay => .stay

/-- A motion of a ring: it is turned over about the cell of position zero, or not, and then it is
rotated. -/
structure Motion where
  turns : Bool
  shift : Int
  deriving DecidableEq, Repr

namespace Motion

/-- The motion that rotates a ring. -/
def rotation (shift : Int) : Motion := ⟨false, shift⟩

/-- The motion that turns a ring over. -/
def mirror : Motion := ⟨true, 0⟩

variable (σ : Motion)

/-- Where a position comes to lie. -/
def position (i : Int) : Int :=
  (if σ.turns then -i else i) + σ.shift

/-- The position that comes to lie here. -/
def source (i : Int) : Int :=
  if σ.turns then σ.shift - i else i - σ.shift

/-- The direction after a motion. -/
def direction (d : Direction) : Direction :=
  if σ.turns then d.opposite else d

/-- The tape after a motion. -/
def tape (t : Tape) : Tape :=
  List.ofFn fun i : Fin t.length =>
    t.get ⟨Tape.cell (σ.source i) t.length, Tape.cell_lt _ i.pos⟩

/-- What a rule tells the head to do after a motion. -/
def move : Move → Move
  | .toward d => .toward (σ.direction d)
  | .undefined code => .undefined code

/-- The rule after a motion. -/
def rule (r : Rule) : Rule :=
  { r with move := σ.move r.move }

/-- The ruleset after a motion. -/
def ruleset (r : Ruleset) : Ruleset :=
  { r with rules := r.rules.map σ.rule }

/-- The configuration after a motion. -/
def configuration (c : Configuration) : Configuration :=
  ⟨c.head.map σ.position, c.state, σ.tape c.tape⟩

/-- What a step leads to, after a motion. -/
def result (s : StepResult) : StepResult :=
  ⟨s.proceed, σ.configuration s.configuration⟩

/-- The machine after a motion. -/
def machine (m : Machine) : Machine :=
  ⟨σ.ruleset m.ruleset, m.tapeSize, σ.configuration m.configuration, m.stepsTaken⟩

/-- What a run leaves, after a motion. -/
def run (r : Run) : Run :=
  ⟨σ.machine r.machine, r.history.map σ.tape, r.fault⟩

/-! ## Positions and tapes -/

theorem natCast_cell_emod
    (i : Int) {n : Nat} (hn : 0 < n) :
    (Tape.cell i n : Int) % n = i % n := by
  have hpos : (0 : Int) < n := Int.natCast_pos.mpr hn
  rw [Tape.cell, Int.toNat_of_nonneg (Int.emod_nonneg i hpos.ne'), Int.emod_emod]

theorem cell_natCast
    {j n : Nat} (hj : j < n) :
    Tape.cell j n = j := by
  rw [Tape.cell, Int.emod_eq_of_lt] <;> omega

/-- Tapes of one length are the same if the cell of every position holds the same. -/
theorem eq_of_forall_cell
    {t t' : Tape} {n : Nat} (ht : t.length = n) (ht' : t'.length = n)
    (h : 0 < n → ∀ i : Int, t[Tape.cell i n]? = t'[Tape.cell i n]?) :
    t = t' := by
  refine List.ext_getElem? fun j => ?_
  by_cases hj : j < n
  · have hcells := h (Nat.zero_lt_of_lt hj) j
    rwa [cell_natCast hj] at hcells
  · rw [List.getElem?_eq_none (ht.trans_le (Nat.le_of_not_lt hj)),
      List.getElem?_eq_none (ht'.trans_le (Nat.le_of_not_lt hj))]

@[simp] theorem source_position
    (i : Int) :
    σ.source (σ.position i) = i := by
  unfold source position
  split <;> omega

@[simp] theorem position_source
    (i : Int) :
    σ.position (σ.source i) = i := by
  unfold source position
  split <;> omega

theorem position_add_offset
    (i : Int) (d : Direction) :
    σ.position (i + d.offset) = σ.position i + (σ.direction d).offset := by
  unfold position direction
  cases σ.turns <;> cases d <;> simp [Direction.opposite, Direction.offset] <;> omega

theorem position_emod_eq_iff
    {i j : Int} (n : Int) :
    σ.position i % n = σ.position j % n ↔ i % n = j % n := by
  rw [Int.emod_eq_emod_iff_emod_sub_eq_zero, Int.emod_eq_emod_iff_emod_sub_eq_zero,
    ← Int.dvd_iff_emod_eq_zero, ← Int.dvd_iff_emod_eq_zero]
  have hsub : σ.position i - σ.position j = if σ.turns then -(i - j) else i - j := by
    unfold position
    split <;> omega
  rw [hsub]
  split
  · exact Int.dvd_neg
  · exact Iff.rfl

theorem cell_position_eq_iff
    {i j : Int} {n : Nat} (hn : 0 < n) :
    Tape.cell (σ.position i) n = Tape.cell (σ.position j) n ↔ Tape.cell i n = Tape.cell j n := by
  rw [Tape.cell_eq_iff hn, Tape.cell_eq_iff hn, σ.position_emod_eq_iff]

@[simp] theorem length_tape
    (t : Tape) :
    (σ.tape t).length = t.length :=
  List.length_ofFn

/-- The cell of a position, on the tape after a motion, holds what the cell of the source held. -/
theorem getElem?_tape
    (t : Tape) (i : Int) :
    (σ.tape t)[Tape.cell i t.length]? = t[Tape.cell (σ.source i) t.length]? := by
  rcases Nat.eq_zero_or_pos t.length with hzero | hpos
  · rw [List.getElem?_eq_none, List.getElem?_eq_none]
    · omega
    · rw [σ.length_tape]
      omega
  · have hsource :
        Tape.cell (σ.source (Tape.cell i t.length : Nat)) t.length =
          Tape.cell (σ.source i) t.length := by
      rw [← σ.cell_position_eq_iff hpos, σ.position_source, σ.position_source,
        Tape.cell_eq_iff hpos]
      exact natCast_cell_emod i hpos
    rw [tape, List.getElem?_ofFn, dif_pos (Tape.cell_lt i hpos), ← hsource]
    exact (List.getElem?_eq_getElem _).symm

theorem getElem?_tape_position
    (t : Tape) (i : Int) :
    (σ.tape t)[Tape.cell (σ.position i) t.length]? = t[Tape.cell i t.length]? := by
  rw [σ.getElem?_tape, σ.source_position]

/-- A written cell comes to lie where its position does. -/
theorem tape_set
    (t : Tape) (i : Int) (symbol : Symbol) :
    σ.tape (t.set (Tape.cell i t.length) symbol) =
      (σ.tape t).set (Tape.cell (σ.position i) t.length) symbol := by
  have hlength : (t.set (Tape.cell i t.length) symbol).length = t.length := List.length_set
  refine eq_of_forall_cell (n := t.length) (by simp) (by simp) fun hpos j => ?_
  -- what lies at `j` comes from the position `k`
  obtain ⟨k, rfl⟩ : ∃ k, j = σ.position k := ⟨σ.source j, (σ.position_source j).symm⟩
  have hmoved := σ.getElem?_tape_position (t.set (Tape.cell i t.length) symbol) k
  rw [hlength] at hmoved
  rw [hmoved, List.getElem?_set, List.getElem?_set, σ.getElem?_tape_position, σ.length_tape]
  simp only [σ.cell_position_eq_iff hpos, Tape.cell_lt _ hpos]

/-- A rotation by whole turns leaves the tape as it is. -/
theorem tape_rotation_mul
    (t : Tape) (turns : Int) :
    (rotation (turns * t.length)).tape t = t := by
  refine eq_of_forall_cell (n := t.length) (by simp) rfl fun hpos i => ?_
  rw [getElem?_tape]
  congr 1
  rw [Tape.cell_eq_iff hpos]
  exact Int.sub_mul_emod_self_right i turns t.length

/-! ## Rules -/

theorem findRule_ruleset
    (r : Ruleset) (state : State) (symbol : Symbol) :
    (σ.ruleset r).findRule state symbol = (r.findRule state symbol).map σ.rule := by
  rw [Ruleset.findRule, Ruleset.findRule, ruleset, List.find?_map]
  rfl

theorem ruleset_rotation
    (shift : Int) (r : Ruleset) :
    (rotation shift).ruleset r = r := by
  have hrule : (rotation shift).rule = id := by
    funext rule
    rw [Motion.rule]
    cases hmove : rule.move <;> simp [move, direction, rotation, ← hmove]
  rw [ruleset, hrule, List.map_id]

/-! ## Steps -/

/-- A step from the moved configuration is the moved step. -/
theorem transition_machine
    (m : Machine) {c : Configuration} (hc : c.tape.length = m.tapeSize) :
    (σ.machine m).transition (σ.configuration c) = σ.result <$> m.transition c := by
  obtain ⟨head, state, tape⟩ := c
  have hlength : tape.length = m.tapeSize := hc
  match head, state with
  | none, _ => rfl
  | some head, none => rfl
  | some head, some state =>
      have hcell := σ.getElem?_tape_position tape head
      rw [hlength] at hcell
      have hset := σ.tape_set tape head
      rw [hlength] at hset
      simp only [Machine.transition, configuration, Option.map_some]
      change (if m.ruleset.isTerminal (some state) then _ else _) = _
      by_cases hterminal : m.ruleset.isTerminal (some state) = true
      · rw [if_pos hterminal, if_pos hterminal]
        rfl
      · rw [if_neg hterminal, if_neg hterminal]
        simp only [machine, hcell, findRule_ruleset]
        cases tape[Tape.cell head m.tapeSize]? with
        | none => rfl
        | some symbol =>
            dsimp only
            cases m.ruleset.findRule (some state) symbol with
            | none => rfl
            | some found =>
                obtain ⟨_, next, _, written, move⟩ := found
                cases move with
                | undefined code => rfl
                | toward d =>
                    change _ = Except.ok (StepResult.mk true
                      ⟨some (σ.position (head + d.offset)), next, σ.tape (tape.set _ written)⟩)
                    rw [σ.position_add_offset, hset]
                    rfl

/-- A step of the moved machine is the moved step of the machine. -/
theorem step_machine
    {m : Machine} (h : m.tape.length = m.tapeSize) :
    (σ.machine m).step = m.step.map σ.machine id := by
  have htransition := σ.transition_machine m h
  change (σ.machine m).transition (σ.machine m).configuration = _ at htransition
  rw [Machine.step, Machine.step, htransition]
  cases m.transition m.configuration with
  | error fault => rfl
  | ok result => rfl

theorem next_machine
    {m : Machine} (h : m.tape.length = m.tapeSize) :
    (σ.machine m).next = σ.machine m.next := by
  rw [Machine.next, Machine.next, σ.step_machine h, Prod.map_fst]

/-- After any number of steps the moved machine is where the machine is, moved. -/
theorem after_machine
    {m : Machine} (h : m.OnRing) (count : Nat) :
    (σ.machine m).after count = σ.machine (m.after count) := by
  induction count with
  | zero => rfl
  | succ count ih =>
      rw [Machine.after_succ', Machine.after_succ', ih,
        σ.next_machine (h.after count).1.length_tape]

/-! ## Runs -/

theorem halted_machine
    (m : Machine) :
    (σ.machine m).halted = m.halted := by
  rw [Bool.eq_iff_iff, Machine.halted_iff, Machine.halted_iff]
  exact or_congr_left Option.map_eq_none_iff

theorem runSteps_machine
    {m : Machine} (h : m.OnRing) (limit : Nat) :
    (σ.machine m).runSteps limit = σ.run (m.runSteps limit) := by
  induction limit generalizing m with
  | zero => rfl
  | succ limit ih =>
      have hnext := h.next.1
      rw [Machine.next] at hnext
      rw [Machine.runSteps, Machine.runSteps, σ.halted_machine, σ.step_machine h.length_tape]
      by_cases hhalted : m.halted = true
      · rw [if_pos hhalted, if_pos hhalted]
        rfl
      · rw [if_neg hhalted, if_neg hhalted]
        rcases hstep : m.step with ⟨next, fault | proceed⟩
        · rfl
        · rw [hstep] at hnext
          change Run.mk _ _ _ = _
          rw [ih hnext]
          rfl

theorem mem_iff_exists_cell
    {t : Tape} {symbol : Symbol} :
    symbol ∈ t ↔ ∃ i : Int, t[Tape.cell i t.length]? = some symbol := by
  rw [List.mem_iff_getElem?]
  constructor
  · rintro ⟨j, hj⟩
    have hlt : j < t.length := (List.getElem?_eq_some_iff.mp hj).1
    refine ⟨j, ?_⟩
    rwa [cell_natCast hlt]
  · rintro ⟨i, hi⟩
    exact ⟨_, hi⟩

theorem mem_tape
    {t : Tape} {symbol : Symbol} :
    symbol ∈ σ.tape t ↔ symbol ∈ t := by
  rw [mem_iff_exists_cell, mem_iff_exists_cell, σ.length_tape]
  constructor
  · rintro ⟨i, hi⟩
    exact ⟨σ.source i, by rwa [← σ.getElem?_tape]⟩
  · rintro ⟨i, hi⟩
    exact ⟨σ.position i, by rwa [σ.getElem?_tape_position]⟩

theorem states_machine
    (m : Machine) :
    (σ.machine m).states = m.states := by
  have hstates : (σ.machine m).ruleset.rules.map (·.nextState) =
      m.ruleset.rules.map (·.nextState) := List.map_map
  rw [Machine.states, Machine.states, hstates]
  rfl

theorem length_symbols_machine
    (m : Machine) :
    (σ.machine m).symbols.length = m.symbols.length := by
  have hvalues : (σ.machine m).ruleset.rules.map (·.nextValue) =
      m.ruleset.rules.map (·.nextValue) := List.map_map
  rw [Machine.symbols, Machine.symbols, hvalues, ← Machine.card_toFinset_eq_length_eraseDups,
    ← Machine.card_toFinset_eq_length_eraseDups]
  congr 1
  ext symbol
  have hmem : symbol ∈ (σ.machine m).tape ↔ symbol ∈ m.tape := σ.mem_tape
  simp [hmem]

/-- The step limit of a run does not change, as the states and symbols are as many as before. -/
theorem stepLimit_machine
    (m : Machine) (budget : Budget) :
    (σ.machine m).stepLimit budget = m.stepLimit budget := by
  cases budget with
  | steps count => rfl
  | unlimited =>
      rw [Machine.stepLimit, Machine.stepLimit, Machine.configurationBound,
        Machine.configurationBound, σ.states_machine, σ.length_symbols_machine]
      rfl

theorem run_machine
    {m : Machine} (h : m.OnRing) (budget : Budget) :
    (σ.machine m).run budget = σ.run (m.run budget) := by
  rw [Machine.run, Machine.run, σ.stepLimit_machine, σ.runSteps_machine h]

end Motion

namespace Machine

open Motion (rotation mirror)

/-- The machine in the given configuration. -/
def standing (m : Machine) (c : Configuration) : Machine :=
  { m with configuration := c }

/-- From the moved configuration the other machine does what the machine does from the
configuration, up to the motion. -/
structure MovesAlong (σ : Motion) (m other : Machine) (c : Configuration) : Prop where
  transition : other.transition (σ.configuration c) = σ.result <$> m.transition c
  after : ∀ count, (other.standing (σ.configuration c)).after count =
    σ.machine ((m.standing c).after count)
  step : ∀ count, ((other.standing (σ.configuration c)).after count).step =
    ((m.standing c).after count).step.map σ.machine id
  run : ∀ budget, (other.standing (σ.configuration c)).run budget =
    σ.run ((m.standing c).run budget)

theorem movesAlong_machine
    (σ : Motion) {m : Machine} (hsize : 0 < m.tapeSize) {c : Configuration}
    (hc : c.tape.length = m.tapeSize) :
    MovesAlong σ m (σ.machine m) c := by
  have hring : (m.standing c).OnRing := ⟨hsize, hc⟩
  refine ⟨σ.transition_machine m hc, σ.after_machine hring, fun count => ?_, σ.run_machine hring⟩
  have hafter := σ.after_machine hring count
  change ((σ.machine m).standing (σ.configuration c)).after count = _ at hafter
  rw [hafter, σ.step_machine (hring.after count).1.length_tape]

theorem movesAlong_rotation
    (shift : Int) {m : Machine} (hsize : 0 < m.tapeSize) {c : Configuration}
    (hc : c.tape.length = m.tapeSize) :
    MovesAlong (rotation shift) m m c := by
  have hmachine : (rotation shift).machine m =
      m.standing ((rotation shift).configuration m.configuration) := by
    rw [Motion.machine, Motion.ruleset_rotation]
    rfl
  have hmoves := movesAlong_machine (rotation shift) hsize hc
  rw [hmachine] at hmoves
  exact ⟨hmoves.transition, hmoves.after, hmoves.step, hmoves.run⟩

/-- The ring has no seam: a machine does the same from a rotated configuration, and a rotation by
whole turns moves the head only.  It has no preferred side either: with left and right exchanged in
all rules a machine does the same from a mirrored configuration. -/
theorem movesAlong_rotation_and_mirror
    {m : Machine} (hsize : 0 < m.tapeSize) {c : Configuration}
    (hc : c.tape.length = m.tapeSize) :
    (∀ shift, MovesAlong (rotation shift) m m c) ∧
      (∀ shift i, ((rotation shift).tape c.tape)[Tape.cell (i + shift) m.tapeSize]? =
        c.tape[Tape.cell i m.tapeSize]?) ∧
      (∀ turns : Int, (rotation (turns * m.tapeSize)).tape c.tape = c.tape) ∧
      MovesAlong mirror m (mirror.machine m) c ∧
      ∀ i, (mirror.tape c.tape)[Tape.cell (-i) m.tapeSize]? = c.tape[Tape.cell i m.tapeSize]? := by
  refine ⟨fun shift => movesAlong_rotation shift hsize hc, fun shift i => ?_, fun turns => ?_,
    movesAlong_machine mirror hsize hc, fun i => ?_⟩
  · rw [← hc]
    exact (rotation shift).getElem?_tape_position c.tape i
  · rw [← hc]
    exact Motion.tape_rotation_mul c.tape turns
  · have hcell := mirror.getElem?_tape_position c.tape i
    rw [hc] at hcell
    rw [← hcell, Motion.position]
    simp [mirror]

/-- From the last of three cells, named by a negative position, the head goes over the seam. -/
theorem movesAlong_over_the_seam :
    let r : Ruleset := ⟨[⟨some "a", some "b", none, some "z", .toward .right⟩], some "a",
      .ofNames [], none, 3⟩
    let m := start r 3
    let c : Configuration := ⟨some (-4), some "a", [some "x", some "y", none]⟩
    0 < m.tapeSize ∧ c.tape.length = m.tapeSize ∧
      m.transition c = .ok ⟨true, ⟨some (-3), some "b", [some "x", some "y", some "z"]⟩⟩ ∧
      (rotation 2).configuration c = ⟨some (-2), some "a", [some "y", none, some "x"]⟩ ∧
      MovesAlong (rotation 2) m m c ∧
      mirror.configuration c = ⟨some 4, some "a", [some "x", none, some "y"]⟩ ∧
      MovesAlong mirror m (mirror.machine m) c := by
  intro r m c
  obtain ⟨hrotation, -, -, hmirror, -⟩ :=
    movesAlong_rotation_and_mirror (m := m) (c := c) (by decide) rfl
  exact ⟨by decide, rfl, by decide, by decide, hrotation 2, by decide, hmirror⟩

end Machine

end RingTape
