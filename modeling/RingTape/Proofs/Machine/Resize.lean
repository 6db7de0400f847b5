import RingTape.Demonstration
import RingTape.Proofs.Machine.Step
import Mathlib.Algebra.Order.Group.Int
import Mathlib.Algebra.Order.Group.Unbundled.Int
import Mathlib.Algebra.Order.Group.Abs

/-!
# Rings of different sizes

The size of a ring shows only where the head gets all the way around.  While the head positions stay
within a stretch that is shorter than the ring, each of them has a cell of its own, and a write from
one of them changes none of the others.  Two machines of one ruleset, on rings that are both longer
than the stretch, then make the same steps, if they start on tapes that look the same from every
position: blank tapes, and tapes that repeat a single symbol.
-/

namespace RingTape

namespace Machine

/-- What stands in the cell that a head position names. -/
def cellAt (m : Machine) (position : Int) : Option Symbol :=
  m.tape[Tape.cell position m.tapeSize]?

/-- What a step tells: whether it has followed a rule, or the fault that it cannot be made. -/
def outcome (m : Machine) : Except StepFault Bool :=
  m.step.2

/-- A machine that has not halted has its head position between `low` and `high`. -/
def Within (m : Machine) (low high : Int) : Prop :=
  m.halted = false → ∀ head ∈ m.head, low ≤ head ∧ head ≤ high

instance (m : Machine) (low high : Int) : Decidable (m.Within low high) :=
  inferInstanceAs (Decidable (m.halted = false → ∀ head ∈ m.head, low ≤ head ∧ head ≤ high))

/-- Two machines of one ruleset that differ at most in the size of the ring and in the cells that no
position between `low` and `high` names. -/
structure Alike (low high : Int) (m other : Machine) : Prop where
  ruleset : m.ruleset = other.ruleset
  head : m.head = other.head
  state : m.state = other.state
  stepsTaken : m.stepsTaken = other.stepsTaken
  cells : ∀ i, low ≤ i → i ≤ high → m.cellAt i = other.cellAt i

/-! ## Positions and cells -/

theorem eq_of_cell_eq
    {i j : Int} {size : Nat} (hsize : 0 < size) (hij : |i - j| < size)
    (h : Tape.cell i size = Tape.cell j size) :
    i = j := by
  rw [Tape.cell_eq_iff hsize, Int.emod_eq_emod_iff_emod_sub_eq_zero] at h
  exact sub_eq_zero.mp (Int.eq_zero_of_abs_lt_dvd (Int.dvd_of_emod_eq_zero h) hij)

theorem rule?_of_head
    {m : Machine} {head : Int} (h : m.head = some head) :
    m.rule? = if m.ruleset.isTerminal m.state then none
      else (m.cellAt head).bind (m.ruleset.findRule m.state) := by
  rw [rule?, h]
  cases m.state <;> rfl

/-- A rule that is followed writes to the cell of its own position, and to that of no other one that
is nearer than the ring is long. -/
theorem OnRing.cellAt_follow
    {m : Machine} (h : m.OnRing) {head i : Int} (hnear : |i - head| < m.tapeSize)
    (rule : Rule) (direction : Direction) :
    (m.follow head rule direction).cellAt i =
      if i = head then some rule.nextValue else m.cellAt i := by
  change (m.tape.set (Tape.cell head m.tapeSize) rule.nextValue)[Tape.cell i m.tapeSize]? = _
  by_cases hi : i = head
  · have hcell : Tape.cell i m.tapeSize < m.tape.length :=
      lt_of_lt_of_eq (Tape.cell_lt i h.size_pos) h.length_tape.symm
    subst hi
    rw [if_pos rfl, List.getElem?_set_self hcell]
  · have hne : Tape.cell head m.tapeSize ≠ Tape.cell i m.tapeSize :=
      fun hcell => hi (eq_of_cell_eq h.size_pos hnear hcell.symm)
    rw [if_neg hi, List.getElem?_set_ne hne]
    rfl

/-- A pattern of at most one symbol puts the same into all cells. -/
theorem tile_eq_replicate
    {pattern : List Symbol} (h : pattern.length ≤ 1) (size : Nat) :
    Tape.tile size pattern = List.replicate size (pattern.head?.getD none) := by
  match pattern, h with
  | [], _ => rfl
  | [symbol], _ => simp [Tape.tile, Nat.mod_one]

theorem cellAt_start
    {r : Ruleset} (hfiller : (r.filler.getD []).length ≤ 1) {n : Nat} (hn : 0 < n) (i : Int) :
    (start r n).cellAt i = some ((r.filler.getD []).head?.getD none) := by
  change (Tape.tile n (r.filler.getD []))[Tape.cell i n]? = _
  rw [tile_eq_replicate hfiller, List.getElem?_replicate_of_lt (Tape.cell_lt i hn)]

/-! ## Steps -/

namespace Alike

variable {low high : Int} {m other : Machine}

theorem rule?_eq
    (h : Alike low high m other) (hwithin : m.Within low high) :
    m.rule? = other.rule? := by
  by_cases hhalted : m.halted = true
  · have hhalted' : other.halted = true := by
      rw [halted_iff] at hhalted ⊢
      rwa [← h.head, ← h.state]
    rw [rule?_of_halted hhalted, rule?_of_halted hhalted']
  · have hhead : m.head ≠ none := fun hnone => hhalted (m.halted_iff.mpr (.inl hnone))
    obtain ⟨head, hhead⟩ := Option.ne_none_iff_exists'.mp hhead
    obtain ⟨hlow, hhigh⟩ := hwithin (by simpa using hhalted) head hhead
    rw [rule?_of_head hhead, rule?_of_head (h.head ▸ hhead), h.ruleset, h.state,
      h.cells head hlow hhigh]

theorem follow
    (h : Alike low high m other) (hm : m.OnRing) (hother : other.OnRing)
    (hshort : high - low < m.tapeSize) (hshort' : high - low < other.tapeSize)
    {head : Int} (hlow : low ≤ head) (hhigh : head ≤ high) (rule : Rule) (direction : Direction) :
    Alike low high (m.follow head rule direction) (other.follow head rule direction) := by
  refine ⟨h.ruleset, rfl, rfl, congrArg (· + 1) h.stepsTaken, fun i hi hi' => ?_⟩
  -- both positions lie in the stretch, so that no other position of it names the written cell
  have hnear : |i - head| ≤ high - low := by
    rw [abs_le]
    omega
  rw [hm.cellAt_follow (hnear.trans_lt hshort), hother.cellAt_follow (hnear.trans_lt hshort'),
    h.cells i hi hi']

/-- Machines that are alike on a stretch make the same step from within it, and are alike on it
afterwards. -/
theorem next
    (h : Alike low high m other) (hm : m.OnRing) (hother : other.OnRing)
    (hshort : high - low < m.tapeSize) (hshort' : high - low < other.tapeSize)
    (hwithin : m.Within low high) :
    m.outcome = other.outcome ∧ Alike low high m.next other.next := by
  have hrules := h.rule?_eq hwithin
  rw [outcome, outcome, Machine.next, Machine.next]
  rcases hm.step_cases with ⟨hrule, hstep⟩ | ⟨head, rule, hhead, hrule, -, hstep⟩
  · rw [hstep, hother.step_of_rule?_eq_none (hrules ▸ hrule)]
    exact ⟨rfl, h.ruleset, rfl, rfl, h.stepsTaken, h.cells⟩
  · rw [hstep, hother.step_of_rule?_eq_some (h.head ▸ hhead) (hrules ▸ hrule)]
    have hrunning : m.halted = false := not_halted_of_rule?_ne_none (by simp [hrule])
    obtain ⟨hlow, hhigh⟩ := hwithin hrunning head hhead
    cases rule.move with
    | toward direction =>
        exact ⟨rfl, h.follow hm hother hshort hshort' hlow hhigh rule direction⟩
    | undefined code => exact ⟨rfl, h⟩

/-- Machines that are alike on a stretch stay so, as long as one of them stays within it. -/
theorem after
    (h : Alike low high m other) (hm : m.OnRing) (hother : other.OnRing)
    (hshort : high - low < m.tapeSize) (hshort' : high - low < other.tapeSize)
    {count : Nat} (hwithin : ∀ i < count, (m.after i).Within low high) :
    (∀ i < count, (m.after i).outcome = (other.after i).outcome) ∧
      ∀ i ≤ count, Alike low high (m.after i) (other.after i) := by
  have hstep : ∀ i < count, Alike low high (m.after i) (other.after i) →
      (m.after i).outcome = (other.after i).outcome ∧
        Alike low high (m.after (i + 1)) (other.after (i + 1)) := by
    intro i hi hi'
    obtain ⟨hring, hsize⟩ := hm.after i
    obtain ⟨hring', hsize'⟩ := hother.after i
    rw [after_succ', after_succ']
    exact hi'.next hring hring' (hsize.symm ▸ hshort) (hsize'.symm ▸ hshort') (hwithin i hi)
  have halike : ∀ i ≤ count, Alike low high (m.after i) (other.after i) := by
    intro i
    induction i with
    | zero => exact fun _ => h
    | succ i ih => exact fun hi => (hstep i hi (ih (Nat.le_of_succ_le hi))).2
  exact ⟨fun i hi => (hstep i hi (halike i hi.le)).1, halike⟩

end Alike

/-- Machines that start one ruleset on rings of different sizes make the same steps, as long as the
least and the greatest position from which one of them tries a step are nearer to each other than
either ring is long.  Any two bounds on these positions will do. -/
theorem alike_after_of_within
    {r : Ruleset} (hfiller : (r.filler.getD []).length ≤ 1) {size size' : Datum}
    {m other : Machine} (hm : create r size = .ok m) (hother : create r size' = .ok other)
    {count : Nat} {low high : Int}
    (hwithin : ∀ i < count, (m.after i).Within low high)
    (hshort : high - low < (min m.tapeSize other.tapeSize : Nat)) :
    (∀ i < count, (m.after i).outcome = (other.after i).outcome) ∧
      ∀ i ≤ count, Alike low high (m.after i) (other.after i) := by
  obtain ⟨n, hn, rfl⟩ := create_eq_ok hm
  obtain ⟨n', hn', rfl⟩ := create_eq_ok hother
  have hpos := size_pos_of_tapeSize hn
  have hpos' := size_pos_of_tapeSize hn'
  have hstart : Alike low high (start r n) (start r n') :=
    ⟨rfl, rfl, rfl, rfl, fun i _ _ => by rw [cellAt_start hfiller hpos, cellAt_start hfiller hpos']⟩
  refine hstart.after (onRing_start r hpos) (onRing_start r hpos') ?_ ?_ hwithin
  · exact hshort.trans_le (Int.ofNat_le.mpr (Nat.min_le_left _ _))
  · exact hshort.trans_le (Int.ofNat_le.mpr (Nat.min_le_right _ _))

/-- The busy beaver goes over fourteen positions, so that it does the same on fourteen cells and on
sixteen. -/
theorem alike_after_of_within_fourteen :
    ∃ r m other,
      (Program.parseText (.int 14) Demonstration.busyBeaver.toList).toOption = some r ∧
      (r.filler.getD []).length ≤ 1 ∧ create r (.int 14) = .ok m ∧ create r (.int 16) = .ok other ∧
      (∀ i < 108, (m.after i).Within (-10) 3) ∧
      (3 : Int) - (-10) < (min m.tapeSize other.tapeSize : Nat) ∧
      (∀ i < 108, (m.after i).outcome = (other.after i).outcome) ∧
      ∀ i ≤ 108, Alike (-10) 3 (m.after i) (other.after i) := by
  let r : Ruleset :=
    ⟨[⟨some "A", some "B", some "0", some "1", .toward .right⟩,
      ⟨some "A", some "B", some "1", some "1", .toward .left⟩,
      ⟨some "B", some "A", some "0", some "1", .toward .left⟩,
      ⟨some "B", some "C", some "1", some "0", .toward .left⟩,
      ⟨some "C", some "H", some "0", some "1", .toward .right⟩,
      ⟨some "C", some "D", some "1", some "1", .toward .left⟩,
      ⟨some "D", some "D", some "0", some "1", .toward .right⟩,
      ⟨some "D", some "A", some "1", some "0", .toward .right⟩],
      some "A", .ofNames ["H"], some [some "0"], 14⟩
  have hm : create r (.int 14) = .ok (start r 14) := create_eq_start r (by decide) (by decide)
  have hother : create r (.int 16) = .ok (start r 16) := create_eq_start r (by decide) (by decide)
  have hwithin : ∀ i < 108, ((start r 14).after i).Within (-10) 3 := by decide +kernel
  have hboth := alike_after_of_within (by decide) hm hother hwithin (by decide)
  exact ⟨r, start r 14, start r 16, by decide +kernel, by decide, hm, hother, hwithin,
    by decide, hboth⟩

end Machine

end RingTape
