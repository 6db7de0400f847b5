import RingTape.Proofs.Machine.Recurrence

/-!
# Runs as iterated steps

A run stops after the least number of steps at which the machine has halted or the limit is reached.
It leaves the machine after so many steps, and its history holds the tapes before each of them.  A
run without a budget stops because the machine has halted, if the machine ever halts.
-/

namespace RingTape

/-- So many steps leave some of a budget unused. -/
def Budget.LeavesAfter : Budget → Nat → Prop
  | .steps limit, count => count < limit
  | .unlimited, _ => True

namespace Machine

/-- The tapes before each of the first `count` steps. -/
def tapes (m : Machine) (count : Nat) : List Tape :=
  (List.range count).map fun i => (m.after i).tape

@[simp] theorem length_tapes
    (m : Machine) (count : Nat) :
    (m.tapes count).length = count := by
  simp [tapes]

theorem tapes_succ
    (m : Machine) (count : Nat) :
    m.tapes (count + 1) = m.tapes count ++ [(m.after count).tape] := by
  simp [tapes, List.range_succ]

theorem tapes_succ_eq_cons
    (m : Machine) (count : Nat) :
    m.tapes (count + 1) = m.tape :: m.next.tapes count := by
  simp [tapes, List.range_succ_eq_map, after_succ, Function.comp_def]

/-- Of at most `limit` steps, `count` are made before the machine has halted. -/
structure StopsAt (m : Machine) (limit count : Nat) : Prop where
  le_limit : count ≤ limit
  running : ∀ i < count, (m.after i).halted = false
  stops : count = limit ∨ (m.after count).halted = true

namespace StopsAt

variable {m : Machine} {limit count : Nat}

theorem zero
    (h : limit = 0 ∨ m.halted = true) :
    m.StopsAt limit 0 :=
  ⟨Nat.zero_le _, fun _ hi => absurd hi (Nat.not_lt_zero _), h.imp Eq.symm id⟩

theorem succ
    (hrunning : m.halted = false) (h : m.next.StopsAt limit count) :
    m.StopsAt (limit + 1) (count + 1) := by
  refine ⟨Nat.succ_le_succ h.le_limit, fun i hi => ?_, h.stops.imp (congrArg Nat.succ) ?_⟩
  · cases i with
    | zero => exact hrunning
    | succ i =>
        rw [after_succ]
        exact h.running i (Nat.lt_of_succ_lt_succ hi)
  · intro hhalted
    rw [after_succ]
    exact hhalted

theorem eq_zero_of_halted
    (h : m.StopsAt limit count) (hhalted : m.halted = true) :
    count = 0 := by
  by_contra hne
  have hrunning := h.running 0 (Nat.pos_of_ne_zero hne)
  rw [after_zero, hhalted] at hrunning
  cases hrunning

/-- A machine that is running makes its first step where the limit allows one. -/
theorem of_succ
    (h : m.StopsAt (limit + 1) count) (hrunning : m.halted = false) :
    ∃ rest, count = rest + 1 ∧ m.next.StopsAt limit rest := by
  cases count with
  | zero =>
      rcases h.stops with hzero | hhalted
      · cases hzero
      · rw [after_zero, hrunning] at hhalted
        cases hhalted
  | succ rest =>
      refine ⟨rest, rfl, Nat.le_of_succ_le_succ h.le_limit, fun i hi => ?_, ?_⟩
      · rw [← after_succ]
        exact h.running (i + 1) (Nat.succ_lt_succ hi)
      · rw [← after_succ]
        exact h.stops.imp Nat.succ.inj id

/-- Two runs that stop because the machine has halted stop at the same number of steps. -/
theorem eq_of_halted
    {limit' count' : Nat} (h : m.StopsAt limit count) (h' : m.StopsAt limit' count')
    (hhalted : (m.after count).halted = true) (hhalted' : (m.after count').halted = true) :
    count = count' := by
  rcases Nat.lt_trichotomy count count' with hlt | heq | hlt
  · have hrunning := h'.running count hlt
    rw [hhalted] at hrunning
    cases hrunning
  · exact heq
  · have hrunning := h.running count' hlt
    rw [hhalted'] at hrunning
    cases hrunning

end StopsAt

theorem runSteps_of_halted
    {m : Machine} (h : m.halted = true) (limit : Nat) :
    m.runSteps limit = ⟨m, [], none⟩ := by
  cases limit with
  | zero => rfl
  | succ limit => rw [runSteps, if_pos h]

/-- A run of a sound machine stops at some number of steps, and no step of it fails. -/
theorem Sound.runSteps_eq
    {m : Machine} (h : m.Sound) (limit : Nat) :
    ∃ count, m.StopsAt limit count ∧
      m.runSteps limit = ⟨m.after count, m.tapes count, none⟩ := by
  induction limit generalizing m with
  | zero => exact ⟨0, .zero (.inl rfl), rfl⟩
  | succ limit ih =>
      cases hhalted : m.halted with
      | true => exact ⟨0, .zero (.inr hhalted), runSteps_of_halted hhalted (limit + 1)⟩
      | false =>
          obtain ⟨count, hstops, hrun⟩ := ih h.next
          refine ⟨count + 1, .succ hhalted hstops, ?_⟩
          simp [runSteps, hhalted, h.step_eq, hrun, after_succ, tapes_succ_eq_cons]

/-! ## Budgets -/

/-- A run with the given budget comes to an end. -/
def Ends (m : Machine) : Budget → Prop
  | .steps _ => True
  | .unlimited => ∃ count, (m.after count).halted = true

/-- A run without a budget, of a machine that halts, stops before its limit of steps is reached. -/
theorem Sound.lt_stepLimit_of_unlimited
    {m : Machine} (h : m.Sound) (hends : m.Ends .unlimited) {count : Nat}
    (hstops : m.StopsAt (m.stepLimit .unlimited) count) :
    count < m.stepLimit .unlimited ∧ (m.after count).halted = true := by
  obtain ⟨bound, hbound, hhalted⟩ := h.exists_le_configurationBound hends
  have hle : count ≤ bound := by
    by_contra hlt
    have hrunning := hstops.running bound (Nat.lt_of_not_le hlt)
    rw [hhalted] at hrunning
    cases hrunning
  have hlimit : count < m.stepLimit .unlimited :=
    Nat.lt_succ_of_le (hle.trans hbound)
  refine ⟨hlimit, hstops.stops.resolve_left hlimit.ne⟩

/-- A run without a budget is the run with any budget that the machine halts within. -/
theorem Sound.run_unlimited_eq
    {m : Machine} (h : m.Sound) {limit : Nat}
    (hhalted : (m.run (.steps limit)).machine.halted = true) :
    m.run .unlimited = m.run (.steps limit) := by
  obtain ⟨count, hstops, hrun⟩ := h.runSteps_eq limit
  obtain ⟨count', hstops', hrun'⟩ := h.runSteps_eq (m.stepLimit .unlimited)
  change m.run (.steps limit) = _ at hrun
  change m.run .unlimited = _ at hrun'
  rw [hrun] at hhalted
  have hhalted' := (h.lt_stepLimit_of_unlimited ⟨count, hhalted⟩ hstops').2
  rw [hrun, hrun', hstops.eq_of_halted hstops' hhalted hhalted']

theorem Sound.leavesAfter_iff
    {m : Machine} (h : m.Sound) {budget : Budget} (hends : m.Ends budget) {count : Nat}
    (hstops : m.StopsAt (m.stepLimit budget) count) :
    budget.LeavesAfter count ↔ count < m.stepLimit budget := by
  cases budget with
  | steps limit => exact Iff.rfl
  | unlimited =>
      exact ⟨fun _ => (h.lt_stepLimit_of_unlimited hends hstops).1, fun _ => trivial⟩

end Machine

end RingTape
