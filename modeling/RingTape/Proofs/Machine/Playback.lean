import RingTape.Machine.Playback
import RingTape.Proofs.Machine.Run

/-!
# Playbacks and runs

A run looks whether the machine has halted before it makes a step; a playback goes by whether the
step has followed a rule.  The two part where no step has failed to follow one and the machine has
halted all the same: it was halted from the start, or its last rule led into the halt state.  The
playback then makes one step more, shows the tape once more for it, and gives up the head position.
-/

namespace RingTape

namespace Machine

/-- Each of the first `count` steps follows a rule. -/
def FiresThrough (m : Machine) (count : Nat) : Prop :=
  ∀ i < count, (m.after i).fires = true

/-- After `count` steps within the limit the machine has halted, and no step has told so yet. -/
structure HaltsUntold (m : Machine) (limit count : Nat) : Prop where
  halted : (m.after count).halted = true
  lt_limit : count < limit
  fires : m.FiresThrough count

theorem FiresThrough.succ_iff
    {m : Machine} {count : Nat} :
    m.FiresThrough (count + 1) ↔ m.fires = true ∧ m.next.FiresThrough count := by
  constructor
  · intro h
    refine ⟨h 0 (Nat.succ_pos count), fun i hi => ?_⟩
    rw [← after_succ]
    exact h (i + 1) (Nat.succ_lt_succ hi)
  · rintro ⟨hfires, h⟩ i hi
    cases i with
    | zero => exact hfires
    | succ i =>
        rw [after_succ]
        exact h i (Nat.lt_of_succ_lt_succ hi)

theorem haltsUntold_succ_iff
    {m : Machine} {limit count : Nat} (hfires : m.fires = true) :
    m.HaltsUntold (limit + 1) (count + 1) ↔ m.next.HaltsUntold limit count := by
  constructor
  · rintro ⟨hhalted, hlt, h⟩
    rw [after_succ] at hhalted
    exact ⟨hhalted, Nat.lt_of_succ_lt_succ hlt, (FiresThrough.succ_iff.mp h).2⟩
  · rintro ⟨hhalted, hlt, h⟩
    refine ⟨?_, Nat.succ_lt_succ hlt, FiresThrough.succ_iff.mpr ⟨hfires, h⟩⟩
    rw [after_succ]
    exact hhalted

/-! ## One playback and one run -/

/-- How a playback stands to a run of the same machine that stops at `count` steps. -/
structure Accompanies (m : Machine) (limit count : Nat) (p : Playback) : Prop where
  finished : p.ending = .finished
  told : ¬ m.HaltsUntold limit count → p.machine = m.after count ∧ p.history = m.tapes count
  untold : m.HaltsUntold limit count →
    p.machine = (m.after count).halt ∧ p.history = m.tapes (count + 1)

namespace Accompanies

variable {m : Machine} {limit count : Nat} {p : Playback}

/-- The playback of a machine that has halted before its first step. -/
theorem of_halted
    (hhalted : m.halted = true) (wait : Wait) :
    m.Accompanies (limit + 1) 0 ⟨m.halt, [⟨m.tape, wait⟩], .finished⟩ :=
  ⟨rfl, fun h => absurd ⟨hhalted, Nat.succ_pos limit, fun _ hi => absurd hi (Nat.not_lt_zero _)⟩ h,
    fun _ => ⟨rfl, rfl⟩⟩

/-- The playback of a machine that is running and follows no rule in its first step. -/
theorem of_not_fires
    (hfires : m.fires = false) (hnext : m.next = m.halt) (wait : Wait) :
    m.Accompanies (limit + 1) 1 ⟨m.halt, [⟨m.tape, wait⟩], .finished⟩ := by
  refine ⟨rfl, fun _ => ⟨hnext.symm, rfl⟩, fun h => ?_⟩
  have hfires' := h.fires 0 Nat.one_pos
  rw [after_zero, hfires] at hfires'
  cases hfires'

/-- A first step that follows a rule puts one frame in front of the playback. -/
theorem of_fires
    (hfires : m.fires = true) (h : m.next.Accompanies limit count p) (wait : Wait) :
    m.Accompanies (limit + 1) (count + 1) (.after ⟨m.tape, wait⟩ p) := by
  have hhistory : (Playback.after ⟨m.tape, wait⟩ p).history = m.tape :: p.history := rfl
  refine ⟨h.finished, fun htold => ?_, fun huntold => ?_⟩
  · rw [haltsUntold_succ_iff hfires] at htold
    obtain ⟨hmachine, htapes⟩ := h.told htold
    rw [after_succ, hhistory, htapes, tapes_succ_eq_cons]
    exact ⟨hmachine, rfl⟩
  · rw [haltsUntold_succ_iff hfires] at huntold
    obtain ⟨hmachine, htapes⟩ := h.untold huntold
    rw [after_succ, hhistory, htapes, ← tapes_succ_eq_cons]
    exact ⟨hmachine, rfl⟩

end Accompanies

/-- A playback that awaits no input goes along with the run of the machine. -/
theorem Sound.accompanies_playSteps
    {m : Machine} (h : m.Sound) {wait : Wait} (hwait : wait ≠ .enter) (input : Nat)
    {limit count : Nat} (hstops : m.StopsAt limit count) :
    m.Accompanies limit count (m.playSteps wait limit input) := by
  induction limit generalizing m count with
  | zero =>
      obtain rfl := Nat.le_zero.mp hstops.le_limit
      exact ⟨rfl, fun _ => ⟨rfl, rfl⟩, fun huntold => absurd huntold.lt_limit (Nat.lt_irrefl 0)⟩
  | succ limit ih =>
      cases hhalted : m.halted with
      | true =>
          obtain rfl := hstops.eq_zero_of_halted hhalted
          simp only [playSteps, step_of_halted hhalted]
          exact .of_halted hhalted .none
      | false =>
          obtain ⟨rest, rfl, hrest⟩ := hstops.of_succ hhalted
          cases hfires : m.fires with
          | false =>
              have hnext := h.next_of_not_fires hfires
              have hzero : rest = 0 := by
                apply hrest.eq_zero_of_halted
                rw [hnext]
                exact m.halted_halt
              subst hzero
              simp only [playSteps, h.step_eq, hfires, hnext]
              exact .of_not_fires hfires hnext .none
          | true =>
              have hplay : m.playSteps wait (limit + 1) input =
                  .after ⟨m.tape, wait⟩ (m.next.playSteps wait limit input) := by
                simp only [playSteps, h.step_eq, hfires]
                cases wait with
                | none => rfl
                | sleep milliseconds => rfl
                | enter => exact absurd rfl hwait
              rw [hplay]
              exact .of_fires hfires (ih h.next hrest) wait

/-! ## How a run ends -/

/-- The last of `count` steps follows a rule into the halt state. -/
def LastFiresToHalt (m : Machine) (count : Nat) : Prop :=
  ∃ last rule, count = last + 1 ∧ (m.after last).rule? = some rule ∧ rule.nextState = none

theorem Sound.lastFiresToHalt_of_firesThrough
    {m : Machine} (h : m.Sound) {last : Nat} (hhalted : (m.after (last + 1)).halted = true)
    (hfires : m.FiresThrough (last + 1)) :
    m.LastFiresToHalt (last + 1) := by
  obtain ⟨head, rule, direction, -, hrule, -, -, hnext⟩ :=
    (h.after last).next_of_fires (hfires last (Nat.lt_succ_self last))
  refine ⟨last, rule, rfl, hrule, ?_⟩
  rw [after_succ', hnext, halted_iff] at hhalted
  rcases hhalted with hhead | hstate
  · cases hhead
  · exact hstate

theorem Sound.firesThrough_of_lastFiresToHalt
    {m : Machine} (h : m.Sound) {count : Nat} (hrunning : ∀ i < count, (m.after i).halted = false)
    (hlast : m.LastFiresToHalt count) :
    m.FiresThrough count := by
  obtain ⟨last, rule, rfl, hrule, -⟩ := hlast
  intro i hi
  rcases Nat.lt_succ_iff_lt_or_eq.mp hi with hlt | rfl
  · by_contra hfires
    rw [Bool.not_eq_true] at hfires
    have hhalted := hrunning (i + 1) (Nat.succ_lt_succ hlt)
    rw [after_succ', (h.after i).next_of_not_fires hfires, halted_halt] at hhalted
    cases hhalted
  · rw [(h.after i).fires_iff, hrule]
    simp

/-- A machine that has halted when its run stops, and whose steps have all followed rules, was
halted from the start or has followed a rule into the halt state. -/
theorem Sound.firesThrough_iff
    {m : Machine} (h : m.Sound) {limit count : Nat} (hstops : m.StopsAt limit count)
    (hhalted : (m.after count).halted = true) :
    m.FiresThrough count ↔ m.halted = true ∨ m.LastFiresToHalt count := by
  constructor
  · intro hfires
    cases count with
    | zero => exact .inl hhalted
    | succ last => exact .inr (h.lastFiresToHalt_of_firesThrough hhalted hfires)
  · rintro (hstart | hlast)
    · rw [hstops.eq_zero_of_halted hstart]
      exact fun _ hi => absurd hi (Nat.not_lt_zero _)
    · exact h.firesThrough_of_lastFiresToHalt hstops.running hlast

/-- A run with the given budget leaves a machine that has halted and some of the budget, and no step
of it has told that the machine halts. -/
structure EndsUntold (m : Machine) (budget : Budget) : Prop where
  halted : (m.run budget).machine.halted = true
  leaves : budget.LeavesAfter (m.run budget).history.length
  fires : m.FiresThrough (m.run budget).history.length

/-- A run and a playback of a sound machine, by the number of steps at which the run stops. -/
theorem Sound.exists_accompanies_play
    {m : Machine} (h : m.Sound) {budget : Budget} (hends : m.Ends budget) {pause : Int}
    (hpause : 0 ≤ pause) (input : Nat) :
    ∃ count, m.StopsAt (m.stepLimit budget) count ∧
      m.run budget = ⟨m.after count, m.tapes count, none⟩ ∧
      m.Accompanies (m.stepLimit budget) count (m.play budget pause input) ∧
      (m.EndsUntold budget ↔ m.HaltsUntold (m.stepLimit budget) count) := by
  obtain ⟨count, hstops, hrun⟩ := h.runSteps_eq (m.stepLimit budget)
  change m.run budget = _ at hrun
  have hwait : Wait.ofPause pause ≠ .enter := by
    rw [Wait.ofPause, if_neg (Int.not_lt.mpr hpause)]
    intro hsleep
    cases hsleep
  have hplay : m.Accompanies (m.stepLimit budget) count (m.play budget pause input) := by
    rw [play, m.playLimit_of_ne_enter budget hwait input]
    exact h.accompanies_playSteps hwait input hstops
  refine ⟨count, hstops, hrun, hplay, ?_⟩
  have hleaves := h.leavesAfter_iff hends hstops
  constructor
  · rintro ⟨hhalted, hleft, hfires⟩
    rw [hrun] at hhalted hleft hfires
    rw [length_tapes] at hleft hfires
    exact ⟨hhalted, hleaves.mp hleft, hfires⟩
  · rintro ⟨hhalted, hlt, hfires⟩
    refine ⟨?_, ?_, ?_⟩
    · rw [hrun]
      exact hhalted
    · rw [hrun, length_tapes]
      exact hleaves.mpr hlt
    · rw [hrun, length_tapes]
      exact hfires

/-- What a playback leaves, against what a run of the same machine with the same budget leaves. -/
structure PlaysBack (m : Machine) (budget : Budget) (run : Run) (p : Playback) : Prop where
  /-- No step of either fails. -/
  faultless : run.fault = none ∧ p.ending = .finished
  /-- Without a budget the run goes on until the machine has halted. -/
  halts : budget = .unlimited → run.machine.halted = true
  history : p.history = run.history ∨ p.history = run.history ++ [run.machine.tape]
  /-- The last tape is shown once more where the run has halted untold, and only there. -/
  shows_again : p.history = run.history ++ [run.machine.tape] ↔ m.EndsUntold budget
  /-- The two ways for a run to halt untold. -/
  fires_iff : run.machine.halted = true →
    (m.FiresThrough run.history.length ↔
      m.halted = true ∨ m.LastFiresToHalt run.history.length)
  tape : p.machine.tape = run.machine.tape
  state : p.machine.state = run.machine.state
  halted : p.machine.halted = run.machine.halted
  stepsTaken : p.machine.stepsTaken = run.machine.stepsTaken
  head : ¬ m.EndsUntold budget → p.machine.head = run.machine.head
  head_untold : m.EndsUntold budget → p.machine.head = none

section

variable {m : Machine} {budget : Budget} {limit count : Nat} {p : Playback}

theorem Accompanies.playsBack_of_untold
    (h : m.Accompanies limit count p) (hsound : m.Sound) (hstops : m.StopsAt limit count)
    (huntold : m.HaltsUntold limit count) (hend : m.EndsUntold budget) :
    m.PlaysBack budget ⟨m.after count, m.tapes count, none⟩ p := by
  obtain ⟨hmachine, hhistory⟩ := h.untold huntold
  rw [tapes_succ] at hhistory
  have hstate := (hsound.after count).state_of_halted huntold.halted
  exact {
    faultless := ⟨rfl, h.finished⟩
    halts := fun _ => huntold.halted
    history := .inr hhistory
    shows_again := ⟨fun _ => hend, fun _ => hhistory⟩
    fires_iff := fun hhalted => by rw [length_tapes]; exact hsound.firesThrough_iff hstops hhalted
    tape := by rw [hmachine]; rfl
    state := by rw [hmachine, hstate]; rfl
    halted := by rw [hmachine, halted_halt, huntold.halted]
    stepsTaken := by rw [hmachine]; rfl
    head := fun hnot => absurd hend hnot
    head_untold := fun _ => by rw [hmachine]; rfl }

theorem Accompanies.playsBack_of_told
    (h : m.Accompanies limit count p) (hsound : m.Sound) (hstops : m.StopsAt limit count)
    (htold : ¬ m.HaltsUntold limit count) (hend : ¬ m.EndsUntold budget)
    (hhalts : budget = .unlimited → (m.after count).halted = true) :
    m.PlaysBack budget ⟨m.after count, m.tapes count, none⟩ p := by
  obtain ⟨hmachine, hhistory⟩ := h.told htold
  have hne : p.history ≠ m.tapes count ++ [(m.after count).tape] := by
    rw [hhistory]
    simp
  exact {
    faultless := ⟨rfl, h.finished⟩
    halts := hhalts
    history := .inl hhistory
    shows_again := ⟨fun hmore => absurd hmore hne, fun hnot => absurd hnot hend⟩
    fires_iff := fun hhalted => by rw [length_tapes]; exact hsound.firesThrough_iff hstops hhalted
    tape := by rw [hmachine]
    state := by rw [hmachine]
    halted := by rw [hmachine]
    stepsTaken := by rw [hmachine]
    head := fun _ => by rw [hmachine]
    head_untold := fun hnot => absurd hnot hend }

end

/-- The playback of a machine that can be reached, with waits that end by themselves, and the run of
that machine. -/
theorem Reachable.playsBack_run_play
    {m : Machine} (h : m.Reachable) (hdirected : m.ruleset.Directed) {budget : Budget}
    (hends : m.Ends budget) {pause : Int} (hpause : 0 ≤ pause) (input : Nat) :
    m.PlaysBack budget (m.run budget) (m.play budget pause input) := by
  have hsound := h.sound hdirected
  obtain ⟨count, hstops, hrun, hplay, huntold⟩ := hsound.exists_accompanies_play hends hpause input
  rw [hrun]
  by_cases hend : m.EndsUntold budget
  · exact hplay.playsBack_of_untold hsound hstops (huntold.mp hend) hend
  · refine hplay.playsBack_of_told hsound hstops (mt huntold.mpr hend) hend ?_
    rintro rfl
    exact (hsound.lt_stepLimit_of_unlimited hends hstops).2

/-- A machine whose only rule leads into the halt state. -/
theorem playsBack_of_rule_to_halt :
    let m := start ⟨[⟨some "a", none, none, some "x", .toward .right⟩], some "a", .ofNames [],
      none, 3⟩ 3
    m.Reachable ∧ m.ruleset.Directed ∧ m.Ends .unlimited ∧ (0 : Int) ≤ 0 ∧
      m.PlaysBack .unlimited (m.run .unlimited) (m.play .unlimited 0 0) := by
  intro m
  have hreachable : m.Reachable := reachable_start _ (by decide) (by decide)
  have hdirected : m.ruleset.Directed := by decide
  have hends : m.Ends .unlimited := ⟨1, rfl⟩
  exact ⟨hreachable, hdirected, hends, le_rfl,
    hreachable.playsBack_run_play hdirected hends le_rfl 0⟩

end Machine

end RingTape
