import RingTape.Proofs.Machine.History
import Mathlib.Data.ENat.Lattice
import Mathlib.Data.Set.Card

/-!
# Playbacks that await lines

A playback with a negative pause asks for a line of input after each step that follows a rule, after
the last step of its budget as well.  It reads as many lines as rules are followed if the input has
them.  If it has fewer, the playback ends one step after its last line, with a prompt that nothing
answers.  Here the loop is a relation of its own, on the text of the input and without any bound on
its steps.
-/

namespace RingTape

/-! ## Lines of input -/

/-- The input after its first line, if there is one.  The last line may lack its end. -/
def afterLine? : List Char → Option (List Char)
  | [] => none
  | c :: rest => some (if c = '\n' then rest else (afterLine? rest).getD [])

/-- The input after a number of lines. -/
def dropLines : Nat → List Char → List Char
  | 0, input => input
  | count + 1, input => dropLines count ((afterLine? input).getD [])

theorem inputLines_cons_cons
    (c d : Char) (rest : List Char) :
    inputLines (c :: d :: rest) = inputLines (d :: rest) + if c = '\n' then 1 else 0 := by
  have hcount : (c :: d :: rest).count '\n' =
      (d :: rest).count '\n' + if c = '\n' then 1 else 0 := by
    simp [List.count_cons (a := '\n') (b := c)]
  obtain ⟨last, hlast⟩ : ∃ last, (d :: rest).getLast? = some last :=
    ⟨_, List.getLast?_eq_some_getLast (List.cons_ne_nil d rest)⟩
  have hlast' : (c :: d :: rest).getLast? = some last := List.getLast?_cons_cons.trans hlast
  simp only [inputLines, hcount, hlast, hlast']
  split
  · cases ‹some last = none›
  · rfl
  · omega

theorem inputLines_singleton
    (c : Char) :
    inputLines [c] = 1 := by
  by_cases hc : c = '\n'
  · rw [hc]
    rfl
  · simp [inputLines, hc]

/-- To read a line leaves the input with one line less. -/
theorem inputLines_of_afterLine?
    {input rest : List Char} (h : afterLine? input = some rest) :
    inputLines input = inputLines rest + 1 := by
  induction input generalizing rest with
  | nil => cases h
  | cons c input ih =>
      obtain rfl := Option.some.inj h
      cases input with
      | nil =>
          rw [inputLines_singleton]
          split <;> rfl
      | cons d input =>
          rw [inputLines_cons_cons]
          split
          · rfl
          · exact ih rfl

theorem afterLine?_eq_none_iff
    {input : List Char} :
    afterLine? input = none ↔ inputLines input = 0 := by
  cases input with
  | nil => exact iff_of_true rfl rfl
  | cons c input =>
      refine iff_of_false nofun ?_
      rw [inputLines_of_afterLine? rfl]
      exact Nat.succ_ne_zero _

theorem exists_afterLine?
    {input : List Char} {count : Nat} (h : count < inputLines input) :
    ∃ rest, afterLine? input = some rest ∧ count ≤ inputLines rest := by
  cases hrest : afterLine? input with
  | none =>
      rw [afterLine?_eq_none_iff.mp hrest] at h
      cases h
  | some rest =>
      rw [inputLines_of_afterLine? hrest] at h
      exact ⟨rest, rfl, Nat.le_of_lt_succ h⟩

theorem inputLines_dropLines
    {input : List Char} {count : Nat} (h : count ≤ inputLines input) :
    inputLines (dropLines count input) + count = inputLines input := by
  induction count generalizing input with
  | zero => rfl
  | succ count ih =>
      obtain ⟨rest, hrest, hcount⟩ := exists_afterLine? h
      rw [dropLines, hrest, inputLines_of_afterLine? hrest, ← ih hcount]
      rfl

/-! ## The loop -/

/-- What a number of steps leaves of a budget. -/
def Budget.minus : Budget → Nat → Budget
  | .steps limit, count => .steps (limit - count)
  | .unlimited, _ => .unlimited

theorem Budget.leavesAfter_minus
    {budget : Budget} {count i : Nat} :
    (budget.minus count).LeavesAfter i ↔ budget.LeavesAfter (count + i) := by
  cases budget with
  | steps limit =>
      change i < limit - count ↔ count + i < limit
      omega
  | unlimited => exact Iff.rfl

theorem Budget.minus_succ
    (budget : Budget) (count : Nat) :
    (budget.minus 1).minus count = budget.minus (count + 1) := by
  cases budget with
  | steps limit =>
      change Budget.steps (limit - 1 - count) = Budget.steps (limit - (count + 1))
      rw [Nat.sub_sub, Nat.add_comm]
  | unlimited => rfl

theorem Budget.LeavesAfter.mono
    {budget : Budget} {count i : Nat} (h : budget.LeavesAfter count) (hi : i ≤ count) :
    budget.LeavesAfter i := by
  cases budget with
  | steps limit => exact Nat.lt_of_le_of_lt hi h
  | unlimited => trivial

/-- A playback with some frames in front of it. -/
def Playback.afterAll (frames : List Frame) (p : Playback) : Playback :=
  { p with frames := frames ++ p.frames }

namespace Machine

/-- A playback that awaits lines comes to an end.  It has the given budget and input, leaves what
the playback tells, and has not read the rest of the input. -/
inductive Awaits : Machine → Budget → List Char → Playback → List Char → Prop
  | spent {m : Machine} {budget : Budget} {input : List Char} (hbudget : ¬ budget.LeavesAfter 0) :
      Awaits m budget input ⟨m, [], .finished⟩ input
  | fault {m next : Machine} {budget : Budget} {input : List Char} {fault : StepFault}
      (hbudget : budget.LeavesAfter 0) (hstep : m.step = (next, .error fault)) :
      Awaits m budget input ⟨next, [⟨m.tape, .none⟩], .fault fault⟩ input
  | stops {m next : Machine} {budget : Budget} {input : List Char}
      (hbudget : budget.LeavesAfter 0) (hstep : m.step = (next, .ok false)) :
      Awaits m budget input ⟨next, [⟨m.tape, .none⟩], .finished⟩ input
  | endOfInput {m next : Machine} {budget : Budget} {input : List Char}
      (hbudget : budget.LeavesAfter 0) (hstep : m.step = (next, .ok true))
      (hline : afterLine? input = none) :
      Awaits m budget input ⟨next, [⟨m.tape, .enter⟩], .endOfInput⟩ input
  | reads {m next : Machine} {budget : Budget} {input rest left : List Char} {p : Playback}
      (hbudget : budget.LeavesAfter 0) (hstep : m.step = (next, .ok true))
      (hline : afterLine? input = some rest) (hrest : Awaits next (budget.minus 1) rest p left) :
      Awaits m budget input (.after ⟨m.tape, .enter⟩ p) left

/-- A playback that awaits lines goes as far as its limit lets it. -/
theorem Awaits.eq_playSteps
    {m : Machine} {budget : Budget} {input left : List Char} {p : Playback}
    (h : m.Awaits budget input p left) :
    p = m.playSteps .enter (m.playLimit budget .enter (inputLines input)) (inputLines input) := by
  have hlimit {budget : Budget} (hbudget : budget.LeavesAfter 0) (m : Machine) (lines : Nat) :
      ∃ limit, m.playLimit budget .enter lines = limit + 1 ∧ ∀ next : Machine,
        ∀ fewer, lines = fewer + 1 → next.playLimit (budget.minus 1) .enter fewer = limit := by
    cases budget with
    | steps limit =>
        obtain ⟨less, rfl⟩ := Nat.exists_eq_succ_of_ne_zero (Nat.pos_iff_ne_zero.mp hbudget)
        exact ⟨less, rfl, fun _ _ _ => rfl⟩
    | unlimited => exact ⟨lines, rfl, fun _ _ h => h.symm⟩
  induction h with
  | @spent m budget input hbudget =>
      cases budget with
      | steps limit =>
          obtain rfl : limit = 0 := Nat.eq_zero_of_not_pos hbudget
          rfl
      | unlimited => exact absurd trivial hbudget
  | @fault m next budget input fault hbudget hstep =>
      obtain ⟨limit, hlimit, -⟩ := hlimit hbudget m (inputLines input)
      rw [hlimit, playSteps, hstep]
  | @stops m next budget input hbudget hstep =>
      obtain ⟨limit, hlimit, -⟩ := hlimit hbudget m (inputLines input)
      rw [hlimit, playSteps, hstep]
  | @endOfInput m next budget input hbudget hstep hline =>
      obtain ⟨limit, hlimit, -⟩ := hlimit hbudget m (inputLines input)
      rw [hlimit, afterLine?_eq_none_iff.mp hline, playSteps, hstep]
  | @reads m next budget input rest left p hbudget hstep hline _ ih =>
      obtain ⟨limit, hlimit, hnext⟩ := hlimit hbudget m (inputLines input)
      have hlines := inputLines_of_afterLine? hline
      rw [hlimit, hlines, playSteps, hstep, ih, hnext next _ hlines]

theorem Awaits.eq_play
    {m : Machine} {budget : Budget} {input left : List Char} {p : Playback}
    (h : m.Awaits budget input p left) {pause : Int} (hpause : pause < 0) :
    m.play budget pause (inputLines input) = p := by
  rw [play, Wait.ofPause, if_pos hpause]
  exact h.eq_playSteps.symm

/-- The frames of a number of steps.  A line is awaited after each step that follows a rule. -/
def frames (m : Machine) (count : Nat) : List Frame :=
  (List.range count).map fun i => ⟨(m.after i).tape, if (m.after i).fires then .enter else .none⟩

theorem frames_succ
    (m : Machine) (count : Nat) :
    m.frames (count + 1) =
      m.frames count ++ [⟨(m.after count).tape, if (m.after count).fires then .enter else .none⟩] := by
  simp [frames, List.range_succ]

theorem frames_succ_eq_cons
    (m : Machine) (count : Nat) :
    m.frames (count + 1) =
      ⟨m.tape, if m.fires then .enter else .none⟩ :: m.next.frames count := by
  rw [frames, List.range_succ_eq_map, List.map_cons, List.map_map]
  rfl

/-- The lines for the first steps are read where all of these follow rules. -/
theorem Sound.awaits_of_firesThrough
    {m : Machine} (h : m.Sound) {budget : Budget} {input left : List Char} {count : Nat}
    {p : Playback} (hfires : m.FiresThrough count) (hbudget : ∀ i < count, budget.LeavesAfter i)
    (hlines : count ≤ inputLines input)
    (hrest : (m.after count).Awaits (budget.minus count) (dropLines count input) p left) :
    m.Awaits budget input (p.afterAll (m.frames count)) left := by
  induction count generalizing m budget input with
  | zero =>
      have hminus : budget.minus 0 = budget := by cases budget <;> rfl
      rw [hminus] at hrest
      exact hrest
  | succ count ih =>
      obtain ⟨hfirst, hothers⟩ := FiresThrough.succ_iff.mp hfires
      obtain ⟨rest, hline, hcount⟩ := exists_afterLine? hlines
      have hstep : m.step = (m.next, .ok true) := hfirst ▸ h.step_eq
      rw [after_succ, ← Budget.minus_succ, dropLines, hline] at hrest
      have hleaves : ∀ i < count, (budget.minus 1).LeavesAfter i := fun i hi =>
        Budget.leavesAfter_minus.mpr (Nat.add_comm 1 i ▸ hbudget (i + 1) (Nat.succ_lt_succ hi))
      rw [frames_succ_eq_cons, hfirst]
      exact .reads (hbudget 0 (Nat.succ_pos count)) hstep hline
        (ih h.next hothers hleaves hcount hrest)

/-! ## How many steps follow rules -/

instance (m : Machine) (count : Nat) : Decidable (m.FiresThrough count) :=
  inferInstanceAs (Decidable (∀ i < count, (m.after i).fires = true))

/-- How many steps of a playback follow rules if its input never ends.  There may be no end of
them. -/
noncomputable def firings (m : Machine) (budget : Budget) : ℕ∞ :=
  {i | budget.LeavesAfter i ∧ m.FiresThrough (i + 1)}.encard

theorem coe_lt_encard_iff
    {s : Set Nat} (hs : IsLowerSet s) {i : Nat} :
    (i : ℕ∞) < s.encard ↔ i ∈ s := by
  constructor
  · intro hlt
    by_contra hi
    have hsubset : s ⊆ Finset.range i := by
      intro j hj
      rw [Finset.coe_range, Set.mem_Iio]
      by_contra hle
      exact hi (hs (Nat.le_of_not_lt hle) hj)
    have hcard := Set.encard_le_encard hsubset
    rw [Set.encard_coe_eq_coe_finsetCard, Finset.card_range] at hcard
    exact absurd hlt (not_lt.mpr hcard)
  · intro hi
    have hsubset : (Finset.range (i + 1) : Set Nat) ⊆ s := by
      intro j hj
      rw [Finset.coe_range, Set.mem_Iio] at hj
      exact hs (Nat.le_of_lt_succ hj) hi
    have hcard := Set.encard_le_encard hsubset
    rw [Set.encard_coe_eq_coe_finsetCard, Finset.card_range] at hcard
    exact lt_of_lt_of_le (Nat.cast_lt.mpr (Nat.lt_succ_self i)) hcard

theorem coe_lt_firings_iff
    {m : Machine} {budget : Budget} {i : Nat} :
    (i : ℕ∞) < m.firings budget ↔ budget.LeavesAfter i ∧ m.FiresThrough (i + 1) := by
  refine coe_lt_encard_iff ?_
  rintro j i hi ⟨hbudget, hfires⟩
  exact ⟨Budget.LeavesAfter.mono hbudget hi,
    fun k hk => hfires k (hk.trans_le (Nat.succ_le_succ hi))⟩

/-- A playback shows the tape before each of so many steps, with the prompt after each that follows
a rule, and leaves the machine after them. -/
structure Shows (m : Machine) (steps : Nat) (p : Playback) : Prop where
  machine : p.machine = m.after steps
  history : p.history = m.tapes steps
  text : ∀ blank, p.text blank = String.join ((List.range steps).map fun i =>
    (m.after i).tape.line blank ++ "\n" ++ if (m.after i).fires then Playback.prompt else "")

theorem shows_frames
    (m : Machine) (steps : Nat) (ending : PlaybackEnd) :
    m.Shows steps ⟨m.after steps, m.frames steps, ending⟩ := by
  constructor
  case machine => rfl
  case history => simp [Playback.history, frames, tapes, Function.comp_def]
  case text =>
    intro blank
    simp only [Playback.text, frames, List.map_map]
    congr 1
    refine List.map_congr_left fun i _ => ?_
    simp only [Function.comp_apply, Playback.Frame.text]
    cases (m.after i).fires <;> rfl

/-- A playback on an input that has a line for each of the `fired` steps that follow rules.  One
step more, which follows none, ends it where some of the budget is left. -/
structure Completes (m : Machine) (budget : Budget) (input : List Char) (fired : Nat)
    (p : Playback) : Prop where
  ending : p.ending = .finished
  fires : m.FiresThrough fired
  told : budget.LeavesAfter fired → (m.after fired).fires = false ∧ m.Shows (fired + 1) p
  spent : ¬ budget.LeavesAfter fired → m.Shows fired p
  stepsTaken : p.machine.stepsTaken = m.stepsTaken + fired
  /-- Of the input so many lines are read, and the rest is left. -/
  reads : m.Awaits budget input p (dropLines fired input)
  lines : inputLines (dropLines fired input) + fired = inputLines input

/-- A playback that has read the last of `lines` lines and awaits one more. -/
structure BreaksOff (m : Machine) (budget : Budget) (input : List Char) (lines : Nat)
    (p : Playback) : Prop where
  ending : p.ending = .endOfInput
  fires : m.FiresThrough (lines + 1)
  shows : m.Shows (lines + 1) p
  stepsTaken : p.machine.stepsTaken = m.stepsTaken + (lines + 1)
  reads : m.Awaits budget input p (dropLines lines input)
  empty : inputLines (dropLines lines input) = 0

namespace Sound

variable {m : Machine} {budget : Budget} {input : List Char} {fired : Nat}

theorem stepsTaken_of_firesThrough
    (h : m.Sound) (hfires : m.FiresThrough fired) :
    (m.after fired).stepsTaken = m.stepsTaken + fired := by
  rw [h.stepsTaken_after, answers_of_firesThrough hfires, List.count_replicate_self]

theorem completes_of_spent
    (h : m.Sound) (hfires : m.FiresThrough fired) (hbudget : ∀ i < fired, budget.LeavesAfter i)
    (hspent : ¬ budget.LeavesAfter fired) (hlines : fired ≤ inputLines input) :
    m.Completes budget input fired ⟨m.after fired, m.frames fired, .finished⟩ := by
  have hend : (m.after fired).Awaits (budget.minus fired) (dropLines fired input)
      ⟨m.after fired, [], .finished⟩ (dropLines fired input) :=
    .spent (mt Budget.leavesAfter_minus.mp hspent)
  have hreads := h.awaits_of_firesThrough hfires hbudget hlines hend
  simp only [Playback.afterAll, List.append_nil] at hreads
  exact {
    ending := rfl
    fires := hfires
    told := fun hleaves => absurd hleaves hspent
    spent := fun _ => m.shows_frames fired .finished
    stepsTaken := h.stepsTaken_of_firesThrough hfires
    reads := hreads
    lines := inputLines_dropLines hlines }

theorem completes_of_told
    (h : m.Sound) (hfires : m.FiresThrough fired) (hleaves : budget.LeavesAfter fired)
    (htold : (m.after fired).fires = false) (hlines : fired ≤ inputLines input) :
    m.Completes budget input fired ⟨m.after (fired + 1), m.frames (fired + 1), .finished⟩ := by
  have hstep : (m.after fired).step = (m.after (fired + 1), .ok false) := by
    rw [after_succ', ← htold]
    exact (h.after fired).step_eq
  have hend : Awaits (m.after fired) (budget.minus fired) (dropLines fired input)
      ⟨m.after (fired + 1), [⟨(m.after fired).tape, .none⟩], .finished⟩ (dropLines fired input) :=
    .stops (Budget.leavesAfter_minus.mpr hleaves) hstep
  have hreads := h.awaits_of_firesThrough hfires
    (fun i hi => Budget.LeavesAfter.mono hleaves hi.le) hlines hend
  have hframes : m.frames (fired + 1) = m.frames fired ++ [⟨(m.after fired).tape, .none⟩] := by
    rw [frames_succ, htold]
    rfl
  have htaken : (m.after (fired + 1)).stepsTaken = (m.after fired).stepsTaken := by
    rw [after_succ', (h.after fired).next_of_not_fires htold]
    rfl
  simp only [Playback.afterAll, ← hframes] at hreads
  exact {
    ending := rfl
    fires := hfires
    told := fun _ => ⟨htold, m.shows_frames (fired + 1) .finished⟩
    spent := fun hspent => absurd hleaves hspent
    stepsTaken := htaken.trans (h.stepsTaken_of_firesThrough hfires)
    reads := hreads
    lines := inputLines_dropLines hlines }

theorem breaksOff
    (h : m.Sound) {lines : Nat} (hlines : inputLines input = lines)
    (hfires : m.FiresThrough (lines + 1)) (hleaves : budget.LeavesAfter lines) :
    m.BreaksOff budget input lines
      ⟨m.after (lines + 1), m.frames (lines + 1), .endOfInput⟩ := by
  have hbefore : m.FiresThrough lines := fun i hi => hfires i (Nat.lt_succ_of_lt hi)
  have hlast : (m.after lines).fires = true := hfires lines (Nat.lt_succ_self lines)
  have hstep : (m.after lines).step = (m.after (lines + 1), .ok true) := by
    rw [after_succ', ← hlast]
    exact (h.after lines).step_eq
  have hempty : inputLines (dropLines lines input) = 0 := by
    have hleft := inputLines_dropLines hlines.ge
    omega
  have hend := Awaits.endOfInput (Budget.leavesAfter_minus.mpr hleaves) hstep
    (afterLine?_eq_none_iff.mpr hempty)
  have hreads := h.awaits_of_firesThrough hbefore
    (fun i hi => Budget.LeavesAfter.mono hleaves hi.le) hlines.ge hend
  have hframes : m.frames (lines + 1) = m.frames lines ++ [⟨(m.after lines).tape, .enter⟩] := by
    rw [frames_succ, hlast]
    rfl
  simp only [Playback.afterAll, ← hframes] at hreads
  exact {
    ending := rfl
    fires := hfires
    shows := m.shows_frames (lines + 1) .endOfInput
    stepsTaken := h.stepsTaken_of_firesThrough hfires
    reads := hreads
    empty := hempty }

theorem exists_completes
    (h : m.Sound) (hlines : m.firings budget ≤ inputLines input) {pause : Int}
    (hpause : pause < 0) :
    ∃ fired : Nat, m.firings budget = fired ∧
      m.Completes budget input fired (m.play budget pause (inputLines input)) := by
  obtain ⟨fired, hfired⟩ :=
    ENat.ne_top_iff_exists.mp (ne_top_of_le_ne_top (ENat.natCast_ne_top _) hlines)
  have hwithin : ∀ i < fired, budget.LeavesAfter i ∧ m.FiresThrough (i + 1) := by
    intro i hi
    rw [← coe_lt_firings_iff, ← hfired]
    exact Nat.cast_lt.mpr hi
  have hfires : m.FiresThrough fired := fun i hi => (hwithin i hi).2 i (Nat.lt_succ_self i)
  have hbudget : ∀ i < fired, budget.LeavesAfter i := fun i hi => (hwithin i hi).1
  have hlast : ¬ (budget.LeavesAfter fired ∧ m.FiresThrough (fired + 1)) := by
    rw [← coe_lt_firings_iff, ← hfired]
    exact lt_irrefl _
  rw [← hfired, Nat.cast_le] at hlines
  refine ⟨fired, hfired.symm, ?_⟩
  by_cases hleaves : budget.LeavesAfter fired
  · have htold : (m.after fired).fires = false := by
      by_contra hfires'
      refine hlast ⟨hleaves, fun i hi => ?_⟩
      rcases Nat.lt_succ_iff_lt_or_eq.mp hi with hlt | rfl
      · exact hfires i hlt
      · exact eq_true_of_ne_false hfires'
    have hcompletes := h.completes_of_told hfires hleaves htold hlines
    rw [hcompletes.reads.eq_play hpause]
    exact hcompletes
  · have hcompletes := h.completes_of_spent hfires hbudget hleaves hlines
    rw [hcompletes.reads.eq_play hpause]
    exact hcompletes

theorem breaksOff_play
    (h : m.Sound) (hlines : inputLines input < m.firings budget) {pause : Int}
    (hpause : pause < 0) :
    m.BreaksOff budget input (inputLines input) (m.play budget pause (inputLines input)) := by
  obtain ⟨hleaves, hfires⟩ := coe_lt_firings_iff.mp hlines
  have hbreaks := h.breaksOff rfl hfires hleaves
  rw [hbreaks.reads.eq_play hpause]
  exact hbreaks

/-- With ever more lines a playback comes as near to its number of firings as one likes. -/
theorem isLUB_firings
    (h : m.Sound) (budget : Budget) {pause : Int} (hpause : pause < 0) :
    IsLUB (Set.range fun input : List Char =>
        (((m.play budget pause (inputLines input)).machine.stepsTaken - m.stepsTaken : Nat) : ℕ∞))
      (m.firings budget) := by
  constructor
  · rintro _ ⟨input, rfl⟩
    dsimp only
    rcases le_or_gt (m.firings budget) (inputLines input) with hle | hlt
    · obtain ⟨fired, hfired, hcompletes⟩ := h.exists_completes hle hpause
      rw [hcompletes.stepsTaken, hfired, Nat.add_sub_cancel_left]
    · rw [(h.breaksOff_play hlt hpause).stepsTaken, Nat.add_sub_cancel_left]
      exact Order.add_one_le_of_lt hlt
  · intro bound hbound
    apply ENat.forall_natCast_le_iff_le.mp
    intro count hcount
    have hlines : inputLines (List.replicate count '\n') = count := by
      cases count with
      | zero => rfl
      | succ count => simp [inputLines, List.getLast?_replicate]
    refine le_trans (Nat.cast_le.mpr ?_) (hbound ⟨List.replicate count '\n', rfl⟩)
    rcases le_or_gt (m.firings budget) (inputLines (List.replicate count '\n')) with hle | hlt
    · obtain ⟨fired, hfired, hcompletes⟩ := h.exists_completes hle hpause
      rw [hfired, Nat.cast_le] at hcount
      rw [hcompletes.stepsTaken]
      omega
    · rw [(h.breaksOff_play hlt hpause).stepsTaken, hlines]
      omega

end Sound

/-- A playback that awaits lines, on an input with enough of them and on one with too few.  The
number of its firings is what it comes to on ever longer inputs. -/
theorem Reachable.awaits_lines
    {m : Machine} (h : m.Reachable) (hdirected : m.ruleset.Directed) (budget : Budget)
    {pause : Int} (hpause : pause < 0) :
    (∀ input : List Char, m.firings budget ≤ inputLines input →
      ∃ fired : Nat, m.firings budget = fired ∧
        m.Completes budget input fired (m.play budget pause (inputLines input))) ∧
      (∀ input : List Char, inputLines input < m.firings budget →
        m.BreaksOff budget input (inputLines input) (m.play budget pause (inputLines input))) ∧
      IsLUB (Set.range fun input : List Char =>
          (((m.play budget pause (inputLines input)).machine.stepsTaken - m.stepsTaken : Nat) : ℕ∞))
        (m.firings budget) := by
  have hsound := h.sound hdirected
  exact ⟨fun _ hlines => hsound.exists_completes hlines hpause,
    fun _ hlines => hsound.breaksOff_play hlines hpause, hsound.isLUB_firings budget hpause⟩

/-- Three steps follow rules and a fourth one none.  Three lines are enough for them, the last of
which has no end; with two lines the third step is made, and the prompt after it has no answer. -/
theorem awaits_lines_of_three_firings :
    let m := start ⟨[⟨some "a", some "a", some "p", none, .toward .right⟩], some "a", .ofNames [],
      some [some "p", some "p", some "p", none], 4⟩ 4
    let enough := ['x', '\n', '\n', 'y']
    let short := ['x', '\n', '\n']
    m.Reachable ∧ m.ruleset.Directed ∧ (-1 : Int) < 0 ∧ m.firings .unlimited = 3 ∧
      m.firings .unlimited ≤ inputLines enough ∧
      m.Completes .unlimited enough 3 (m.play .unlimited (-1) (inputLines enough)) ∧
      inputLines short < m.firings .unlimited ∧
      m.BreaksOff .unlimited short 2 (m.play .unlimited (-1) (inputLines short)) := by
  intro m enough short
  have hreachable : m.Reachable := reachable_start _ (by decide) (by decide)
  have hdirected : m.ruleset.Directed := by decide
  have hpause : (-1 : Int) < 0 := by decide
  obtain ⟨hcompletes, hbreaks, -⟩ := hreachable.awaits_lines hdirected .unlimited hpause
  have hfirings : m.firings .unlimited = 3 := by
    have htwo : (2 : Nat) < m.firings .unlimited := coe_lt_firings_iff.mpr ⟨trivial, by decide⟩
    have hthree : ¬ (3 : Nat) < m.firings .unlimited :=
      mt coe_lt_firings_iff.mp fun h => absurd h.2 (by decide)
    exact le_antisymm (not_lt.mp hthree) (Order.add_one_le_of_lt htwo)
  have hle : m.firings .unlimited ≤ inputLines enough := hfirings.le
  have hlt : inputLines short < m.firings .unlimited := by
    rw [hfirings]
    decide
  obtain ⟨fired, hfired, hplayed⟩ := hcompletes enough hle
  obtain rfl : fired = 3 := Nat.cast_injective (hfired.symm.trans hfirings)
  exact ⟨hreachable, hdirected, hpause, hfirings, hle, hplayed, hlt, hbreaks short hlt⟩

end Machine

end RingTape
