import RingTape.Proofs.Machine.Run
import RingTape.Proofs.Table.Lookup

/-!
# Runs of an imported table

A machine that is imported from a table goes from point to point as the table says.  Between the two
stands one relation, on the head, the state and the cells, which each step carries on to the next
point; where the table stops, the step follows no rule.
-/

namespace RingTape

namespace Table

open TableMachine

/-- The tape that the cells of a point make up. -/
def tapeOf (blank : String) (p : Point) : Tape :=
  p.cells.map (cellSymbol blank)

/-- A machine is at a point of a table whose blank symbol has the given text. -/
structure StandsAt (blank : String) (p : Point) (m : Machine) : Prop where
  head : m.head = some p.head
  state : m.state = some p.state
  tape : m.tape = tapeOf blank p

/-- A run that did what a travel over a table did, from a machine with so many steps taken. -/
structure Mirrors (blank : String) (travel : Travel) (taken : Nat) (run : Run) : Prop where
  fault : run.fault = none
  history : run.history = travel.points.map (tapeOf blank)
  tape : run.machine.tape = tapeOf blank travel.last
  running : travel.stopped = false →
    run.machine.head = some travel.last.head ∧ run.machine.state = some travel.last.state
  stopped : travel.stopped = true → run.machine.head = none ∧ run.machine.state = none
  stepsTaken : run.machine.stepsTaken = taken + travel.moves

theorem StandsAt.not_halted
    {blank : String} {p : Point} {m : Machine} (h : StandsAt blank p m) :
    m.halted = false := by
  rw [← Bool.not_eq_true, m.halted_iff, h.head, h.state]
  simp

section

variable {size : Nat} {document : Datum} {p : Point} {m : Machine}

/-- The rule that a machine follows at a point is the one for what the table says there. -/
theorem StandsAt.rule?_eq
    (h : StandsAt (TableMachine.ofDatum document).blank p m) (hsound : m.Sound)
    (himported : Imported size document m.ruleset)
    (hdistinct : (TableMachine.ofDatum document).Distinct) :
    m.rule? = p.cells[Tape.cell p.head p.cells.length]?.bind fun symbol =>
      ((TableMachine.ofDatum document).lookUp p.state symbol).map
        (actionRule (TableMachine.ofDatum document).blank p.state symbol) := by
  have hsize : m.tapeSize = p.cells.length := by
    rw [← hsound.length_tape, h.tape, tapeOf, List.length_map]
  rw [Machine.rule?, h.head, h.state, h.tape, hsize, tapeOf]
  dsimp only
  rw [List.getElem?_map]
  cases hcell : p.cells[Tape.cell p.head p.cells.length]? with
  | none =>
      rw [Option.map_none]
      exact ite_self none
  | some symbol =>
      rw [Option.map_some, Option.bind_some, Option.bind_some,
        himported.findRule_eq hdistinct]
      split
      · next hterminal =>
          rw [himported.lookUp_of_isTerminal hdistinct hterminal]
          rfl
      · rfl

theorem StandsAt.fires_eq
    (h : StandsAt (TableMachine.ofDatum document).blank p m) (hsound : m.Sound)
    (himported : Imported size document m.ruleset)
    (hdistinct : (TableMachine.ofDatum document).Distinct) :
    m.fires = ((TableMachine.ofDatum document).move p).isSome := by
  rw [Bool.eq_iff_iff, hsound.fires_iff, h.rule?_eq hsound himported hdistinct, move]
  cases p.cells[Tape.cell p.head p.cells.length]? with
  | none => simp
  | some symbol => simp [Option.isSome_iff_ne_none]

/-- A step from a point leads to the point that the table says. -/
theorem StandsAt.next
    (h : StandsAt (TableMachine.ofDatum document).blank p m) (hsound : m.Sound)
    (himported : Imported size document m.ruleset)
    (hdistinct : (TableMachine.ofDatum document).Distinct) {q : Point}
    (hmove : (TableMachine.ofDatum document).move p = some q) :
    StandsAt (TableMachine.ofDatum document).blank q m.next ∧
      m.next.ruleset = m.ruleset ∧ m.next.stepsTaken = m.stepsTaken + 1 := by
  have hfires := h.fires_eq hsound himported hdistinct
  rw [hmove] at hfires
  obtain ⟨head, rule, direction, hhead, hrule, -, hdirection, hnext⟩ := hsound.next_of_fires hfires
  have hsize : m.tapeSize = p.cells.length := by
    rw [← hsound.length_tape, h.tape, tapeOf, List.length_map]
  rw [h.rule?_eq hsound himported hdistinct] at hrule
  obtain ⟨symbol, hsymbol, haction⟩ := Option.bind_eq_some_iff.mp hrule
  obtain ⟨action, hlookUp, rfl⟩ := Option.map_eq_some_iff.mp haction
  rw [move, hsymbol, Option.bind_some, hlookUp, Option.map_some, Option.some.injEq] at hmove
  subst hmove
  obtain rfl : p.head = head := Option.some.inj (h.head.symm.trans hhead)
  obtain rfl : action.direction = direction := Move.toward.inj hdirection
  rw [hnext]
  refine ⟨⟨rfl, rfl, ?_⟩, rfl, rfl⟩
  change m.tape.set _ _ = _
  rw [h.tape, hsize, tapeOf, tapeOf, List.map_set]
  rfl

/-- A run from a point does what the table does from there. -/
theorem StandsAt.mirrors_runSteps
    (h : StandsAt (TableMachine.ofDatum document).blank p m) (hsound : m.Sound)
    (himported : Imported size document m.ruleset)
    (hdistinct : (TableMachine.ofDatum document).Distinct) (limit : Nat) :
    Mirrors (TableMachine.ofDatum document).blank
      ((TableMachine.ofDatum document).travel limit p) m.stepsTaken (m.runSteps limit) := by
  induction limit generalizing p m with
  | zero =>
      refine ⟨rfl, rfl, h.tape, fun _ => ⟨h.head, h.state⟩, fun hstopped => ?_, rfl⟩
      cases hstopped
  | succ limit ih =>
      have hrun : m.runSteps (limit + 1) =
          { m.next.runSteps limit with history := m.tape :: (m.next.runSteps limit).history } := by
        rw [Machine.runSteps, h.not_halted, hsound.step_eq]
        rfl
      have hfires := h.fires_eq hsound himported hdistinct
      rw [hrun, travel]
      cases hmove : (TableMachine.ofDatum document).move p with
      | none =>
          rw [hmove] at hfires
          rw [hsound.next_of_not_fires hfires, Machine.runSteps_of_halted m.halted_halt, h.tape]
          refine ⟨rfl, rfl, h.tape, fun hrunning => ?_, fun _ => ⟨rfl, rfl⟩, rfl⟩
          cases hrunning
      | some q =>
          obtain ⟨hq, hruleset, htaken⟩ := h.next hsound himported hdistinct hmove
          have hrest := ih hq hsound.next (hruleset ▸ himported)
          refine ⟨hrest.fault, ?_, hrest.tape, hrest.running, hrest.stopped, ?_⟩
          · rw [hrest.history, h.tape]
            rfl
          · rw [hrest.stepsTaken, htaken]
            exact Nat.add_right_comm _ _ _

end

theorem standsAt_of_ofRuleset
    {size : Nat} {document : Datum} {r : Ruleset} (h : Imported size document r) {m : Machine}
    (hm : Machine.ofRuleset r = .ok m) :
    m.Sound ∧ m.ruleset = r ∧ m.stepsTaken = 0 ∧
      StandsAt (TableMachine.ofDatum document).blank ((TableMachine.ofDatum document).origin size)
        m := by
  obtain ⟨n, hn, rfl⟩ := Machine.create_eq_ok hm
  have hpos := Machine.size_pos_of_tapeSize hn
  have hsize : n = size := by
    rw [h.tapeSize] at hn
    exact Machine.eq_of_tapeSize hn
  subst hsize
  exact ⟨Machine.sound_start h.directed hpos, rfl, rfl, rfl, h.initialState, h.initialTape⟩

/-- A machine that is imported from a table runs as the table says, for any number of steps, and
without a limit where the table stops. -/
theorem mirrors_run_travel
    {size : Nat} {document : Datum} {r : Ruleset} (h : ofDatum size document = .ok r)
    (hdistinct : (TableMachine.ofDatum document).Distinct) {m : Machine}
    (hm : Machine.ofRuleset r = .ok m) (limit : Nat) :
    let t := TableMachine.ofDatum document
    Mirrors t.blank (t.travel limit (t.origin size)) 0 (m.run (.steps limit)) ∧
      ((t.travel limit (t.origin size)).stopped = true →
        m.run .unlimited = m.run (.steps limit)) := by
  intro t
  have himported := imported_of_ofDatum h
  obtain ⟨hsound, rfl, htaken, hstands⟩ := standsAt_of_ofRuleset himported hm
  have hmirrors := hstands.mirrors_runSteps hsound himported hdistinct limit
  rw [htaken] at hmirrors
  refine ⟨hmirrors, fun hstopped => hsound.run_unlimited_eq ?_⟩
  exact (Machine.halted_iff _).mpr (.inl (hmirrors.stopped hstopped).1)

/-- A table with a group, a blank that is written over, a state that is kept and one that is
terminal. -/
theorem mirrors_run_travel_of_group :
    ∃ document r m, ofDatum 3 document = .ok r ∧ (TableMachine.ofDatum document).Distinct ∧
      Machine.ofRuleset r = .ok m ∧
      Mirrors (TableMachine.ofDatum document).blank ((TableMachine.ofDatum document).travel 9
        ((TableMachine.ofDatum document).origin 3)) 0 (m.run (.steps 9)) := by
  let r : Ruleset :=
    ⟨[⟨some "a", some "a", some "0", some "0", .toward .right⟩,
      ⟨some "a", some "a", some "1", some "1", .toward .right⟩,
      ⟨some "a", some "b", none, some "1", .toward .left⟩], some "a", .ofNames ["b"],
      some [some "0", some "1", none], 3⟩
  have hm : Machine.ofRuleset r = .ok (Machine.start r 3) :=
    Machine.create_eq_start r (by decide) (by decide)
  refine ⟨.mapping 0 [(.text "input", .text "01"), (.text "table", .mapping 1
    [(.text "a", .mapping 2 [(.text "[0,1]", .text "R"),
      (.text " ", .mapping 3 [(.text "write", .int 1), (.text "L", .text "b")])]),
    (.text "b", .null)])], r, Machine.start r 3, rfl, by decide, hm, ?_⟩
  exact (mirrors_run_travel rfl (by decide) hm 9).1

end Table

end RingTape
