import RingTape.Proofs.Machine.Step
import RingTape.Proofs.Table.Import
import RingTape.Yaml.Value

/-!
# The tape that a machine starts on

The filler of a ruleset goes round on the tape that its machines start on, from the first cell on,
whether it is shorter than the tape, as long or longer.  So the tape on a small ring is the start of
the tape on a larger one.  A table fills the whole tape that it is imported for: what goes round
there once is its input with blanks behind it.
-/

namespace RingTape

namespace Table

/-- The tape of a machine holds the input of a document once, and blanks behind it. -/
structure HoldsInput (document : Datum) (m : Machine) : Prop where
  fits : (TableMachine.ofDatum document).input.length ≤ m.tapeSize
  tape_eq : m.tape =
    (TableMachine.ofDatum document).input.map (cellSymbol (TableMachine.ofDatum document).blank) ++
      List.replicate (m.tapeSize - (TableMachine.ofDatum document).input.length) none

namespace Imported

variable {size : Nat} {document : Datum} {r : Ruleset}

theorem holdsInput_start
    (h : Imported size document r) :
    HoldsInput document (Machine.start r size) := by
  have htape : Machine.initialTape r size =
      (TableMachine.ofDatum document).input.map
          (cellSymbol (TableMachine.ofDatum document).blank) ++
        List.replicate (size - (TableMachine.ofDatum document).input.length) none := by
    rw [h.initialTape, TableMachine.origin, List.map_append, List.map_replicate, cellSymbol,
      if_pos rfl]
  refine ⟨?_, htape⟩
  -- blanks are only added, so that the input cannot be longer than the whole
  have hlength := congrArg List.length htape
  rw [Machine.length_initialTape, List.length_append, List.length_map] at hlength
  exact Nat.le.intro hlength.symm

/-- A filler that is as long as the ring needs one copy there, so that its ruleset has a machine. -/
theorem ofRuleset_eq
    (h : Imported size document r) (hsize : 0 < size) (hfiller : r.filler ≠ none) :
    Machine.ofRuleset r = .ok (Machine.start r size) := by
  obtain ⟨pattern, hpattern⟩ := Option.ne_none_iff_exists'.mp hfiller
  have hlength : (r.filler.getD []).length = size := by
    rw [hpattern]
    exact (h.filler pattern hpattern).1
  rw [Machine.ofRuleset, h.tapeSize]
  apply Machine.create_eq_start_of_copies r hsize
  rw [hlength, Nat.max_eq_right hsize, Nat.div_self hsize]
  decide

end Imported

theorem exists_ofRuleset_of_hasInput
    {n : Nat} {document : Datum} {r : Ruleset} (hn : 0 < n) (h : ofDatum n document = .ok r)
    (hinput : HasInput document) :
    ∃ m, Machine.ofRuleset r = .ok m := by
  have himported := imported_of_ofDatum h
  have hne : r.filler ≠ none := fun hnone => (filler_eq_none_iff h).mp hnone hinput
  exact ⟨Machine.start r n, himported.ofRuleset_eq hn hne⟩

theorem holdsInput_of_ofRuleset
    {n : Nat} {document : Datum} {r : Ruleset} (h : ofDatum n document = .ok r) {m : Machine}
    (hm : Machine.ofRuleset r = .ok m) :
    m.tapeSize = n ∧ HoldsInput document m := by
  have himported := imported_of_ofDatum h
  obtain ⟨own, hown, rfl⟩ := Machine.create_eq_ok hm
  rw [himported.tapeSize] at hown
  obtain rfl := Machine.eq_of_tapeSize hown
  exact ⟨rfl, himported.holdsInput_start⟩

end Table

namespace Machine

theorem repeats_initialTape
    (r : Ruleset) (size : Nat) :
    Tape.Repeats (r.filler.getD []) size (initialTape r size) :=
  Tape.repeats_tile size (r.filler.getD [])

/-- The filler of a ruleset goes round on its tape of every size, and the tape of one size is the
start of the tape of a larger one.  These are the tapes that its machines start on, and there is a
machine of every size for which the copies of the filler, or the cells without one, can be counted.
If the ruleset is imported from a table, its tape of its own size holds the input of the table, and
where there is an input there is a machine of that size. -/
theorem filler_goes_round
    (r : Ruleset) :
    (∀ n, Tape.Repeats (r.filler.getD []) n (initialTape r n)) ∧
      (∀ n larger, n ≤ larger → initialTape r n <+: initialTape r larger) ∧
      (∀ size m, create r size = .ok m →
        RingTape.tapeSize size = .ok m.tapeSize ∧ m.tape = initialTape r m.tapeSize) ∧
      (∀ n, 0 < n → n / max 1 (r.filler.getD []).length ≤ maxCells →
        ∃ m, create r (.int n) = .ok m) ∧
      ∀ (loader : Yaml.Loader) size text document,
        loader (Table.quoteGroups text) = .ok document → Table.parse loader size text = .ok r →
        (Table.HasInput document → ∃ m, ofRuleset r = .ok m) ∧
          ∀ m, ofRuleset r = .ok m →
            RingTape.tapeSize size = .ok m.tapeSize ∧ Table.HoldsInput document m := by
  refine ⟨repeats_initialTape r, ?shorter, ?started, ?created, ?imported⟩
  case shorter =>
    intro n larger hle
    exact (repeats_initialTape r n).isPrefix (repeats_initialTape r larger) hle
  case started =>
    intro size m hm
    obtain ⟨n, hn, rfl⟩ := create_eq_ok hm
    exact ⟨hn, rfl⟩
  case created =>
    intro n hn hcopies
    exact ⟨start r n, create_eq_start_of_copies r hn hcopies⟩
  case imported =>
    intro loader size text document hload hparse
    obtain ⟨n, hsize, hdocument⟩ := Table.ofDatum_of_parse hload hparse
    refine ⟨Table.exists_ofRuleset_of_hasInput (size_pos_of_tapeSize hsize) hdocument, ?_⟩
    intro m hm
    obtain ⟨rfl, hholds⟩ := Table.holdsInput_of_ofRuleset hdocument hm
    exact ⟨hsize, hholds⟩

/-- The filler is the input of a table for five cells, whose second symbol is the blank one.  It is
longer than a ring of three cells, and does not go into one of twelve. -/
theorem filler_goes_round_on_three_and_twelve_cells :
    let text := "input: a_b\nblank: _\ntable:\n s:\n  a: R\n".toList
    let pattern : List Symbol := [some "a", none, some "b", none, none]
    let r : Ruleset := ⟨[⟨some "s", some "s", some "a", some "a", .toward .right⟩], some "s",
      .ofNames [], some pattern, 5⟩
    ∃ document small own large,
      Yaml.load (Table.quoteGroups text) = .ok document ∧
      Table.parse Yaml.load (.int 5) text = .ok r ∧
      Table.HasInput document ∧ (TableMachine.ofDatum document).input = ["a", "_", "b"] ∧
      ofRuleset r = .ok own ∧ own.tapeSize = 5 ∧ Table.HoldsInput document own ∧
      create r (.int 3) = .ok small ∧ small.tapeSize = 3 ∧
      create r (.int 12) = .ok large ∧ large.tapeSize = 12 ∧
      Tape.Repeats pattern 12 large.tape ∧ small.tape <+: large.tape := by
  intro text pattern r
  have hparse : Table.parse Yaml.load (.int 5) text = .ok r :=
    toOption_eq_some_iff.mp (by decide +kernel)
  have hdocument : ((Yaml.load (Table.quoteGroups text)).toOption.any fun document =>
      decide (Table.HasInput document ∧ (TableMachine.ofDatum document).input = ["a", "_", "b"])) =
        true := by
    decide +kernel
  obtain ⟨document, hload, hdecided⟩ := (Option.any_eq_true _ _).mp hdocument
  rw [toOption_eq_some_iff] at hload
  obtain ⟨hinput, hsymbols⟩ := of_decide_eq_true hdecided
  obtain ⟨hrepeats, hprefix, hstarted, hcreated, himported⟩ := filler_goes_round r
  obtain ⟨hexists, hholds⟩ := himported Yaml.load (.int 5) text document hload hparse
  obtain ⟨own, hown⟩ := hexists hinput
  obtain ⟨hownSize, hownHolds⟩ := hholds own hown
  obtain ⟨small, hsmall⟩ := hcreated 3 (by decide) (by decide)
  obtain ⟨large, hlarge⟩ := hcreated 12 (by decide) (by decide)
  obtain ⟨hsmallSize, hsmallTape⟩ := hstarted (.int 3) small hsmall
  obtain ⟨hlargeSize, hlargeTape⟩ := hstarted (.int 12) large hlarge
  have hthree : small.tapeSize = 3 := eq_of_tapeSize hsmallSize
  have htwelve : large.tapeSize = 12 := eq_of_tapeSize hlargeSize
  rw [hthree] at hsmallTape
  rw [htwelve] at hlargeTape
  refine ⟨document, small, own, large, hload, hparse, hinput, hsymbols, hown,
    eq_of_tapeSize hownSize, hownHolds, hsmall, hthree, hlarge, htwelve, ?_, ?_⟩
  · rw [hlargeTape]
    exact hrepeats 12
  · rw [hsmallTape, hlargeTape]
    exact hprefix 3 12 (by decide)

end Machine

end RingTape
