import RingTape.Proofs.Machine.Step
import RingTape.Proofs.Program.Legible
import RingTape.Proofs.Table.Lookup
import RingTape.Yaml.Value

/-!
# Tables in the form of lines

A ruleset that is imported from a table can be written out as lines and read back.  Tokens are
checked for this: a text that is accepted keeps its shape between the blanks of a line, alone on a
line, and at the start of a line if it is a state.  The text of the blank symbol is not checked, but
no rule and no cell of the filler holds it.
-/

namespace RingTape

namespace Table

/-! ## Tokens -/

namespace Accepted

variable {kind : TokenKind} {text : String}

theorem isField
    (h : Accepted kind text) :
    IsField (some text) := by
  rintro _ ⟨⟩
  refine ⟨h.ne_empty, ?_, fun c hc => ?_⟩
  · rintro rfl
    exact absurd h.unreserved (by decide)
  · have hundivided := h.undivided
    rw [isDivided, List.any_eq_false] at hundivided
    simpa [and_comm] using hundivided c hc

theorem isName
    (h : Accepted kind text) :
    IsName text :=
  isName_iff.mpr (isField_iff.mp h.isField).isPhrase

theorem not_startsWithMark
    (h : Accepted .state text) :
    ¬ StartsWithMark (some text) := by
  rintro ⟨c, hc, hhead⟩
  have hunmarked := h.unmarked rfl
  rw [toToken] at hhead
  rw [isMarked, hhead, Option.any_some, List.contains_eq_mem, decide_eq_false_iff_not] at hunmarked
  exact hunmarked (List.mem_cons_of_mem _ hc)

end Accepted

theorem isField_of_toSymbol
    {blank text : String} {symbol : Symbol} (h : toSymbol blank text = .ok symbol) :
    IsField symbol := by
  unfold toSymbol at h
  split at h
  · cases h
    exact fun _ hname => nomatch hname
  · obtain ⟨name, hname, rfl⟩ := map_eq_ok_iff.mp h
    obtain ⟨rfl, haccepted⟩ := token_eq_ok_iff.mp hname
    exact haccepted.isField

theorem isField_of_rule
    {blank state symbol : String} {value : Datum} {r : Rule} (hstate : Accepted .state state)
    (h : rule blank state value symbol = .ok r) :
    ∀ s ∈ r.names, IsField s := by
  obtain ⟨t, current, written, -, hnext, hcurrent, hwritten, rfl⟩ := rule_parts h
  simp only [Rule.names, List.forall_mem_cons]
  exact ⟨hstate.isField, hnext.isField, isField_of_toSymbol hcurrent,
    isField_of_toSymbol hwritten, by simp⟩

/-! ## Rulesets -/

namespace Imported

variable {size : Nat} {document : Datum} {r : Ruleset}

theorem accepted_of_mem_named
    (h : Imported size document r) {name : String} (hname : name ∈ r.terminalStates.named) :
    Accepted .state name := by
  have hterminal : r.isTerminal (some name) = true := decide_eq_true hname
  obtain ⟨entry, hentry, rfl, -⟩ := (h.isTerminal_iff name).mp hterminal
  obtain ⟨declarations, hdeclared, -⟩ := h.declared
  obtain ⟨d, -, hdeclaration⟩ := exists_of_mem_left hdeclared hentry
  exact (declaration_eq_ok hdeclaration).1

/-- An imported ruleset tells all of itself in its lines. -/
theorem legible
    (h : Imported size document r) (hsize : 0 < size) :
    r.Legible where
  halt := by
    obtain ⟨declarations, -, -, hterminals⟩ := h.declared
    rw [hterminals]
    rfl
  terminals := fun _ hname => (h.accepted_of_mem_named hname).isName
  initial := by
    rw [h.initialState]
    rintro _ ⟨⟩
    exact h.start.isName
  fallback := by
    rw [h.initialState]
    exact nofun
  filler := by
    intro pattern hpattern
    -- an input without characters still leaves the blanks of the whole ring
    obtain ⟨hlength, hcells⟩ := h.filler pattern hpattern
    refine ⟨List.ne_nil_of_length_pos (hlength ▸ hsize), fun symbol hsymbol => ?_⟩
    obtain ⟨text, htext⟩ := hcells symbol hsymbol
    exact isField_of_toSymbol htext
  fields := by
    intro made hmade
    obtain ⟨state, value, symbol, haccepted, hrule⟩ := h.exists_rule hmade
    exact isField_of_rule haccepted hrule
  unmarked := by
    intro made hmade
    obtain ⟨state, value, symbol, haccepted, hrule⟩ := h.exists_rule hmade
    rw [(eq_of_rule hrule).2.1]
    exact haccepted.not_startsWithMark

end Imported

theorem parse_print_of_ofDatum
    {size : Datum} {n : Nat} {document : Datum} {r : Ruleset} (hsize : tapeSize size = .ok n)
    (h : ofDatum n document = .ok r) :
    ∃ printed, r.print = some printed ∧ Program.parse size printed = .ok r := by
  have himported := imported_of_ofDatum h
  have hlegible := himported.legible (Machine.size_pos_of_tapeSize hsize)
  exact hlegible.parse_print himported.directed (himported.tapeSize ▸ hsize)

/-- A ruleset that is imported from a document, or from the text of one, has lines and is read back
from them. -/
theorem parse_print_of_import
    {size : Datum} {r : Ruleset} :
    (∀ n document, tapeSize size = .ok n → ofDatum n document = .ok r →
        ∃ printed, r.print = some printed ∧ Program.parse size printed = .ok r) ∧
      ∀ (loader : Yaml.Loader) (text : List Char), parse loader size text = .ok r →
        ∃ printed, r.print = some printed ∧ Program.parse size printed = .ok r := by
  refine ⟨fun n document => parse_print_of_ofDatum, fun loader text h => ?_⟩
  unfold parse at h
  split at h
  · cases h
  · next n hsize =>
      split at h
      · cases h
      · next document _ => exact parse_print_of_ofDatum hsize h

/-- The document and the text have a group, a blank symbol that is no token, a state that is kept
and a terminal state. -/
theorem parse_print_of_import_of_group :
    let r : Ruleset :=
      ⟨[⟨some "go", some "go", some "x", some "x", .toward .right⟩,
        ⟨some "go", some "go", some "y", some "y", .toward .right⟩,
        ⟨some "go", some "at!", none, some "x", .toward .left⟩],
        some "go", .ofNames ["at!"], some [some "x", some "y", none], 3⟩
    (∃ document, ofDatum 3 document = .ok r ∧
        ∃ printed, r.print = some printed ∧ Program.parse (.int 3) printed = .ok r) ∧
      ∃ text, parse Yaml.load (.int 3) text = .ok r ∧
        ∃ printed, r.print = some printed ∧ Program.parse (.int 3) printed = .ok r := by
  intro r
  have hdocument : ofDatum 3 (.mapping 0 [(.text "input", .text "xy"), (.text "table", .mapping 1
      [(.text "go", .mapping 2 [(.text "[x,y]", .text "R"),
        (.text " ", .mapping 3 [(.text "write", .text "x"), (.text "L", .text "at!")])]),
      (.text "at!", .null)])]) = .ok r := rfl
  have htext : parse Yaml.load (.int 3) ("blank: '*'\ninput: xy\ntable:\n  go:\n" ++
      "    [x,y]: R\n    '*':\n      write: x\n      L: at!\n  at!:\n").toList = .ok r :=
    toOption_eq_some_iff.mp (by decide +kernel)
  exact ⟨⟨_, hdocument, parse_print_of_import.1 3 _ rfl hdocument⟩,
    ⟨_, htext, parse_print_of_import.2 _ _ htext⟩⟩

end Table

end RingTape
