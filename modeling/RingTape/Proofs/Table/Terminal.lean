import RingTape.Proofs.Machine.Resize
import RingTape.Proofs.Table.Lookup
import RingTape.Yaml.Value

/-!
# Terminal states of a table

A state is imported as terminal for an entry without transitions, and its rules are imported from
the entries with transitions.  States are known by the texts of their keys, and different keys may
have one text.  Where two such keys have entries of both kinds, the state is terminal and has rules,
and a machine halts there before any of them is tried.  Nothing else can bring this about.
-/

namespace RingTape

/-- No rule is for a state in which the machine halts. -/
def Ruleset.Separated (r : Ruleset) : Prop :=
  ∀ rule ∈ r.rules, r.isTerminal rule.currentState = false

instance (r : Ruleset) : Decidable r.Separated :=
  inferInstanceAs (Decidable (∀ rule ∈ r.rules, r.isTerminal rule.currentState = false))

namespace Table

open TableMachine

/-! ## Where rules come from -/

/-- An entry declares rules for its own state, if the group of one of its ways has a symbol. -/
theorem exists_rule_of_declaration_iff
    {blank : String} {key value : Datum} {d : Declaration}
    (h : declaration blank key value = .ok d) (state : String) :
    (∃ made ∈ d.rules, made.currentState = some state) ↔
      word key = state ∧ ∃ way ∈ value.entries?.getD [], group way.1 ≠ [] := by
  constructor
  · rintro ⟨made, hmade, hstate⟩
    obtain ⟨way, hway, symbol, hsymbol, hrule⟩ := exists_way_of_mem_rules h hmade
    obtain ⟨-, hcurrent, -⟩ := eq_of_rule hrule
    rw [hcurrent] at hstate
    exact ⟨Option.some.inj hstate, way, hway, List.ne_nil_of_mem hsymbol⟩
  · rintro ⟨rfl, way, hway, hgroup⟩
    obtain ⟨-, ⟨hempty, rfl⟩ | ⟨entries, rules, hentries, hrules, rfl⟩⟩ := declaration_eq_ok h
    · rw [entries?_of_isEmpty hempty] at hway
      cases hway
    · rw [hentries, Option.getD_some] at hway
      obtain ⟨rs, hrs, hentry⟩ := exists_of_mem_left hrules hway
      obtain ⟨symbol, hsymbol⟩ := List.exists_mem_of_ne_nil _ hgroup
      obtain ⟨made, hmade, hrule⟩ := exists_of_mem_left (entryRules_eq_ok hentry) hsymbol
      obtain ⟨-, hcurrent, -⟩ := eq_of_rule hrule
      exact ⟨made, List.mem_flatten.mpr ⟨rs, hrs, hmade⟩, hcurrent⟩

namespace Imported

variable {size : Nat} {document : Datum} {r : Ruleset}

/-- The states that rules are imported for are those with an entry with transitions. -/
theorem exists_rule_iff
    (h : Imported size document r) (state : String) :
    (∃ made ∈ r.rules, made.currentState = some state) ↔
      (TableMachine.ofDatum document).Acts state := by
  obtain ⟨declarations, hdeclared, hrules, -⟩ := h.declared
  rw [hrules]
  constructor
  · rintro ⟨made, hmade, hstate⟩
    obtain ⟨d, hd, hmade⟩ := List.mem_flatMap.mp hmade
    obtain ⟨entry, hentry, hdeclaration⟩ := exists_of_mem_right hdeclared hd
    exact ⟨entry, hentry,
      (exists_rule_of_declaration_iff hdeclaration state).mp ⟨made, hmade, hstate⟩⟩
  · rintro ⟨entry, hentry, hacts⟩
    obtain ⟨d, hd, hdeclaration⟩ := exists_of_mem_left hdeclared hentry
    obtain ⟨made, hmade, hstate⟩ :=
      (exists_rule_of_declaration_iff hdeclaration state).mpr hacts
    exact ⟨made, List.mem_flatMap.mpr ⟨d, hd, hmade⟩, hstate⟩

theorem exists_currentState
    (h : Imported size document r) {made : Rule} (hmade : made ∈ r.rules) :
    ∃ state, made.currentState = some state := by
  obtain ⟨state, value, symbol, -, hrule⟩ := h.exists_rule hmade
  exact ⟨state, (eq_of_rule hrule).2.1⟩

/-- Rules and terminal states are kept apart unless a state has entries of both kinds. -/
theorem separated_iff
    (h : Imported size document r) :
    r.Separated ↔ ∀ state, (TableMachine.ofDatum document).Acts state →
      ¬ (TableMachine.ofDatum document).Ends state := by
  constructor
  · intro hseparated state hacts hends
    obtain ⟨made, hmade, hstate⟩ := (h.exists_rule_iff state).mpr hacts
    have hfalse := hseparated made hmade
    rw [hstate, (h.isTerminal_iff state).mpr hends] at hfalse
    cases hfalse
  · intro hapart made hmade
    obtain ⟨state, hstate⟩ := h.exists_currentState hmade
    have hacts := (h.exists_rule_iff state).mp ⟨made, hmade, hstate⟩
    rw [hstate]
    exact eq_false_of_ne_true fun hterminal =>
      hapart state hacts ((h.isTerminal_iff state).mp hterminal)

end Imported

/-- One entry alone is of one kind only. -/
theorem not_ends_of_acts
    {t : TableMachine} (h : t.Distinct) {state : String} (hacts : t.Acts state) :
    ¬ t.Ends state := by
  rintro ⟨ending, hending, hstate, hempty⟩
  obtain ⟨acting, hacting, hstate', way, hway, -⟩ := hacts
  obtain rfl := eq_of_word_eq h hending hacting (hstate.trans hstate'.symm)
  rw [entries?_of_isEmpty hempty] at hway
  cases hway

/-! ## Steps in a state of the table -/

section Steps

variable {size : Nat} {document : Datum} {m : Machine} {head : Int} {state : String}

theorem Imported.step_of_ends
    (h : Imported size document m.ruleset) (hsound : m.Sound) (hhead : m.head = some head)
    (hstate : m.state = some state) (hends : (TableMachine.ofDatum document).Ends state) :
    m.step = (m.halt, .ok false) := by
  apply hsound.onRing.step_of_rule?_eq_none
  rw [Machine.rule?_of_head hhead, hstate, (h.isTerminal_iff state).mpr hends, if_pos rfl]

theorem Imported.fires_of_not_ends
    (h : Imported size document m.ruleset) (hsound : m.Sound) (hhead : m.head = some head)
    (hstate : m.state = some state) (hends : ¬ (TableMachine.ofDatum document).Ends state)
    {symbol : Symbol} (hcell : m.cellAt head = some symbol) :
    m.fires = (m.ruleset.findRule (some state) symbol).isSome := by
  have hterminal : ¬ m.ruleset.isTerminal (some state) = true :=
    fun hterminal => hends ((h.isTerminal_iff state).mp hterminal)
  rw [Bool.eq_iff_iff, hsound.fires_iff, Machine.rule?_of_head hhead, hstate, if_neg hterminal,
    hcell, Option.bind_some, Option.isSome_iff_ne_none]

end Steps

/-- A ruleset that is imported from a document has a rule for a terminal state exactly when two keys
of the table have one text, and one of them has transitions and the other has none.  In such a state
a machine halts before its rules are tried; in every other state it halts only where none of them
applies. -/
theorem separated_and_fires_iff
    {size : Nat} {document : Datum} {r : Ruleset} (h : ofDatum size document = .ok r) :
    let t := TableMachine.ofDatum document
    (r.Separated ↔ ∀ state, t.Acts state → ¬ t.Ends state) ∧
      (t.Distinct → r.Separated) ∧
      ∀ m : Machine, m.Reachable → m.ruleset = r → ∀ head state symbol, m.head = some head →
        m.state = some state → m.cellAt head = some symbol →
        (t.Ends state → m.step = (m.halt, .ok false)) ∧
          (¬ t.Ends state → m.fires = (r.findRule (some state) symbol).isSome) := by
  intro t
  have himported := imported_of_ofDatum h
  refine ⟨himported.separated_iff, fun hdistinct => ?_, ?_⟩
  · rw [himported.separated_iff]
    exact fun state => not_ends_of_acts hdistinct
  · rintro m hreachable rfl head state symbol hhead hstate hcell
    have hsound := hreachable.sound himported.directed
    exact ⟨himported.step_of_ends hsound hhead hstate,
      fun hends => himported.fires_of_not_ends hsound hhead hstate hends hcell⟩

/-- The integer one and the text of it are different keys of one text.  The first step goes to that
state by the rule of another one, and the second step halts where there is a rule. -/
theorem separated_and_fires_iff_of_keys_of_one_text :
    let document : Datum := .mapping 0 [(.text "table", .mapping 1
      [(.int 2, .mapping 2 [(.text " ", .mapping 3 [(.text "R", .int 1)])]),
        (.int 1, .mapping 4 [(.text " ", .text "R")]), (.text "1", .null)])]
    let r : Ruleset := ⟨[⟨some "2", some "1", none, none, .toward .right⟩,
      ⟨some "1", some "1", none, none, .toward .right⟩], some "2", .ofNames ["1"], none, 3⟩
    let first := Machine.start r 3
    ofDatum 3 document = .ok r ∧ first.Reachable ∧ ¬ r.Separated ∧ first.fires = true ∧
      first.next.state = some "1" ∧ (r.findRule (some "1") none).isSome = true ∧
      first.next.step = (first.next.halt, .ok false) := by
  intro document r first
  have hr : ofDatum 3 document = .ok r := rfl
  have hfirst : first.Reachable := Machine.reachable_start r (by decide) (by decide)
  obtain ⟨hseparated, -, hsteps⟩ := separated_and_fires_iff hr
  have hends : (TableMachine.ofDatum document).Ends "1" := by decide
  refine ⟨hr, hfirst, fun hapart => hseparated.mp hapart "1" (by decide) hends, ?_, rfl, by decide,
    ?_⟩
  · have hfires := (hsteps first hfirst rfl 0 "2" none rfl rfl rfl).2 (by decide)
    rw [hfires]
    decide
  · exact (hsteps first.next (hfirst.step rfl) rfl 1 "1" none rfl rfl rfl).1 hends

/-- A table whose keys are the integer one and its text. -/
def oneTwice : String :=
  "table:\n  1:\n    ' ': R\n  '1':\n"

/-- A text may be imported with a rule for a terminal state, and its machine halts where the rule
applies. -/
theorem exists_not_separated :
    ∃ r m, parse Yaml.load (.int 3) oneTwice.toList = .ok r ∧ ¬ r.Separated ∧
      Machine.ofRuleset r = .ok m ∧ m.state = some "1" ∧ m.cellAt 0 = some none ∧
      (r.findRule (some "1") none).isSome = true ∧ m.step = (m.halt, .ok false) := by
  let r : Ruleset := ⟨[⟨some "1", some "1", none, none, .toward .right⟩], some "1",
    .ofNames ["1"], none, 3⟩
  have hr : parse Yaml.load (.int 3) oneTwice.toList = .ok r :=
    toOption_eq_some_iff.mp (by decide +kernel)
  have hm : Machine.ofRuleset r = .ok (Machine.start r 3) :=
    Machine.create_eq_start r (by decide) (by decide)
  exact ⟨r, Machine.start r 3, hr, by decide, hm, rfl, rfl, by decide, by decide⟩

end Table

end RingTape
