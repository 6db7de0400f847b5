import RingTape.Proofs.Table.Import
import Mathlib.Data.List.Nodup

/-!
# Rules and entries

The first rule of an imported ruleset that applies to a state and a symbol comes from the first
entry of that state in the table whose group has the symbol.  That the keys of the table have
different texts matters here: the rules of two entries for one state would be searched as if they
were one.
-/

namespace RingTape

namespace Table

open TableMachine

variable {blank state symbol : String} {value : Datum} {r : Rule}

theorem appliesTo_of_rule
    (h : rule blank state value symbol = .ok r) (read : String) :
    r.appliesTo (some state) (cellSymbol blank read) = decide (symbol = read) := by
  obtain ⟨-, hstate, hvalue, hwild, -⟩ := eq_of_rule h
  rw [Rule.appliesTo, Rule.matchesAnyState, Rule.matchesAnyValue, beq_false_of_ne hwild, hstate,
    hvalue, Bool.false_or, beq_self_eq_true, Bool.or_true, Bool.true_and, Bool.eq_iff_iff,
    beq_iff_eq, decide_eq_true_iff]
  exact (cellSymbol_injective blank).eq_iff

theorem not_appliesTo_of_rule
    (h : rule blank state value symbol = .ok r) (hreserved : isReserved state = false)
    {other : String} (hne : state ≠ other) (read : Symbol) :
    r.appliesTo (some other) read = false := by
  obtain ⟨-, hstate, -⟩ := eq_of_rule h
  have hwild : some state ≠ some wildcard := by
    intro hwild
    rw [Option.some.inj hwild] at hreserved
    exact absurd hreserved (by decide)
  rw [Rule.appliesTo, Rule.matchesAnyState, hstate, beq_false_of_ne hwild,
    beq_false_of_ne (fun heq => hne (Option.some.inj heq)), Bool.false_or, Bool.false_and]

/-! ## One entry -/

theorem find?_entryRules_of_mem
    {symbols : List String} {rules : List Rule}
    (h : List.Forall₂ (fun read r => rule blank state value read = .ok r) symbols rules)
    (hmem : symbol ∈ symbols) :
    ∃ r, (action? state symbol value).map (actionRule blank state symbol) = some r ∧
      rules.find? (·.appliesTo (some state) (cellSymbol blank symbol)) = some r := by
  induction h with
  | nil => cases hmem
  | @cons read r _ _ hr _ ih =>
      by_cases hread : read = symbol
      · subst hread
        refine ⟨r, (eq_of_rule hr).1, List.find?_cons_of_pos ?_⟩
        rw [appliesTo_of_rule hr]
        exact decide_eq_true rfl
      · obtain ⟨found, haction, hfound⟩ := ih ((List.mem_cons.mp hmem).resolve_left (Ne.symm hread))
        refine ⟨found, haction, ?_⟩
        rw [List.find?_cons_of_neg, hfound]
        rw [appliesTo_of_rule hr]
        simpa using hread

theorem find?_entryRules_of_notMem
    {symbols : List String} {rules : List Rule}
    (h : List.Forall₂ (fun read r => rule blank state value read = .ok r) symbols rules)
    (hmem : symbol ∉ symbols) :
    rules.find? (·.appliesTo (some state) (cellSymbol blank symbol)) = none := by
  rw [List.find?_eq_none]
  intro r hr
  obtain ⟨read, hread, hrule⟩ := exists_of_mem_right h hr
  rw [appliesTo_of_rule hrule]
  intro heq
  exact hmem (of_decide_eq_true heq ▸ hread)

/-- The first rule that applies comes from the first entry whose group has the symbol. -/
theorem find?_flatten_entryRules
    {entries : List (Datum × Datum)} {rules : List (List Rule)}
    (h : List.Forall₂ (fun entry rs => entryRules blank state entry.1 entry.2 = .ok rs)
      entries rules)
    (symbol : String) :
    rules.flatten.find? (·.appliesTo (some state) (cellSymbol blank symbol)) =
      ((entries.find? fun entry => (group entry.1).contains symbol).bind fun entry =>
        action? state symbol entry.2).map (actionRule blank state symbol) := by
  induction h with
  | nil => rfl
  | @cons entry rs _ _ hentry _ ih =>
      have hrules := entryRules_eq_ok hentry
      rw [List.flatten_cons, List.find?_append]
      by_cases hmem : symbol ∈ group entry.1
      · obtain ⟨found, haction, hfound⟩ := find?_entryRules_of_mem hrules hmem
        rw [hfound, List.find?_cons_of_pos (by simpa using hmem), Option.bind_some, haction]
        rfl
      · rw [find?_entryRules_of_notMem hrules hmem, Option.none_or, ih,
          List.find?_cons_of_neg (by simpa using hmem)]

/-! ## One declaration -/

/-- Every rule of a declaration is made for a symbol of one of the ways of its entry. -/
theorem exists_way_of_mem_rules
    {key : Datum} {d : Declaration} (h : declaration blank key value = .ok d) {made : Rule}
    (hmade : made ∈ d.rules) :
    ∃ way ∈ value.entries?.getD [], ∃ symbol ∈ group way.1,
      rule blank (word key) way.2 symbol = .ok made := by
  obtain ⟨-, ⟨-, rfl⟩ | ⟨entries, rules, hentries, hrules, rfl⟩⟩ := declaration_eq_ok h
  · cases hmade
  · obtain ⟨rs, hrs, hmade⟩ := List.mem_flatten.mp hmade
    obtain ⟨way, hway, hentry⟩ := exists_of_mem_right hrules hrs
    obtain ⟨symbol, hsymbol, hrule⟩ := exists_of_mem_right (entryRules_eq_ok hentry) hmade
    rw [hentries, Option.getD_some]
    exact ⟨way, hway, symbol, hsymbol, hrule⟩

theorem find?_declaration_of_ne
    {key : Datum} {d : Declaration} (h : declaration blank key value = .ok d)
    (hne : word key ≠ state) (symbol : Symbol) :
    d.rules.find? (·.appliesTo (some state) symbol) = none := by
  obtain ⟨haccepted, -⟩ := declaration_eq_ok h
  rw [List.find?_eq_none]
  intro made hmade
  obtain ⟨way, -, read, -, hrule⟩ := exists_way_of_mem_rules h hmade
  rw [not_appliesTo_of_rule hrule haccepted.unreserved hne]
  exact Bool.false_ne_true

theorem entries?_of_isEmpty
    (h : value.isEmpty = true) :
    value.entries?.getD [] = [] := by
  cases value with
  | mapping label entries =>
      rw [Datum.isEmpty, List.isEmpty_iff] at h
      subst h
      rfl
  | _ => rfl

theorem find?_declaration
    {key : Datum} {d : Declaration} (h : declaration blank key value = .ok d)
    (symbol : String) :
    d.rules.find? (·.appliesTo (some (word key)) (cellSymbol blank symbol)) =
      (((value.entries?.getD []).find? fun entry => (group entry.1).contains symbol).bind
        fun entry => action? (word key) symbol entry.2).map
          (actionRule blank (word key) symbol) := by
  obtain ⟨-, ⟨hempty, rfl⟩ | ⟨entries, rules, hentries, hrules, rfl⟩⟩ := declaration_eq_ok h
  · rw [entries?_of_isEmpty hempty]
    rfl
  · rw [hentries, Option.getD_some]
    exact find?_flatten_entryRules hrules symbol

theorem declaration_of_isEmpty
    {key : Datum} {d : Declaration} (h : declaration blank key value = .ok d)
    (hempty : value.isEmpty = true) :
    d = .terminal (word key) := by
  unfold declaration at h
  obtain ⟨text, htext, hrest⟩ := bind_eq_ok_iff.mp h
  obtain ⟨name, hname, hcases⟩ := bind_eq_ok_iff.mp hrest
  obtain ⟨rfl, -⟩ := token_eq_ok_iff.mp hname
  rw [if_pos hempty] at hcases
  cases hcases
  rw [word_of_toText (textOf_eq_ok_iff.mp htext)]

theorem terminal?_eq_some_iff
    {key : Datum} {d : Declaration} (h : declaration blank key value = .ok d) (state : String) :
    d.terminal? = some state ↔ word key = state ∧ value.isEmpty = true := by
  constructor
  · intro hname
    obtain ⟨-, ⟨hempty, rfl⟩ | ⟨_, _, -, -, rfl⟩⟩ := declaration_eq_ok h
    · cases hname
      exact ⟨rfl, hempty⟩
    · cases hname
  · rintro ⟨rfl, hempty⟩
    rw [declaration_of_isEmpty h hempty]
    rfl

/-! ## The whole table -/

theorem eq_of_word_eq
    {t : TableMachine} (h : t.Distinct) {first second : Datum × Datum} (hfirst : first ∈ t.table)
    (hsecond : second ∈ t.table) (hword : word first.1 = word second.1) :
    first = second :=
  List.inj_on_of_nodup_map h hfirst hsecond hword

theorem find?_word_eq_some
    {t : TableMachine} (h : t.Distinct) {entry : Datum × Datum} (hentry : entry ∈ t.table) :
    t.table.find? (fun other => word other.1 = word entry.1) = some entry := by
  have hsome : (t.table.find? fun other => word other.1 = word entry.1).isSome = true :=
    List.find?_isSome.mpr ⟨entry, hentry, decide_eq_true rfl⟩
  obtain ⟨found, hfound⟩ := Option.isSome_iff_exists.mp hsome
  have hword : word found.1 = word entry.1 := by simpa using List.find?_some hfound
  rw [hfound, eq_of_word_eq h (List.mem_of_find?_eq_some hfound) hentry hword]

theorem findSome?_eq_of_mem
    {α β : Type} {f : α → Option β} {xs : List α} {x : α} (hx : x ∈ xs)
    (h : ∀ y ∈ xs, f y = none ∨ f y = f x) :
    xs.findSome? f = f x := by
  cases hfx : f x with
  | none =>
      rw [List.findSome?_eq_none_iff]
      intro y hy
      rcases h y hy with hnone | heq
      · exact hnone
      · rw [heq, hfx]
  | some b =>
      have hsome : (xs.findSome? f).isSome = true :=
        List.findSome?_isSome_iff.mpr ⟨x, hx, by rw [hfx]; rfl⟩
      obtain ⟨found, hfound⟩ := Option.isSome_iff_exists.mp hsome
      obtain ⟨y, hy, hfy⟩ := List.exists_of_findSome?_eq_some hfound
      rcases h y hy with hnone | heq
      · rw [hnone] at hfy
        cases hfy
      · rw [hfound, ← hfy, heq, hfx]

namespace Imported

variable {size : Nat} {document : Datum} {r : Ruleset}

/-- An imported rule is found where the table has an action, and it does what the table says. -/
theorem findRule_eq
    (h : Imported size document r) (hdistinct : (TableMachine.ofDatum document).Distinct)
    (state symbol : String) :
    r.findRule (some state) (cellSymbol (TableMachine.ofDatum document).blank symbol) =
      ((TableMachine.ofDatum document).lookUp state symbol).map
        (actionRule (TableMachine.ofDatum document).blank state symbol) := by
  obtain ⟨declarations, hdeclared, hrules, -⟩ := h.declared
  rw [Ruleset.findRule, hrules, List.find?_flatMap, lookUp, TableMachine.entries]
  cases hfind : (TableMachine.ofDatum document).table.find? fun entry => word entry.1 = state with
  | none =>
      rw [List.find?_eq_none] at hfind
      change _ = none
      rw [List.findSome?_eq_none_iff]
      intro d hd
      obtain ⟨entry, hentry, hdeclaration⟩ := exists_of_mem_right hdeclared hd
      exact find?_declaration_of_ne hdeclaration (by simpa using hfind entry hentry) _
  | some entry =>
      have hentry := List.mem_of_find?_eq_some hfind
      have hword : word entry.1 = state := by simpa using List.find?_some hfind
      subst hword
      obtain ⟨d, hd, hdeclaration⟩ := exists_of_mem_left hdeclared hentry
      rw [findSome?_eq_of_mem hd, find?_declaration hdeclaration]
      · rfl
      · intro other hother
        obtain ⟨entry', hentry', hdeclaration'⟩ := exists_of_mem_right hdeclared hother
        by_cases hword : word entry'.1 = word entry.1
        · obtain rfl := eq_of_word_eq hdistinct hentry' hentry hword
          rw [hdeclaration] at hdeclaration'
          cases hdeclaration'
          exact .inr rfl
        · exact .inl (find?_declaration_of_ne hdeclaration' hword _)

/-- The states that are imported as terminal are those with an entry without transitions. -/
theorem isTerminal_iff
    (h : Imported size document r) (state : String) :
    r.isTerminal (some state) = true ↔ (TableMachine.ofDatum document).Ends state := by
  obtain ⟨declarations, hdeclared, -, hterminals⟩ := h.declared
  rw [Ruleset.isTerminal, decide_eq_true_iff, hterminals, TerminalStates.ofNames,
    NameSet.mem_ofList, List.mem_filterMap]
  constructor
  · rintro ⟨d, hd, hname⟩
    obtain ⟨entry, hentry, hdeclaration⟩ := exists_of_mem_right hdeclared hd
    exact ⟨entry, hentry, (terminal?_eq_some_iff hdeclaration state).mp hname⟩
  · rintro ⟨entry, hentry, hends⟩
    obtain ⟨d, hd, hdeclaration⟩ := exists_of_mem_left hdeclared hentry
    exact ⟨d, hd, (terminal?_eq_some_iff hdeclaration state).mpr hends⟩

/-- In a state that is imported as terminal the table has no action. -/
theorem lookUp_of_isTerminal
    (h : Imported size document r) (hdistinct : (TableMachine.ofDatum document).Distinct)
    {state : String} (hterminal : r.isTerminal (some state) = true) (symbol : String) :
    (TableMachine.ofDatum document).lookUp state symbol = none := by
  obtain ⟨entry, hentry, rfl, hempty⟩ := (h.isTerminal_iff state).mp hterminal
  rw [lookUp, TableMachine.entries, find?_word_eq_some hdistinct hentry, Option.map_some,
    Option.bind_some, entries?_of_isEmpty hempty]
  rfl

/-- Every rule that is imported is made for a symbol of an entry, in a state that is accepted. -/
theorem exists_rule
    (h : Imported size document r) {made : Rule} (hmade : made ∈ r.rules) :
    ∃ state value symbol, Accepted .state state ∧
      rule (TableMachine.ofDatum document).blank state value symbol = .ok made := by
  obtain ⟨declarations, hdeclared, hrules, -⟩ := h.declared
  rw [hrules] at hmade
  obtain ⟨d, hd, hmade⟩ := List.mem_flatMap.mp hmade
  obtain ⟨entry, -, hdeclaration⟩ := exists_of_mem_right hdeclared hd
  obtain ⟨haccepted, -⟩ := declaration_eq_ok hdeclaration
  obtain ⟨way, -, symbol, -, hrule⟩ := exists_way_of_mem_rules hdeclaration hmade
  exact ⟨word entry.1, way.2, symbol, haccepted, hrule⟩

/-- Every rule that is imported has a direction. -/
theorem directed
    (h : Imported size document r) :
    r.Directed := by
  intro made hmade
  obtain ⟨state, value, symbol, -, hrule⟩ := h.exists_rule hmade
  exact (eq_of_rule hrule).2.2.2.2

end Imported

end Table

end RingTape
