import RingTape.Machine.Basic
import RingTape.Proofs.Checked
import RingTape.Proofs.Table.TableMachine
import RingTape.Proofs.Tape

/-!
# What an imported table consists of

A ruleset is imported from a table when every check on the way succeeds.  Read backwards, each check
says which texts, groups and transitions of the table the rules come from.
-/

namespace RingTape

namespace Table

open TableMachine

theorem word_of_toText
    {d : Datum} {text : String} (h : d.toText = .ok text) :
    word d = text := by
  rw [word, h]
  rfl

theorem textOf_eq_ok_iff
    {d : Datum} {text : String} :
    textOf d = .ok text ↔ d.toText = .ok text := by
  rw [textOf]
  cases d.toText with
  | error fault =>
      cases fault
      simp
  | ok text' => simp

/-- A text that passes the checks of a token. -/
structure Accepted (kind : TokenKind) (text : String) : Prop where
  ne_empty : text ≠ ""
  unreserved : isReserved text = false
  undivided : isDivided text = false
  unmarked : kind = .state → isMarked text = false

theorem checkToken_eq_ok_iff
    {kind : TokenKind} {text name : String} :
    checkToken kind text = .ok name ↔ name = text ∧ Accepted kind text := by
  unfold checkToken
  split_ifs with hempty hreserved hdivided hmarked
  · exact ⟨nofun, fun ⟨_, h⟩ => absurd (String.isEmpty_iff.mp hempty) h.ne_empty⟩
  · exact ⟨nofun, fun ⟨_, h⟩ => absurd h.unreserved (by simp [hreserved])⟩
  · exact ⟨nofun, fun ⟨_, h⟩ => absurd h.undivided (by simp [hdivided])⟩
  · rw [Bool.and_eq_true, decide_eq_true_iff] at hmarked
    exact ⟨nofun, fun ⟨_, h⟩ => absurd (h.unmarked hmarked.1) (by simp [hmarked.2])⟩
  · have haccepted : Accepted kind text :=
      ⟨by simpa using hempty, by simpa using hreserved, by simpa using hdivided,
        by simpa using hmarked⟩
    rw [Except.ok.injEq, eq_comm]
    exact ⟨fun hname => ⟨hname, haccepted⟩, And.left⟩

theorem token_eq_ok_iff
    {kind : TokenKind} {text name : String} :
    token kind text = .ok name ↔ name = text ∧ Accepted kind text :=
  mapError_eq_ok_iff.trans checkToken_eq_ok_iff

/-- The symbol of a cell that holds a text. -/
def cellSymbol (blank text : String) : Symbol :=
  if text = blank then none else some text

theorem cellSymbol_injective
    (blank : String) :
    Function.Injective (cellSymbol blank) := by
  intro s t h
  unfold cellSymbol at h
  split at h <;> split at h
  · next hs ht => exact hs.trans ht.symm
  · cases h
  · cases h
  · exact Option.some.inj h

theorem eq_of_toSymbol
    {blank text : String} {symbol : Symbol} (h : toSymbol blank text = .ok symbol) :
    symbol = cellSymbol blank text ∧ symbol ≠ some wildcard := by
  rw [cellSymbol]
  unfold toSymbol at h
  split at h
  · next hblank =>
      cases h
      exact ⟨(if_pos hblank).symm, nofun⟩
  · next hblank =>
      obtain ⟨name, hname, rfl⟩ := map_eq_ok_iff.mp h
      obtain ⟨rfl, haccepted⟩ := token_eq_ok_iff.mp hname
      refine ⟨(if_neg hblank).symm, fun hwild => ?_⟩
      have hreserved := haccepted.unreserved
      rw [Option.some.inj hwild] at hreserved
      exact absurd hreserved (by decide)

/-! ## Transitions -/

theorem wordOr_of_textOr
    {default text : String} {d : Option Datum} (h : Transition.textOr default d = .ok text) :
    wordOr default d = text := by
  unfold Transition.textOr at h
  unfold wordOr
  split at h
  · cases h
    rfl
  · cases h
    rfl
  · next d hd =>
      rw [Transition.textOf] at h
      cases htext : d.toText with
      | error fault =>
          rw [htext] at h
          cases fault
          cases h
      | ok text' =>
          rw [htext] at h
          cases h
          simpa using word_of_toText htext

theorem action?_of_letter?
    {state symbol : String} {value : Datum} {direction : Direction}
    (h : Transition.letter? value = some direction) :
    action? state symbol value = some ⟨symbol, direction, state⟩ := by
  cases value with
  | text name =>
      change letters.lookup name = some direction at h
      by_cases hl : name = "L"
      · subst hl
        cases h
        rfl
      · by_cases hr : name = "R"
        · subst hr
          cases h
          rfl
        · have hnone : letters.lookup name = none := by
            rw [List.lookup_eq_none_iff]
            simp [letters, hl, hr]
          rw [hnone] at h
          cases h
  | _ => cases h

theorem action?_of_entries?
    {state symbol : String} {value : Datum} {entries : List (Datum × Datum)}
    (h : value.entries? = some entries) :
    action? state symbol value = (Transition.direction? entries).map fun (direction, next) =>
      ⟨wordOr symbol (Datum.lookup (.text "write") entries), direction,
        wordOr state (some next)⟩ := by
  cases value with
  | mapping label written =>
      simp only [action?, h, Option.bind_some, Transition.direction?, letters,
        List.findSome?_cons, List.findSome?_nil, field]
      cases Datum.lookup (.text "L") entries with
      | some next => rfl
      | none => cases Datum.lookup (.text "R") entries <;> rfl
  | _ => cases h

/-- A value that is accepted as a transition says the same of a state and a symbol. -/
theorem action?_of_ofDatum
    {state symbol : String} {value : Datum} {t : Transition}
    (h : Transition.ofDatum state symbol value = .ok t) :
    action? state symbol value = some t := by
  unfold Transition.ofDatum at h
  split at h
  · next direction hletter =>
      cases h
      exact action?_of_letter? hletter
  · next hletter =>
      split at h
      · obtain ⟨text, -, h⟩ := bind_eq_ok_iff.mp h
        cases h
      · next entries hentries =>
          obtain ⟨write, hwrite, h⟩ := bind_eq_ok_iff.mp h
          split at h
          · obtain ⟨text, -, h⟩ := bind_eq_ok_iff.mp h
            cases h
          · next direction next hdirection =>
              obtain ⟨name, hname, h⟩ := bind_eq_ok_iff.mp h
              cases h
              rw [action?_of_entries? hentries, hdirection, wordOr_of_textOr hwrite]
              exact congrArg some (congrArg _ (wordOr_of_textOr hname))

/-! ## Rules -/

/-- The rule for an action in a state on a symbol. -/
def actionRule (blank state symbol : String) (a : Transition) : Rule :=
  ⟨some state, some a.next, cellSymbol blank symbol, cellSymbol blank a.write,
    .toward a.direction⟩

/-- What the rule for a symbol of an entry consists of. -/
theorem rule_parts
    {blank state symbol : String} {value : Datum} {r : Rule}
    (h : rule blank state value symbol = .ok r) :
    ∃ t current written, Transition.ofDatum state symbol value = .ok t ∧ Accepted .state t.next ∧
      toSymbol blank symbol = .ok current ∧ toSymbol blank t.write = .ok written ∧
      r = ⟨some state, some t.next, current, written, .toward t.direction⟩ := by
  obtain ⟨t, ht, h⟩ := bind_eq_ok_iff.mp h
  obtain ⟨next, hnext, h⟩ := bind_eq_ok_iff.mp h
  obtain ⟨current, hcurrent, h⟩ := bind_eq_ok_iff.mp h
  obtain ⟨written, hwritten, h⟩ := bind_eq_ok_iff.mp h
  obtain ⟨rfl, haccepted⟩ := token_eq_ok_iff.mp hnext
  cases h
  exact ⟨t, current, written, mapError_eq_ok_iff.mp ht, haccepted, hcurrent, hwritten, rfl⟩

/-- A rule of a table follows what the table says, and it names its state and its symbol. -/
theorem eq_of_rule
    {blank state symbol : String} {value : Datum} {r : Rule}
    (h : rule blank state value symbol = .ok r) :
    (action? state symbol value).map (actionRule blank state symbol) = some r ∧
      r.currentState = some state ∧ r.currentValue = cellSymbol blank symbol ∧
      r.currentValue ≠ some wildcard ∧ r.Directed := by
  obtain ⟨t, current, written, ht, -, hcurrent, hwritten, rfl⟩ := rule_parts h
  obtain ⟨rfl, hwild⟩ := eq_of_toSymbol hcurrent
  obtain ⟨rfl, -⟩ := eq_of_toSymbol hwritten
  rw [action?_of_ofDatum ht]
  exact ⟨rfl, rfl, rfl, hwild, t.direction, rfl⟩

theorem entryRules_eq_ok
    {blank state : String} {key value : Datum} {rules : List Rule}
    (h : entryRules blank state key value = .ok rules) :
    List.Forall₂ (fun symbol r => rule blank state value symbol = .ok r) (group key) rules := by
  rw [entryRules] at h
  rw [group]
  cases hsymbols : symbolsOf key with
  | error fault =>
      rw [hsymbols] at h
      cases fault
      cases h
  | ok symbols =>
      rw [hsymbols] at h
      exact mapM_eq_ok_iff.mp h

/-- What an entry of a table is declared to say. -/
theorem declaration_eq_ok
    {blank : String} {key value : Datum} {d : Declaration}
    (h : declaration blank key value = .ok d) :
    Accepted .state (word key) ∧
      (value.isEmpty = true ∧ d = .terminal (word key) ∨
        ∃ entries rules, value.entries? = some entries ∧
          List.Forall₂ (fun entry => (entryRules blank (word key) entry.1 entry.2 = .ok ·))
            entries rules ∧
          d = .transitions (word key) rules.flatten) := by
  unfold declaration at h
  obtain ⟨text, htext, hrest⟩ := bind_eq_ok_iff.mp h
  obtain ⟨name, hname, hcases⟩ := bind_eq_ok_iff.mp hrest
  obtain ⟨rfl, haccepted⟩ := token_eq_ok_iff.mp hname
  rw [word_of_toText (textOf_eq_ok_iff.mp htext)]
  refine ⟨haccepted, ?_⟩
  split at hcases
  · next hempty =>
      cases hcases
      exact .inl ⟨hempty, rfl⟩
  · split at hcases
    · cases hcases
    · next entries hentries =>
        obtain ⟨rules, hrules, hresult⟩ := bind_eq_ok_iff.mp hcases
        cases hresult
        exact .inr ⟨entries, rules, hentries, mapM_eq_ok_iff.mp hrules, rfl⟩

/-! ## Documents -/

/-- What the filler for an input consists of. -/
theorem filler_parts
    {blank : String} {size : Nat} {input : String} {pattern : List Symbol}
    (h : filler blank size input = .ok pattern) :
    ∃ symbols : List Symbol,
      List.Forall₂ (fun c symbol => toSymbol blank (String.singleton c) = .ok symbol)
        input.toList symbols ∧
      symbols.length ≤ size ∧ pattern = symbols ++ List.replicate (size - symbols.length) none := by
  unfold filler at h
  obtain ⟨symbols, hsymbols, hchecks⟩ := bind_eq_ok_iff.mp h
  dsimp only at hchecks
  split at hchecks
  · cases hchecks
  · next hfits =>
      split at hchecks
      · cases hchecks
      · cases hchecks
        exact ⟨symbols, mapM_eq_ok_iff.mp hsymbols, Nat.le_of_not_lt hfits, rfl⟩

theorem length_filler
    {blank : String} {size : Nat} {input : String} {pattern : List Symbol}
    (h : filler blank size input = .ok pattern) :
    pattern.length = size := by
  obtain ⟨symbols, -, hfits, rfl⟩ := filler_parts h
  rw [List.length_append, List.length_replicate, Nat.add_sub_cancel' hfits]

/-- The filler for an input has a cell for each of its characters, and blanks up to the size. -/
theorem filler_eq_ok
    {blank : String} {size : Nat} {input : String} {pattern : List Symbol}
    (h : filler blank size input = .ok pattern) :
    input.toList.length ≤ size ∧
      pattern = (input.toList.map String.singleton ++
        List.replicate (size - input.toList.length) blank).map (cellSymbol blank) := by
  obtain ⟨symbols, hsymbols, hfits, rfl⟩ := filler_parts h
  have hmap : symbols = (input.toList.map String.singleton).map (cellSymbol blank) := by
    rw [List.map_map]
    apply eq_map_of_forall₂
    exact hsymbols.imp fun c symbol hsymbol => (eq_of_toSymbol hsymbol).1
  rw [List.map_append, List.map_replicate, ← hmap, cellSymbol, if_pos rfl, hsymbols.length_eq]
  exact ⟨hfits, rfl⟩

/-- The cells of a filler passed the check of a symbol, the blanks at its end included. -/
theorem toSymbol_of_mem_filler
    {blank : String} {size : Nat} {input : String} {pattern : List Symbol}
    (h : filler blank size input = .ok pattern) {symbol : Symbol} (hsymbol : symbol ∈ pattern) :
    ∃ text, toSymbol blank text = .ok symbol := by
  obtain ⟨symbols, hsymbols, -, rfl⟩ := filler_parts h
  rcases List.mem_append.mp hsymbol with hinput | hpadding
  · obtain ⟨c, -, hc⟩ := exists_of_mem_right hsymbols hinput
    exact ⟨String.singleton c, hc⟩
  · rw [List.eq_of_mem_replicate hpadding]
    exact ⟨blank, if_pos rfl⟩

/-- The document gives an input, which may be a text without characters. -/
def HasInput (document : Datum) : Prop :=
  ((field "input" (document.entries?.getD [])).getD .null).isNull = false

instance (document : Datum) : Decidable (HasInput document) :=
  inferInstanceAs (Decidable (_ = _))

/-- A ruleset that is imported from a document, for a tape of `size` cells. -/
structure Imported (size : Nat) (document : Datum) (r : Ruleset) : Prop where
  /-- The entries of the table make declarations, and these the rules and the terminal states. -/
  declared : ∃ declarations,
    List.Forall₂
      (fun entry d => declaration (TableMachine.ofDatum document).blank entry.1 entry.2 = .ok d)
      (TableMachine.ofDatum document).table declarations ∧
    r.rules = declarations.flatMap Declaration.rules ∧
    r.terminalStates = .ofNames (declarations.filterMap Declaration.terminal?)
  initialState : r.initialState = some (TableMachine.ofDatum document).start
  start : Accepted .state (TableMachine.ofDatum document).start
  /-- The input passed the check of a symbol, and so did the blanks after it. -/
  filler : ∀ pattern ∈ r.filler, pattern.length = size ∧ ∀ symbol ∈ pattern,
    ∃ text, toSymbol (TableMachine.ofDatum document).blank text = .ok symbol
  initialTape : Machine.initialTape r size =
    ((TableMachine.ofDatum document).origin size).cells.map
      (cellSymbol (TableMachine.ofDatum document).blank)
  tapeSize : r.tapeSize = size

theorem tableEntries?_eq_some
    {fields table : List (Datum × Datum)} (h : tableEntries? fields = some table) :
    (field "table" fields).bind Datum.entries? = some table := by
  rw [tableEntries?, Option.filter_eq_some_iff] at h
  exact h.1

theorem wordOr_of_isNull
    {default : String} {d : Option Datum} (h : (d.getD .null).isNull = true) :
    wordOr default d = default := by
  cases d with
  | none => rfl
  | some d =>
      cases d with
      | null => rfl
      | _ => cases h

theorem wordOr_of_not_isNull
    {default text : String} {d : Option Datum} (h : (d.getD .null).isNull = false)
    (htext : textOf (d.getD .null) = .ok text) :
    wordOr default d = text := by
  rw [textOf_eq_ok_iff] at htext
  cases d with
  | none => cases h
  | some d =>
      rw [← word_of_toText htext]
      cases d with
      | null => cases h
      | _ => rfl

theorem ofDatum_eq
    {document : Datum} {fields table : List (Datum × Datum)} {blank start : String}
    (hfields : document.entries? = some fields) (htable : tableEntries? fields = some table)
    (hblank : textOf ((field "blank" fields).getD (.text " ")) = .ok blank)
    (hstart : textOf (if (startField fields).isNull then (table.head?.map (·.1)).getD .null
      else startField fields) = .ok start) :
    TableMachine.ofDatum document = ⟨blank, table, start,
      (wordOr "" (field "input" fields)).toList.map String.singleton⟩ := by
  rw [TableMachine.ofDatum, hfields, Option.getD_some, tableEntries?_eq_some htable,
    Option.getD_some, word_of_toText (textOf_eq_ok_iff.mp hblank),
    word_of_toText (textOf_eq_ok_iff.mp hstart)]

/-- What a document is read as, and the ruleset that is made of it.  The filler is the one for the
input, if there is an input. -/
theorem ofDatum_parts
    {size : Nat} {document : Datum} {r : Ruleset} (h : ofDatum size document = .ok r) :
    ∃ fields blank table start declarations pattern,
      document.entries? = some fields ∧
      TableMachine.ofDatum document = ⟨blank, table, start,
        (wordOr "" (field "input" fields)).toList.map String.singleton⟩ ∧
      Accepted .state start ∧
      List.Forall₂ (fun entry d => declaration blank entry.1 entry.2 = .ok d) table declarations ∧
      (((field "input" fields).getD .null).isNull = true ∧ pattern = none ∨
        ((field "input" fields).getD .null).isNull = false ∧
          ∃ symbols, filler blank size (wordOr "" (field "input" fields)) = .ok symbols ∧
            pattern = some symbols) ∧
      r = ⟨declarations.flatMap Declaration.rules, some start,
        .ofNames (declarations.filterMap Declaration.terminal?), pattern, size⟩ := by
  unfold ofDatum at h
  split at h
  case h_2 => cases h
  next fields hfields =>
  split at h
  case h_2 => cases h
  next table htable =>
  obtain ⟨blank, hblank, htail⟩ := bind_eq_ok_iff.mp h
  obtain ⟨declarations, hdeclarations, hstarts⟩ := bind_eq_ok_iff.mp htail
  obtain ⟨start, hstart, htoken⟩ := bind_eq_ok_iff.mp hstarts
  obtain ⟨initial, hinitial, hfiller⟩ := bind_eq_ok_iff.mp htoken
  obtain ⟨rfl, haccepted⟩ := token_eq_ok_iff.mp hinitial
  have hmachine := ofDatum_eq hfields htable hblank hstart
  have hdeclared := mapM_eq_ok_iff.mp hdeclarations
  dsimp only at hfiller
  split at hfiller
  · next hnull =>
      cases hfiller
      exact ⟨fields, blank, table, initial, declarations, none, hfields, hmachine, haccepted,
        hdeclared, .inl ⟨hnull, rfl⟩, rfl⟩
  · next hnull =>
      rw [Bool.not_eq_true] at hnull
      obtain ⟨pattern, hpattern, hresult⟩ := bind_eq_ok_iff.mp hfiller
      cases hresult
      obtain ⟨symbols, hsymbols, rfl⟩ := map_eq_ok_iff.mp hpattern
      obtain ⟨text, htext, hsymbols⟩ := bind_eq_ok_iff.mp hsymbols
      rw [← wordOr_of_not_isNull hnull htext] at hsymbols
      exact ⟨fields, blank, table, initial, declarations, some symbols, hfields, hmachine,
        haccepted, hdeclared, .inr ⟨hnull, symbols, hsymbols, rfl⟩, rfl⟩

theorem filler_eq_none_iff
    {size : Nat} {document : Datum} {r : Ruleset} (h : ofDatum size document = .ok r) :
    r.filler = none ↔ ¬ HasInput document := by
  obtain ⟨fields, _, _, _, _, pattern, hfields, -, -, -, hpattern, rfl⟩ := ofDatum_parts h
  rw [HasInput, hfields, Option.getD_some, Bool.not_eq_false]
  rcases hpattern with ⟨hnull, rfl⟩ | ⟨hnull, symbols, -, rfl⟩
  · exact iff_of_true rfl hnull
  · exact iff_of_false nofun (ne_true_of_eq_false hnull)

theorem imported_of_ofDatum
    {size : Nat} {document : Datum} {r : Ruleset} (h : ofDatum size document = .ok r) :
    Imported size document r := by
  obtain ⟨_, _, _, _, declarations, pattern, -, hmachine, hstart, hdeclared, hpattern, rfl⟩ :=
    ofDatum_parts h
  constructor
  case declared =>
    rw [hmachine]
    exact ⟨declarations, hdeclared, rfl, rfl⟩
  case initialState => rw [hmachine]
  case start => rwa [hmachine]
  case filler =>
    rw [hmachine]
    rcases hpattern with ⟨-, rfl⟩ | ⟨-, symbols, hsymbols, rfl⟩
    · exact fun _ hsome => nomatch hsome
    · rintro _ ⟨⟩
      exact ⟨length_filler hsymbols, fun _ => toSymbol_of_mem_filler hsymbols⟩
  case initialTape =>
    rw [hmachine, Machine.initialTape]
    rcases hpattern with ⟨hnull, rfl⟩ | ⟨-, symbols, hsymbols, rfl⟩
    · simp [wordOr_of_isNull hnull, Tape.tile, origin, cellSymbol]
    · rw [Option.getD_some, Tape.tile_eq_self (length_filler hsymbols), origin, List.length_map]
      exact (filler_eq_ok hsymbols).2
  case tapeSize => rfl

theorem ofDatum_of_parse
    {loader : Yaml.Loader} {size : Datum} {text : List Char} {document : Datum} {r : Ruleset}
    (hload : loader (quoteGroups text) = .ok document) (h : parse loader size text = .ok r) :
    ∃ n, tapeSize size = .ok n ∧ ofDatum n document = .ok r := by
  unfold parse at h
  split at h
  · cases h
  · next n hsize =>
      rw [hload] at h
      exact ⟨n, hsize, h⟩

/-- A text is imported as the document that it loads. -/
theorem exists_ofDatum_of_parse
    {loader : Yaml.Loader} {size : Datum} {text : List Char} {r : Ruleset}
    (h : parse loader size text = .ok r) :
    ∃ n document, tapeSize size = .ok n ∧ ofDatum n document = .ok r := by
  unfold parse at h
  split at h
  · cases h
  · next n hsize =>
      split at h
      · cases h
      · next document _ => exact ⟨n, document, hsize, h⟩

end Table

end RingTape
