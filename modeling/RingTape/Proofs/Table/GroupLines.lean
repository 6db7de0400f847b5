import RingTape.Proofs.Table.BlockLines

/-!
# A group of symbols on a line

In a table in writing, the line of a group of symbols says what the lines of its symbols say, where
each of the symbols is read as a key that shows it.
-/

namespace RingTape

namespace Table

open Text Yaml

/-! ## Symbols on lines of their own -/

/-- A text without a comma, a quote, a bracket, a brace, a colon, a number sign, a backslash or a
blank. -/
@[mk_iff] structure IsSymbol (s : List Char) : Prop where
  ne_nil : s ≠ []
  chars : ∀ c ∈ s, c ∉ ",'\"[]\x7b\x7d:#\\".toList ∧ isBlank c = false

instance (s : List Char) : Decidable (IsSymbol s) :=
  have := List.decidableBAll (fun c => c ∉ ",'\"[]\x7b\x7d:#\\".toList ∧ isBlank c = false) s
  decidable_of_iff' _ (isSymbol_iff s)

theorem IsSymbol.not_mem
    {s : List Char} (h : IsSymbol s) {c : Char} (hc : c ∈ ",'\"[]\x7b\x7d:#\\".toList) :
    c ∉ s :=
  fun hmem => (h.chars c hmem).1 hc

theorem IsSymbol.isBlank_eq
    {s : List Char} (h : IsSymbol s) :
    ∀ c ∈ s, isBlank c = false :=
  fun c hc => (h.chars c hc).2

theorem IsSymbol.not_mem_feed
    {s : List Char} (h : IsSymbol s) :
    '\n' ∉ s :=
  fun hmem => absurd (h.isBlank_eq '\n' hmem) (by decide)

theorem IsSymbol.groupable
    {s : List Char} (h : IsSymbol s) :
    Groupable s := by
  have hquotes : ∀ c ∈ s, isQuote c = false := by
    intro c hc
    rw [isQuote, Bool.or_eq_false_iff]
    constructor <;> refine beq_false_of_ne ?_ <;> rintro rfl <;> exact h.not_mem (by decide) hc
  refine ⟨h.not_mem (by decide), ?_⟩
  rw [itemSymbol, trim, trimWhere_eq_self h.isBlank_eq, trimWhere_eq_self hquotes]

/-- A symbol that is read as a key with the same text. -/
structure StandsForItself (key : ReadKey) : Prop where
  symbol : IsSymbol key.text
  asText : key.datum.toText = .ok (String.ofList key.text)

theorem StandsForItself.shows
    {key : ReadKey} (h : StandsForItself key) :
    Shows key.datum key.text := by
  have halone : key.text.head? ≠ some '[' :=
    fun hhead => h.symbol.not_mem (by decide) (List.mem_of_mem_head? hhead)
  refine ⟨?_, h.asText, halone⟩
  intro label items hlist
  have hshown := h.asText
  rw [hlist] at hshown
  obtain ⟨text, htext, hkey⟩ := map_eq_ok_iff.mp hshown
  obtain ⟨texts, -, rfl⟩ := map_eq_ok_iff.mp htext
  rw [← String.ofList_injective hkey] at halone
  exact halone rfl

namespace LinePlace

variable {p : LinePlace} {symbols : List (List Char)}

theorem quoteGroup_line_symbol
    {s : List Char} (hs : IsSymbol s) :
    quoteGroup (p.line s) = p.line s := by
  obtain ⟨x, more, rfl⟩ := List.exists_cons_of_ne_nil hs.ne_nil
  apply quoteGroup_of_not_isGroupLine
  rintro ⟨g, hg⟩
  have hx := hs.isBlank_eq x List.mem_cons_self
  have hdrop := congrArg (List.dropWhile isBlank) hg
  rw [g.dropWhile_chars, line, List.dropWhile_append_of_pos p.isBlank_indent, List.cons_append,
    List.dropWhile_cons_of_neg (by simp [hx])] at hdrop
  obtain rfl : '[' = x := List.head_eq_of_cons_eq hdrop
  exact hs.not_mem (by decide) List.mem_cons_self

theorem quoteGroup_line_group
    (hne : symbols ≠ []) (hsymbols : ∀ s ∈ symbols, IsSymbol s) {gap : List Char}
    (hgap : ∀ c ∈ gap, isBlank c = true) :
    quoteGroup (p.line (groupText symbols ++ gap)) =
      p.line ('"' :: groupText symbols ++ '"' :: gap) := by
  let g : GroupLine := {
    indent := p.indent
    body := joinWith [','] symbols
    gap := gap
    rest := p.rest
    isBlank_indent := p.isBlank_indent
    body_ne_nil := joinWith_ne_nil hne fun s hs =>
      ⟨(hsymbols s hs).ne_nil, (hsymbols s hs).isBlank_eq⟩
    not_mem_body := fun hmem => by
      rcases mem_joinWith hmem with hcomma | ⟨s, hs, hmem⟩
      · exact absurd hcomma (by decide)
      · exact (hsymbols s hs).not_mem (by decide) hmem
    isBlank_gap := hgap }
  simpa [GroupLine.chars, GroupLine.quoted, g, line, groupText] using g.quoteGroup_chars

end LinePlace

/-- The key that a group is to a loader, with blanks before its colon. -/
def groupKey (symbols : List (List Char)) (gap : List Char) : ReadKey :=
  ⟨'"' :: groupText symbols ++ '"' :: gap, .text (String.ofList (groupText symbols))⟩

theorem not_mem_group
    {symbols : List (List Char)} (hsymbols : ∀ s ∈ symbols, IsSymbol s) {gap : List Char}
    (hgap : ∀ c ∈ gap, isBlank c = true ∧ c ≠ '\n') :
    '\n' ∉ groupText symbols ++ gap := by
  have hjoined : '\n' ∉ joinWith [','] symbols := by
    intro hmem
    rcases mem_joinWith hmem with hcomma | ⟨s, hs, hmem⟩
    · exact absurd hcomma (by decide)
    · exact (hsymbols s hs).not_mem_feed hmem
  have hend : '\n' ∉ gap := fun hmem => (hgap '\n' hmem).2 rfl
  simp [groupText, hjoined, hend]

namespace LinePlace

variable {p : LinePlace} {symbols : List (List Char)}

/-- A loader sees the group between quotes. -/
theorem quoteGroups_text_group
    (hne : symbols ≠ []) (hsymbols : ∀ s ∈ symbols, IsSymbol s) {gap : List Char}
    (hgap : ∀ c ∈ gap, isBlank c = true ∧ c ≠ '\n') :
    quoteGroups (p.text [groupText symbols ++ gap]) =
      p.quoted.text [(groupKey symbols gap).text] := by
  apply quoteGroups_text (List.cons_ne_nil _ _)
  · rw [List.forall_mem_singleton]
    exact not_mem_group hsymbols hgap
  · exact .cons (quoteGroup_line_group hne hsymbols fun c hc => (hgap c hc).1) .nil

/-- A loader sees the symbols as they are. -/
theorem quoteGroups_text_symbols
    (hne : symbols ≠ []) (hsymbols : ∀ s ∈ symbols, IsSymbol s) :
    quoteGroups (p.text symbols) = p.quoted.text symbols := by
  apply quoteGroups_text hne
  · exact fun s hs => (hsymbols s hs).not_mem_feed
  · rw [List.forall₂_same]
    exact fun s hs => quoteGroup_line_symbol (hsymbols s hs)

end LinePlace

/-- The line of a group says what the lines of its symbols say. -/
theorem parse_group
    {loader : Loader} {p : LinePlace} {keys : List ReadKey} (hne : keys ≠ [])
    (hkeys : ∀ key ∈ keys, StandsForItself key) {gap : List Char}
    (hgap : ∀ c ∈ gap, isBlank c = true ∧ c ≠ '\n') {found : Option (Frame × Datum)}
    (hfound : Enters loader p.quoted (groupKey (keys.map (·.text)) gap :: keys) found)
    (hadmits : ∀ f value, found = some (f, value) →
      f.Admits [(groupKey (keys.map (·.text)) gap).datum] ∧ f.Admits (keys.map (·.datum)))
    (size : Datum) :
    (parse loader size (p.text [groupText (keys.map (·.text)) ++ gap])).toOption =
      (parse loader size (p.text (keys.map (·.text)))).toOption := by
  have hsymbols : ∀ s ∈ keys.map (·.text), IsSymbol s :=
    List.forall_mem_map.mpr fun key hkey => (hkeys key hkey).symbol
  have hsome : keys.map (·.text) ≠ [] := by simpa using hne
  rw [toOption_parse_of_enters hfound (List.cons_ne_nil _ _) (List.cons_subset.mpr
      ⟨List.mem_cons_self, List.nil_subset _⟩)
      (LinePlace.quoteGroups_text_group hsome hsymbols hgap),
    toOption_parse_of_enters hfound hne (List.subset_cons_self _ _)
      (LinePlace.quoteGroups_text_symbols hsome hsymbols)]
  refine Option.bind_congr fun n _ => Option.bind_congr ?_
  rintro ⟨f, value⟩ hf
  obtain ⟨htree, hvalue⟩ := hfound.isTree f value hf
  obtain ⟨hgroupAdmitted, hkeysAdmitted⟩ := hadmits f value hf
  have hshows : List.Forall₂ Shows (keys.map (·.datum)) (keys.map (·.text)) := by
    rw [List.forall₂_map_left_iff, List.forall₂_map_right_iff, List.forall₂_same]
    exact fun key hkey => (hkeys key hkey).shows
  have hsame := Frame.ofDatum_document_group htree hsome
    (fun s hs => (hsymbols s hs).groupable) hshows hgroupAdmitted hkeysAdmitted hvalue n
  rw [List.map_map] at hsame
  exact congrArg Except.toOption hsame

/-- A table of two states, with a gap before the only entry of the first one. -/
def gapTable : TextFrame :=
  let plain (text : String) : Written := .plain text.toList
  let lineEnd : Pad := ⟨0, none⟩
  { fields := (.row [] (plain "blank") (.scalar 0 (plain "0")) lineEnd .nil, .nil)
    table := ⟨[], plain "table", lineEnd, 2⟩
    states := (.nil, .row [] (plain "end") .empty lineEnd .nil)
    state := ⟨[], plain "a", lineEnd, 4⟩
    entries := (.nil, .row [] (plain "x") (.scalar 0 (plain "R")) lineEnd .nil)
    above := []
    pads := [] }

theorem legible_gapTable :
    gapTable.Legible :=
  ⟨by decide +kernel, by decide +kernel, rfl, by decide +kernel, by decide +kernel,
    by decide +kernel, nofun, nofun⟩

/-- A transition that is written between braces. -/
def bracedEnd : LineEnd :=
  let plain (text : String) : Written := .plain text.toList
  ⟨.flow 0 [⟨0, plain "write", some (0, plain "x"), 0⟩, ⟨1, plain "L", some (0, plain "end"), 0⟩],
    ⟨0, none⟩⟩

theorem legible_bracedEnd :
    bracedEnd.Legible := by
  decide +kernel

/-- The numbers one and two as keys. -/
def numberKeys : List ReadKey := [⟨['1'], .int 1⟩, ⟨['2'], .int 2⟩]

theorem enters_numberKeys :
    Enters load (gapTable.place bracedEnd legible_bracedEnd).quoted
      (groupKey (numberKeys.map (·.text)) [] :: numberKeys)
      (gapTable.found bracedEnd).toOption := by
  let known : List (Written × Datum) :=
    [(.quoted '"' "[1,2]".toList, .text "[1,2]"), (.plain ['1'], .int 1), (.plain ['2'], .int 2)]
  have hknown : ∀ key ∈ known, key.1.IsKey gapTable.state.column ∧ key.1.leaf.key = .ok key.2 :=
    List.forall_mem_cons.mpr ⟨⟨by decide +kernel, rfl⟩, List.forall_mem_cons.mpr
      ⟨⟨by decide +kernel, rfl⟩, List.forall_mem_singleton.mpr ⟨by decide +kernel, rfl⟩⟩⟩
  -- no line around the gap starts with a group
  rw [LinePlace.quoted_eq_self (by decide +kernel)]
  exact gapTable.enters_load legible_gapTable legible_bracedEnd hknown

/-- The group of the numbers one and two, among the entries of a state with another one. -/
theorem parse_group_of_numbers :
    ∃ r, parse load (.int 3) ("blank: 0\ntable:\n  a:\n    [1,2]: \x7bwrite: x, L: end\x7d\n" ++
        "    x: R\n  end:\n").toList = .ok r ∧
      parse load (.int 3) ("blank: 0\ntable:\n  a:\n    1: \x7bwrite: x, L: end\x7d\n" ++
        "    2: \x7bwrite: x, L: end\x7d\n    x: R\n  end:\n").toList = .ok r := by
  let p : LinePlace := gapTable.place bracedEnd legible_bracedEnd
  have hkeys : ∀ key ∈ numberKeys, StandsForItself key :=
    List.forall_mem_cons.mpr ⟨⟨by decide, rfl⟩, List.forall_mem_singleton.mpr ⟨by decide, rfl⟩⟩
  have hread : gapTable.found bracedEnd =
      .ok (⟨([(.text "blank", .int 0)], []),
        [(.text "a", .around [] [(.text "x", .text "R")]), (.text "end", .fixed .null)]⟩,
        .mapping 0 [(.text "write", .text "x"), (.text "L", .text "end")]) := rfl
  have hadmits : ∀ f value, (gapTable.found bracedEnd).toOption = some (f, value) →
      f.Admits [(groupKey (numberKeys.map (·.text)) []).datum] ∧
        f.Admits (numberKeys.map (·.datum)) := by
    rw [hread]
    rintro f value ⟨⟩
    exact ⟨List.forall_mem_cons.mpr
        ⟨⟨nofun, by decide, by decide⟩, List.forall_mem_singleton.mpr trivial⟩,
      List.forall_mem_cons.mpr
        ⟨⟨nofun, by decide, by decide⟩, List.forall_mem_singleton.mpr trivial⟩⟩
  have hgroup : (parse load (.int 3) (p.text ["[1,2]".toList])).toOption =
      (parse load (.int 3) (p.text [['1'], ['2']])).toOption :=
    parse_group (List.cons_ne_nil _ _) hkeys (List.forall_mem_nil _) enters_numberKeys hadmits
      (.int 3)
  have haccepted : (parse load (.int 3) (p.text [['1'], ['2']])).toOption.isSome = true := by
    decide +kernel
  obtain ⟨r, hr⟩ := Option.isSome_iff_exists.mp haccepted
  exact ⟨r, toOption_eq_some_iff.mp (hgroup.trans hr), toOption_eq_some_iff.mp hr⟩

/-- A tilde between brackets is a symbol, and as a key it is nothing. -/
theorem exists_findRule_group_ne :
    ∃ r r', parse load (.int 2) "table:\n  a:\n    [~]: R\n".toList = .ok r ∧
      parse load (.int 2) "table:\n  a:\n    ~: R\n".toList = .ok r' ∧
      r.findRule (some "a") (some "~") ≠ r'.findRule (some "a") (some "~") := by
  let made (symbol : String) : Ruleset :=
    ⟨[⟨some "a", some "a", some symbol, some symbol, .toward .right⟩], some "a", .ofNames [], none,
      2⟩
  have hgroup : parse load (.int 2) "table:\n  a:\n    [~]: R\n".toList = .ok (made "~") :=
    toOption_eq_some_iff.mp (by decide +kernel)
  have hsingle : parse load (.int 2) "table:\n  a:\n    ~: R\n".toList = .ok (made "None") :=
    toOption_eq_some_iff.mp (by decide +kernel)
  exact ⟨made "~", made "None", hgroup, hsingle, by decide⟩

end Table

end RingTape
