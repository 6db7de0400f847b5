import RingTape.Proofs.Table.Shorthand

/-!
# The items of a group

An item of a group is trimmed of blanks first and of quotes afterwards, so that quotes keep the
blanks between them.  Since a whole run of quotes is dropped at each end, whichever quotes they are,
a symbol comes back from every way to write it as long as it has no quote at an end of its own.
-/

namespace RingTape

namespace Table

open Text

/-- The ways to write a symbol: bare, or between two quotes of one kind.  Only quotes keep blanks at
the ends of a symbol, and make the empty text one. -/
inductive Spells (symbol : List Char) : List Char → Prop
  | bare (hne : symbol ≠ []) (hends : EndsOutside isBlank symbol) : Spells symbol symbol
  | single : Spells symbol (['\''] ++ symbol ++ ['\''])
  | double : Spells symbol (['"'] ++ symbol ++ ['"'])

/-- An item that is written for a symbol, with blanks around it. -/
structure IsItemOf (symbol item : List Char) : Prop where
  comma : ',' ∉ symbol
  quotes : EndsOutside isQuote symbol
  written : ∃ before spelled after, item = before ++ spelled ++ after ∧ Spells symbol spelled ∧
    (∀ c ∈ before, isBlank c = true) ∧ ∀ c ∈ after, isBlank c = true

theorem endsOutside_between
    {p : Char → Bool} {c : Char} (hc : p c = false) (cs : List Char) :
    EndsOutside p ([c] ++ cs ++ [c]) := by
  constructor
  · intro d hd
    obtain rfl : c = d := Option.some.inj hd
    exact hc
  · intro d hd
    rw [List.getLast?_concat] at hd
    obtain rfl : c = d := Option.some.inj hd
    exact hc

theorem Spells.endsOutside
    {symbol spelled : List Char} (h : Spells symbol spelled) :
    EndsOutside isBlank spelled := by
  cases h with
  | bare _ hends => exact hends
  | single => exact endsOutside_between (by decide) symbol
  | double => exact endsOutside_between (by decide) symbol

theorem Spells.trimWhere_eq
    {symbol spelled : List Char} (h : Spells symbol spelled) (hquotes : EndsOutside isQuote symbol) :
    trimWhere isQuote spelled = symbol := by
  cases h with
  | bare => exact hquotes.trimWhere_eq
  | single =>
      have hquote : ∀ c ∈ ['\''], isQuote c = true := List.forall_mem_singleton.mpr rfl
      exact hquotes.trimWhere_between hquote hquote
  | double =>
      have hquote : ∀ c ∈ ['"'], isQuote c = true := List.forall_mem_singleton.mpr rfl
      exact hquotes.trimWhere_between hquote hquote

theorem Spells.not_mem
    {symbol spelled : List Char} (h : Spells symbol spelled) (hcomma : ',' ∉ symbol) :
    ',' ∉ spelled := by
  cases h with
  | bare => exact hcomma
  | single => simp [hcomma]
  | double => simp [hcomma]

theorem not_mem_of_isBlank
    {cs : List Char} (h : ∀ c ∈ cs, isBlank c = true) :
    ',' ∉ cs :=
  fun hmem => absurd (h ',' hmem) (by decide)

namespace IsItemOf

variable {symbol item : List Char}

theorem itemSymbol_eq
    (h : IsItemOf symbol item) :
    itemSymbol item = symbol := by
  obtain ⟨before, spelled, after, rfl, hspelled, hbefore, hafter⟩ := h.written
  rw [itemSymbol, trim, hspelled.endsOutside.trimWhere_between hbefore hafter]
  exact hspelled.trimWhere_eq h.quotes

theorem not_mem
    (h : IsItemOf symbol item) :
    ',' ∉ item := by
  obtain ⟨before, spelled, after, rfl, hspelled, hbefore, hafter⟩ := h.written
  simp [not_mem_of_isBlank hbefore, hspelled.not_mem h.comma, not_mem_of_isBlank hafter]

end IsItemOf

/-- A group of items stands for the symbols that the items are written for, in order.  Any group has
one symbol more than commas. -/
theorem symbolsOf_group :
    (∀ symbols items : List (List Char), symbols ≠ [] → List.Forall₂ IsItemOf symbols items →
      symbolsOf (.text (String.ofList (groupText items))) = .ok (symbols.map String.ofList)) ∧
      ∀ body : List Char, ∃ symbols, symbolsOf (.text (String.ofList ('[' :: body ++ [']']))) =
        .ok symbols ∧ symbols.length = body.count ',' + 1 := by
  constructor
  · intro symbols items hne hitems
    have hitemsNe : items ≠ [] := by
      rintro rfl
      exact hne (List.forall₂_nil_right_iff.mp hitems)
    have hcommas : ∀ item ∈ items, ',' ∉ item := by
      intro item hitem
      obtain ⟨symbol, -, hsymbol⟩ := exists_of_mem_right hitems hitem
      exact hsymbol.not_mem
    have hdecoded : symbols.map String.ofList = items.map (String.ofList ∘ itemSymbol) :=
      map_eq_map_of_forall₂ (hitems.imp fun _ _ hitem => by rw [Function.comp, hitem.itemSymbol_eq])
    rw [symbolsOf_text, symbolsOfText_groupText_eq_map hitemsNe hcommas, List.map_map, hdecoded]
  · intro body
    have hbody : groupBody? ('[' :: body ++ [']']) = some body := by simp [groupBody?]
    exact ⟨_, symbolsOf_text _, by rw [List.length_map, length_symbolsOfText hbody]⟩

/-- A blank between quotes is a symbol, and so is nothing between quotes.  Brackets in a symbol, and
quotes inside it, are kept. -/
theorem symbolsOf_group_of_quoted_blank :
    let symbols : List (List Char) := [[' '], [], ['a', '\'', ']']]
    let items : List (List Char) :=
      [[' ', '\'', ' ', '\''], ['"', '"', '\t'], ['a', '\'', ']', ' ']]
    symbols ≠ [] ∧ List.Forall₂ IsItemOf symbols items ∧
      symbolsOf (.text (String.ofList (groupText items))) = .ok [" ", "", "a']"] := by
  intro symbols items
  have hspace : ∀ c ∈ [' '], isBlank c = true := List.forall_mem_singleton.mpr rfl
  have htab : ∀ c ∈ ['\t'], isBlank c = true := List.forall_mem_singleton.mpr rfl
  have hnone : ∀ c ∈ ([] : List Char), isBlank c = true := List.forall_mem_nil _
  have hblank : IsItemOf [' '] [' ', '\'', ' ', '\''] :=
    ⟨by decide, by decide, [' '], _, [], rfl, .single, hspace, hnone⟩
  have hempty : IsItemOf [] ['"', '"', '\t'] :=
    ⟨by decide, by decide, [], _, ['\t'], rfl, .double, hnone, htab⟩
  have hbare : IsItemOf ['a', '\'', ']'] ['a', '\'', ']', ' '] :=
    ⟨by decide, by decide, [], _, [' '], rfl, .bare (by decide) (by decide), hnone, hspace⟩
  have hitems : List.Forall₂ IsItemOf symbols items := .cons hblank (.cons hempty (.cons hbare .nil))
  exact ⟨by decide, hitems, symbolsOf_group.1 symbols items (by decide) hitems⟩

end Table

end RingTape
