import RingTape.Proofs.Checked
import RingTape.Proofs.Program.Line
import RingTape.Proofs.Program.RoundTrip

/-!
# What the lines of a program say together

A program is read from its first line to its last.  This module says what is read without following
that order: when lines are a program, and which ruleset they describe, kind by kind.

No kind looks at the lines of another, and the terminal states are a set.  So lines may change their
places as long as the rules, the fillers and the initial states each keep their order.
-/

namespace RingTape

open Text

namespace Program

/-! ## Programs by kind -/

/-- The lines of a kind, without their ends. -/
def linesOf (kind : LineKind) (lines : List (List Char)) : List (List Char) :=
  (lines.map dropLineEnd).filter fun line => LineKind.ofLine line = kind

/-- The rule lines that hold more than a comment, without their ends. -/
def ruleLines (lines : List (List Char)) : List (List Char) :=
  (lines.map dropLineEnd).filter fun line => LineKind.ofLine line = .rule ∧ content line ≠ []

/-- Every line says something that its kind allows, and some line tells the initial state. -/
structure WellFormed (lines : List (List Char)) : Prop where
  terminals : ∀ line ∈ linesOf .terminal lines, body line ≠ []
  initials : ∀ line ∈ linesOf .initial lines, body line ≠ []
  fillers : ∀ line ∈ linesOf .filler lines, symbols line ≠ []
  rules : ∀ line ∈ ruleLines lines, ∃ r, Rule.parse (content line) = .ok r
  start : linesOf .initial lines ≠ [] ∨ ruleLines lines ≠ []

/-- The ruleset is what the lines say together, for a tape of the given size. -/
structure Describes (size : Nat) (lines : List (List Char)) (r : Ruleset) : Prop where
  rules : List.Forall₂ (fun line rule => Rule.parse (content line) = .ok rule)
    (ruleLines lines) r.rules
  halt : r.terminalStates.halt = true
  terminals : ∀ name, name ∈ r.terminalStates.named ↔
    ∃ line ∈ linesOf .terminal lines, name = String.ofList (body line)
  filler : r.filler = if linesOf .filler lines = [] then none
    else some ((linesOf .filler lines).flatMap symbols)
  /-- The first declaration counts, wherever it stands. -/
  declared : ∀ line ∈ (linesOf .initial lines).head?,
    r.initialState = some (String.ofList (body line))
  undeclared : linesOf .initial lines = [] →
    r.rules.head?.map (·.currentState) = some r.initialState
  tapeSize : r.tapeSize = size

theorem mem_linesOf
    {kind : LineKind} {lines : List (List Char)} {line : List Char} :
    line ∈ linesOf kind lines ↔
      (∃ raw ∈ lines, dropLineEnd raw = line) ∧ LineKind.ofLine line = kind := by
  simp [linesOf]

theorem mem_ruleLines
    {lines : List (List Char)} {line : List Char} :
    line ∈ ruleLines lines ↔
      (∃ raw ∈ lines, dropLineEnd raw = line) ∧ LineKind.ofLine line = .rule ∧
        content line ≠ [] := by
  simp [ruleLines]

/-- Lines describe one ruleset at most. -/
theorem Describes.unique
    {size : Nat} {lines : List (List Char)} {r r' : Ruleset} (h : Describes size lines r)
    (h' : Describes size lines r') :
    r = r' := by
  have hrules : r.rules = r'.rules := by
    apply List.right_unique_forall₂' _ h.rules h'.rules
    intro line rule rule' hrule hrule'
    exact Except.ok.inj (hrule.symm.trans hrule')
  have hterminals : r.terminalStates = r'.terminalStates := by
    have hnamed : r.terminalStates.named = r'.terminalStates.named := by
      apply NameSet.eq_of_mem_iff
      intro name
      rw [h.terminals name, h'.terminals name]
    have hhalt : r.terminalStates.halt = r'.terminalStates.halt := h.halt.trans h'.halt.symm
    cases hr : r.terminalStates
    cases hr' : r'.terminalStates
    rw [hr, hr'] at hnamed hhalt
    simp only [TerminalStates.mk.injEq]
    exact ⟨hhalt, hnamed⟩
  have hinitial : r.initialState = r'.initialState := by
    cases hlines : linesOf .initial lines with
    | nil =>
        have htaken := h.undeclared hlines
        rw [hrules, h'.undeclared hlines] at htaken
        exact (Option.some.inj htaken).symm
    | cons line others =>
        have hhead : line ∈ (linesOf .initial lines).head? := by
          rw [hlines]
          exact rfl
        rw [h.declared line hhead, h'.declared line hhead]
  have hfiller : r.filler = r'.filler := h.filler.trans h'.filler.symm
  have hsize : r.tapeSize = r'.tapeSize := h.tapeSize.trans h'.tapeSize.symm
  cases r
  cases r'
  simp only [Ruleset.mk.injEq]
  exact ⟨hrules, hinitial, hterminals, hfiller, hsize⟩

/-! ## Reading line by line -/

section Says

variable {lines : List (List Char)} {found : List Item}

/-- What is picked from the items of some lines comes from the lines that are kept, one by one. -/
theorem Says.forall₂_filter
    {β : Type} {keep : List Char → Bool} {pick : Item → Option β} {R : List Char → β → Prop}
    (h : Says lines found)
    (hpick : ∀ line i, Item.SaidBy line i →
      if keep line then ∃ b, pick i = some b ∧ R line b else pick i = none) :
    List.Forall₂ R ((lines.map dropLineEnd).filter keep) (found.filterMap pick) := by
  induction h with
  | nil => exact .nil
  | @cons line i rest others hline hrest ih =>
      have hline := hpick _ i (Item.saidBy_of_ofLine hline)
      rw [List.map_cons, List.filter_cons, List.filterMap_cons]
      by_cases hkeep : keep (dropLineEnd line) = true
      · rw [if_pos hkeep] at hline ⊢
        obtain ⟨b, hb, hR⟩ := hline
        rw [hb]
        exact .cons hR ih
      · rw [if_neg hkeep] at hline ⊢
        rw [hline]
        exact ih

theorem Says.terminals_eq
    (h : Says lines found) :
    terminals found = (linesOf .terminal lines).map fun line => String.ofList (body line) := by
  apply eq_map_of_forall₂
  apply h.forall₂_filter
  intro line i hi
  cases hi <;> simp_all

theorem Says.fillers_eq
    (h : Says lines found) :
    fillers found = (linesOf .filler lines).map symbols := by
  apply eq_map_of_forall₂
  apply h.forall₂_filter
  intro line i hi
  cases hi <;> simp_all

theorem Says.initial?_eq
    (h : Says lines found) :
    initial? found = (linesOf .initial lines).head?.map fun line => String.ofList (body line) := by
  rw [initial?, ← List.head?_filterMap, ← List.head?_map]
  congr 1
  apply eq_map_of_forall₂
  apply h.forall₂_filter
  intro line i hi
  cases hi <;> simp_all

theorem Says.forall₂_rules
    (h : Says lines found) :
    List.Forall₂ (fun line rule => Rule.parse (content line) = .ok rule) (ruleLines lines)
      (rules found) := by
  apply h.forall₂_filter
  intro line i hi
  cases hi <;> simp_all

end Says

/-- Lines say items when none of them is malformed. -/
theorem exists_says_iff
    {lines : List (List Char)} :
    (∃ found, Says lines found) ↔ ∀ line ∈ lines, ¬ Malformed (dropLineEnd line) := by
  simp only [not_malformed_iff]
  exact exists_forall₂_iff

theorem WellFormed.not_malformed
    {lines : List (List Char)} (h : WellFormed lines) :
    ∀ line ∈ lines, ¬ Malformed (dropLineEnd line) := by
  rintro line hline ⟨fault, hfault⟩
  have hmem : ∃ raw ∈ lines, dropLineEnd raw = dropLineEnd line := ⟨line, hline, rfl⟩
  have hrule : LineKind.ofLine (dropLineEnd line) = .rule → content (dropLineEnd line) = [] := by
    intro hkind
    by_contra hne
    obtain ⟨r, hr⟩ := h.rules _ (mem_ruleLines.mpr ⟨hmem, hkind, hne⟩)
    have hsaid := (Item.SaidBy.rule hkind hne hr).ofLine_eq_ok
    rw [hfault.ofLine_eq_error] at hsaid
    cases hsaid
  cases hfault with
  | terminal hkind hnil => exact h.terminals _ (mem_linesOf.mpr ⟨hmem, hkind⟩) hnil
  | initial hkind hnil => exact h.initials _ (mem_linesOf.mpr ⟨hmem, hkind⟩) hnil
  | filler hkind hnil => exact h.fillers _ (mem_linesOf.mpr ⟨hmem, hkind⟩) hnil
  | fieldCount hkind hne _ => exact hne (hrule hkind)
  | direction hkind hne _ _ => exact hne (hrule hkind)

theorem Says.saidBy_of_mem_linesOf
    {lines : List (List Char)} {found : List Item} (h : Says lines found) {kind : LineKind}
    {line : List Char} (hline : line ∈ linesOf kind lines) :
    LineKind.ofLine line = kind ∧ ∃ i, Item.SaidBy line i := by
  obtain ⟨⟨raw, hraw, rfl⟩, hkind⟩ := mem_linesOf.mp hline
  obtain ⟨i, -, hi⟩ := exists_of_mem_left h hraw
  exact ⟨hkind, i, Item.saidBy_of_ofLine hi⟩

/-- The items of some lines tell the initial state when there is a line to tell it. -/
theorem Says.initialState?_ne_none_iff
    {lines : List (List Char)} {found : List Item} (h : Says lines found) :
    initialState? found ≠ none ↔ linesOf .initial lines ≠ [] ∨ ruleLines lines ≠ [] := by
  have hlength : (rules found).length = (ruleLines lines).length := h.forall₂_rules.length_eq.symm
  rw [initialState?, h.initial?_eq]
  cases linesOf .initial lines with
  | nil => simp [← List.length_eq_zero_iff, hlength]
  | cons line others => simp

theorem Says.wellFormed
    {lines : List (List Char)} {found : List Item} (h : Says lines found)
    (hstart : initialState? found ≠ none) :
    WellFormed lines where
  terminals := by
    intro line hline
    obtain ⟨hkind, i, hi⟩ := h.saidBy_of_mem_linesOf hline
    cases hi <;> simp_all
  initials := by
    intro line hline
    obtain ⟨hkind, i, hi⟩ := h.saidBy_of_mem_linesOf hline
    cases hi <;> simp_all
  fillers := by
    intro line hline
    obtain ⟨hkind, i, hi⟩ := h.saidBy_of_mem_linesOf hline
    cases hi <;> simp_all
  rules := by
    intro line hline
    obtain ⟨r, -, hr⟩ := exists_of_mem_left h.forall₂_rules hline
    exact ⟨r, hr⟩
  start := h.initialState?_ne_none_iff.mp hstart

theorem Says.describes
    {lines : List (List Char)} {found : List Item} (h : Says lines found) {n : Nat} {r : Ruleset}
    (hassemble : assemble n found = .ok r) :
    Describes n lines r := by
  obtain ⟨hstate, hrules, hterminals, hfiller, hsize⟩ := assemble_eq_ok_iff.mp hassemble
  rw [initialState?, h.initial?_eq] at hstate
  refine ⟨hrules ▸ h.forall₂_rules, ?_, ?_, ?_, ?_, ?_, hsize⟩
  · rw [hterminals]
    rfl
  · intro name
    rw [hterminals, TerminalStates.ofNames, NameSet.mem_ofList, h.terminals_eq]
    simp [eq_comm]
  · rw [hfiller, filler?, h.fillers_eq]
    cases linesOf .filler lines with
    | nil => rfl
    | cons line others => simp [List.flatMap]
  · intro line hline
    rw [Option.mem_def.mp hline] at hstate
    exact (Option.some.inj hstate).symm
  · intro hnone
    rw [hnone] at hstate
    rw [hrules]
    exact hstate

/-- Lines that say items are a program when one of them tells the initial state. -/
theorem Says.exists_parse
    {lines : List (List Char)} {found : List Item} (h : Says lines found) {size : Datum} {n : Nat}
    (hsize : RingTape.tapeSize size = .ok n)
    (hstart : linesOf .initial lines ≠ [] ∨ ruleLines lines ≠ []) :
    ∃ r, parse size lines = .ok r := by
  obtain ⟨state, hstate⟩ :=
    Option.ne_none_iff_exists'.mp (h.initialState?_ne_none_iff.mpr hstart)
  have hassemble : ∃ r, assemble n found = .ok r := by
    rw [assemble, hstate]
    exact ⟨_, rfl⟩
  obtain ⟨r, hr⟩ := hassemble
  exact ⟨r, parse_eq_ok_iff.mpr ⟨n, found, hsize, h, hr⟩⟩

theorem WellFormed.exists_parse
    {lines : List (List Char)} (h : WellFormed lines) {n : Nat} (hn : 0 < n) :
    ∃ r, parse (.int n) lines = .ok r := by
  obtain ⟨found, hsays⟩ := exists_says_iff.mpr h.not_malformed
  exact hsays.exists_parse (tapeSize_natCast hn) h.start

theorem wellFormed_and_describes_of_parse
    {lines : List (List Char)} {n : Nat} (hn : 0 < n) {r : Ruleset}
    (h : parse (.int n) lines = .ok r) :
    WellFormed lines ∧ Describes n lines r := by
  obtain ⟨n', found, hsize, hsays, hassemble⟩ := parse_eq_ok_iff.mp h
  rw [tapeSize_natCast hn] at hsize
  cases hsize
  obtain ⟨hstate, -⟩ := assemble_eq_ok_iff.mp hassemble
  have hwell := hsays.wellFormed (by simp [hstate])
  exact ⟨hwell, hsays.describes hassemble⟩

theorem parse_eq_ok_iff_describes
    {lines : List (List Char)} {n : Nat} (hn : 0 < n) {r : Ruleset} :
    parse (.int n) lines = .ok r ↔ WellFormed lines ∧ Describes n lines r := by
  constructor
  · exact wellFormed_and_describes_of_parse hn
  · rintro ⟨hwell, hdescribes⟩
    obtain ⟨r', hr'⟩ := hwell.exists_parse hn
    -- what is read is described as well, and nothing else is
    have hdescribes' := (wellFormed_and_describes_of_parse hn hr').2
    rw [hdescribes.unique hdescribes']
    exact hr'

/-! ## Reading in another order -/

/-- The same lines in an order that differs only between kinds, or among terminal states. -/
structure Rearranges (lines lines' : List (List Char)) : Prop where
  perm : lines.Perm lines'
  initials : linesOf .initial lines = linesOf .initial lines'
  fillers : linesOf .filler lines = linesOf .filler lines'
  rules : ruleLines lines = ruleLines lines'

namespace Rearranges

variable {lines lines' : List (List Char)}

theorem symm
    (h : Rearranges lines lines') :
    Rearranges lines' lines :=
  ⟨h.perm.symm, h.initials.symm, h.fillers.symm, h.rules.symm⟩

theorem mem_terminals_iff
    (h : Rearranges lines lines') {line : List Char} :
    line ∈ linesOf .terminal lines ↔ line ∈ linesOf .terminal lines' :=
  ((h.perm.map dropLineEnd).filter _).mem_iff

theorem wellFormed
    (h : Rearranges lines lines') (hwell : WellFormed lines) :
    WellFormed lines' where
  terminals := by
    intro line hline
    exact hwell.terminals line (h.mem_terminals_iff.mpr hline)
  initials := h.initials ▸ hwell.initials
  fillers := h.fillers ▸ hwell.fillers
  rules := h.rules ▸ hwell.rules
  start := h.initials ▸ h.rules ▸ hwell.start

theorem describes
    (h : Rearranges lines lines') {n : Nat} {r : Ruleset} (hdescribes : Describes n lines r) :
    Describes n lines' r where
  rules := h.rules ▸ hdescribes.rules
  halt := hdescribes.halt
  terminals := by
    intro name
    rw [hdescribes.terminals name]
    simp only [h.mem_terminals_iff]
  filler := h.fillers ▸ hdescribes.filler
  declared := h.initials ▸ hdescribes.declared
  undeclared := h.initials ▸ hdescribes.undeclared
  tapeSize := hdescribes.tapeSize

theorem parse_eq_ok
    (h : Rearranges lines lines') {n : Nat} (hn : 0 < n) {r : Ruleset}
    (hparse : parse (.int n) lines = .ok r) :
    parse (.int n) lines' = .ok r := by
  obtain ⟨hwell, hdescribes⟩ := wellFormed_and_describes_of_parse hn hparse
  exact (parse_eq_ok_iff_describes hn).mpr ⟨h.wellFormed hwell, h.describes hdescribes⟩

end Rearranges

/-- Lines are read exactly when each keeps to its kind and one tells the initial state.  What is
read is then described kind by kind, so that it does not depend on how the kinds are mixed. -/
theorem parse_reads_by_kind
    {n : Nat} (hn : 0 < n) (lines : List (List Char)) :
    ((∃ r, parse (.int n) lines = .ok r) ↔ WellFormed lines) ∧
      (WellFormed lines → ∀ r, parse (.int n) lines = .ok r ↔ Describes n lines r) ∧
      ∀ lines', Rearranges lines lines' →
        ∀ r, parse (.int n) lines' = .ok r ↔ parse (.int n) lines = .ok r := by
  refine ⟨⟨?_, fun hwell => hwell.exists_parse hn⟩, ?_, ?_⟩
  · rintro ⟨r, hr⟩
    exact (wellFormed_and_describes_of_parse hn hr).1
  · intro hwell r
    rw [parse_eq_ok_iff_describes hn]
    exact and_iff_right hwell
  · intro lines' hrearranges r
    exact ⟨hrearranges.symm.parse_eq_ok hn, hrearranges.parse_eq_ok hn⟩

/-- The first of two initial states counts behind the rules as well, and the fillers are joined over
a terminal state between them. -/
theorem parse_reads_by_kind_of_mixed_lines :
    ∃ r, r.initialState = some "s" ∧ r.filler = some [some "x", none, some "y"] ∧
      parse (.int 4) ["~s".toList, "@x !".toList, "@ y".toList, "#v".toList, "~t".toList,
        "a b ! c R;".toList, "#u".toList] = .ok r ∧
      parse (.int 4) ["a b ! c R;".toList, "@x !".toList, "#u".toList, "@ y".toList, "~s".toList,
        "~t".toList, "#v".toList] = .ok r := by
  let lines := ["~s".toList, "@x !".toList, "@ y".toList, "#v".toList, "~t".toList,
    "a b ! c R;".toList, "#u".toList]
  let lines' := ["a b ! c R;".toList, "@x !".toList, "#u".toList, "@ y".toList, "~s".toList,
    "~t".toList, "#v".toList]
  have hrearranges : Rearranges lines lines' :=
    ⟨by decide, by decide, by decide, by decide⟩
  have hparse : parse (.int 4) lines = .ok ⟨[⟨some "a", some "b", none, some "c",
      .toward .right⟩], some "s", .ofNames ["v", "u"], some [some "x", none, some "y"], 4⟩ := by
    rfl
  have hread := (parse_reads_by_kind (by decide : 0 < 4) lines).2.2 lines' hrearranges
  exact ⟨_, rfl, rfl, hparse, (hread _).mpr hparse⟩

end Program

end RingTape
