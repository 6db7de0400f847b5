import RingTape.Proofs.Checked
import RingTape.Proofs.Program.Printable
import Mathlib.Data.List.Forall2
import Mathlib.Data.List.Sort

/-!
# Printing a program and reading it back

A ruleset is printed as a list of items: its initial state, its terminal states, its filler and its
rules.  When each of them is printable and none is misleading, the lines are read as the same items
again, and these make up the same ruleset.

A ruleset that was read from lines has printable items only.  Whether it is read back from its own
lines therefore depends on misleading rules alone: their lines are read as items of other kinds, and
nothing else in the program can make up for the rule that is lost.
-/

namespace RingTape

open Text

/-! ## Sets of names -/

/-- Sets with the same members are the same, since each lists its members in ascending order. -/
theorem NameSet.eq_of_mem_iff
    {s t : NameSet} (h : ∀ name, name ∈ s ↔ name ∈ t) :
    s = t := by
  have hnames : s.toList = t.toList := s.ascending.eq_of_mem_iff t.ascending h
  cases s
  cases t
  cases hnames
  rfl

theorem NameSet.ofList_toList
    (s : NameSet) :
    NameSet.ofList s.toList = s :=
  NameSet.eq_of_mem_iff fun _ => NameSet.mem_ofList

/-! ## Lines and items -/

namespace Program

/-- The lines say the items, one by one. -/
def Says (lines : List (List Char)) (items : List Item) : Prop :=
  List.Forall₂ (fun line item => Item.ofLine (dropLineEnd line) = .ok item) lines items

theorem says_of_items_eq_ok
    {number : Nat} {lines : List (List Char)} {found : List Item}
    (h : items number lines = .ok found) :
    Says lines found := by
  induction lines generalizing number found with
  | nil =>
      cases h
      exact .nil
  | cons line rest ih =>
      rw [items] at h
      cases hline : Item.ofLine (dropLineEnd line) with
      | error fault =>
          rw [hline] at h
          cases h
      | ok item =>
          simp only [hline] at h
          cases hrest : items (number + 1) rest with
          | error fault =>
              rw [hrest] at h
              cases h
          | ok others =>
              rw [hrest] at h
              cases h
              exact .cons hline (ih hrest)

theorem items_eq_ok
    {lines : List (List Char)} {found : List Item} (h : Says lines found) (number : Nat) :
    items number lines = .ok found := by
  induction h generalizing number with
  | nil => rfl
  | cons hline hrest ih =>
      rw [items]
      simp only [hline, ih]
      rfl

theorem assemble_eq_ok_iff
    {n : Nat} {found : List Item} {r : Ruleset} :
    assemble n found = .ok r ↔
      initialState? found = some r.initialState ∧ r.rules = rules found ∧
        r.terminalStates = .ofNames (terminals found) ∧ r.filler = filler? found ∧
        r.tapeSize = n := by
  rw [assemble]
  cases initialState? found with
  | none => simp
  | some state =>
      cases r
      simp only [Except.ok.injEq, Ruleset.mk.injEq, Option.some.injEq]
      constructor
      · rintro ⟨rfl, rfl, rfl, rfl, rfl⟩
        exact ⟨rfl, rfl, rfl, rfl, rfl⟩
      · rintro ⟨rfl, rfl, rfl, rfl, rfl⟩
        exact ⟨rfl, rfl, rfl, rfl, rfl⟩

/-- Lines are a program when they say items that make one up. -/
theorem parse_eq_ok_iff
    {size : Datum} {lines : List (List Char)} {r : Ruleset} :
    parse size lines = .ok r ↔
      ∃ n found, RingTape.tapeSize size = .ok n ∧ Says lines found ∧ assemble n found = .ok r := by
  rw [parse]
  cases hsize : RingTape.tapeSize size with
  | error fault => simp
  | ok n =>
      dsimp only
      constructor
      · intro h
        cases hitems : items 1 lines with
        | error fault =>
            rw [hitems] at h
            cases h
        | ok found =>
            rw [hitems] at h
            exact ⟨n, found, rfl, says_of_items_eq_ok hitems, h⟩
      · rintro ⟨n', found, hn, hsays, hassemble⟩
        cases hn
        rw [items_eq_ok hsays]
        exact hassemble

end Program

namespace Ruleset

/-- The items of a program in the order of its lines. -/
def items (r : Ruleset) : List Item :=
  (r.initialState.map Item.initial).toList ++ r.terminalStates.named.toList.map Item.terminal ++
    (r.filler.map Item.filler).toList ++ r.rules.map Item.rule

theorem mem_items
    {r : Ruleset} {i : Item} :
    i ∈ r.items ↔
      (∃ name, r.initialState = some name ∧ i = .initial name) ∨
        (∃ name ∈ r.terminalStates.named, i = .terminal name) ∨
        (∃ symbols, r.filler = some symbols ∧ i = .filler symbols) ∨
        ∃ rule ∈ r.rules, i = .rule rule := by
  simp [items, eq_comm]

/-- The lines that a ruleset has if its rules have directions: those of its items. -/
def written (r : Ruleset) : List (List Char) :=
  r.items.map Item.print

theorem Directed.print_eq
    {r : Ruleset} (h : r.Directed) :
    r.print = some r.written := by
  have hinitial : r.initialLines = (r.initialState.map Item.initial).toList.map Item.print := by
    rw [initialLines]
    cases r.initialState <;> rfl
  have hfiller : r.fillerLines = (r.filler.map Item.filler).toList.map Item.print := by
    rw [fillerLines]
    cases r.filler <;> rfl
  have hrules : r.rules.mapM Rule.print = some (r.rules.map Rule.written) :=
    (mapM_eq_of_forall₂ (List.forall₂_same.mpr fun rule hrule => (h rule hrule).print_eq)).trans
      List.mapM_pure
  rw [print, hrules, written, items, hinitial, hfiller]
  simp [Function.comp_def, Item.print]

/-- The items of a program make it up again, when the halt state is terminal and a program without
an initial state starts with a rule for none. -/
theorem assemble_items
    {r : Ruleset} (hhalt : r.terminalStates.halt = true)
    (hinitial : r.initialState = none → r.rules.head?.map (·.currentState) = some none) :
    Program.assemble r.tapeSize r.items = .ok r := by
  have hrules : Program.rules r.items = r.rules := by
    unfold Program.rules items
    cases r.initialState <;> cases r.filler <;> simp [List.filterMap_map]
  have hterminals : Program.terminals r.items = r.terminalStates.named.toList := by
    unfold Program.terminals items
    cases r.initialState <;> cases r.filler <;> simp [List.filterMap_map]
  have hfiller : Program.filler? r.items = r.filler := by
    unfold Program.filler? Program.fillers items
    cases r.initialState <;> cases r.filler <;> simp [List.filterMap_map]
  have hstate : Program.initialState? r.items = some r.initialState := by
    rw [Program.initialState?, hrules]
    cases hi : r.initialState with
    | some name => simp [Program.initial?, items, hi]
    | none =>
        have hnone : Program.initial? r.items = none := by
          rw [Program.initial?, List.findSome?_eq_none_iff]
          intro i hmem
          rcases mem_items.mp hmem with ⟨name, hname, -⟩ | ⟨_, _, rfl⟩ | ⟨_, _, rfl⟩ | ⟨_, _, rfl⟩
          · rw [hi] at hname
            cases hname
          · rfl
          · rfl
          · rfl
        rw [hnone]
        exact hinitial hi
  rw [Program.assemble_eq_ok_iff]
  refine ⟨hstate, hrules.symm, ?_, hfiller.symm, rfl⟩
  rw [hterminals, TerminalStates.ofNames, NameSet.ofList_toList, ← hhalt]

/-- A ruleset that its lines could tell, if none of its rules were misleading. -/
structure Printable (r : Ruleset) : Prop where
  items : ∀ i ∈ r.items, i.Printable
  halt : r.terminalStates.halt = true
  initial : r.initialState = none → r.rules.head?.map (·.currentState) = some none

theorem Printable.directed
    {r : Ruleset} (h : r.Printable) :
    r.Directed :=
  fun rule hrule =>
    (h.items (.rule rule) (mem_items.mpr (.inr (.inr (.inr ⟨rule, hrule, rfl⟩))))).2

/-- A printable ruleset without misleading rules is read back from its lines. -/
theorem Printable.parse_written
    {r : Ruleset} (h : r.Printable) {size : Datum} (hsize : RingTape.tapeSize size = .ok r.tapeSize)
    (hrules : ∀ rule ∈ r.rules, ¬ StartsWithMark rule.currentState) :
    Program.parse size r.written = .ok r := by
  rw [Program.parse_eq_ok_iff]
  refine ⟨r.tapeSize, r.items, hsize, ?_, assemble_items h.halt h.initial⟩
  rw [Program.Says, written, List.forall₂_map_left_iff, List.forall₂_same]
  intro i hi
  refine Item.ofLine_print (h.items i hi) fun hmislead => ?_
  rcases mem_items.mp hi with ⟨_, _, rfl⟩ | ⟨_, _, rfl⟩ | ⟨_, _, rfl⟩ | ⟨rule, hrule, rfl⟩
  · exact hmislead
  · exact hmislead
  · exact hmislead
  · exact hrules rule hrule hmislead

end Ruleset

namespace Program

theorem Says.printable
    {lines : List (List Char)} {found : List Item} (h : Says lines found) :
    ∀ i ∈ found, i.Printable := by
  induction h with
  | nil => simp
  | cons hline hrest ih =>
      rw [List.forall_mem_cons]
      exact ⟨Item.printable_of_ofLine hline, ih⟩

theorem mem_rules
    {found : List Item} {r : Rule} :
    r ∈ rules found ↔ .rule r ∈ found := by
  rw [rules, List.mem_filterMap]
  constructor
  · rintro ⟨i, hi, hr⟩
    cases i <;> cases hr
    exact hi
  · intro hr
    exact ⟨.rule r, hr, rfl⟩

theorem mem_terminals
    {found : List Item} {name : String} :
    name ∈ terminals found ↔ .terminal name ∈ found := by
  rw [terminals, List.mem_filterMap]
  constructor
  · rintro ⟨i, hi, hname⟩
    cases i <;> cases hname
    exact hi
  · intro hname
    exact ⟨.terminal name, hname, rfl⟩

theorem mem_fillers
    {found : List Item} {symbols : List Symbol} :
    symbols ∈ fillers found ↔ .filler symbols ∈ found := by
  rw [fillers, List.mem_filterMap]
  constructor
  · rintro ⟨i, hi, hsymbols⟩
    cases i <;> cases hsymbols
    exact hi
  · intro hsymbols
    exact ⟨.filler symbols, hsymbols, rfl⟩

theorem mem_of_initial?
    {found : List Item} {name : String} (h : initial? found = some name) :
    .initial name ∈ found := by
  rw [initial?] at h
  obtain ⟨i, hi, hname⟩ := List.exists_of_findSome?_eq_some h
  cases i <;> cases hname
  exact hi

theorem printable_filler
    {found : List Item} (hfound : ∀ i ∈ found, i.Printable)
    {symbols : List Symbol} (h : filler? found = some symbols) :
    (Item.filler symbols).Printable := by
  have hfillers : ∀ part ∈ fillers found, (Item.filler part).Printable :=
    fun part hpart => hfound _ (mem_fillers.mp hpart)
  rw [filler?] at h
  split at h
  · cases h
  · next hne =>
      cases h
      constructor
      · obtain ⟨part, others, hparts⟩ := List.exists_cons_of_ne_nil hne
        rw [hparts] at hfillers ⊢
        simp [(hfillers part List.mem_cons_self).1]
      · intro s hs
        obtain ⟨part, hpart, hs⟩ := List.mem_flatten.mp hs
        exact (hfillers part hpart).2 s hs

/-- Whatever is read from lines has printable items. -/
theorem printable_of_parse
    {size : Datum} {lines : List (List Char)} {r : Ruleset} (h : parse size lines = .ok r) :
    r.Printable ∧ RingTape.tapeSize size = .ok r.tapeSize := by
  obtain ⟨n, found, hsize, hsays, hassemble⟩ := parse_eq_ok_iff.mp h
  have hfound := hsays.printable
  obtain ⟨hstate, hrules, hterminals, hfiller, rfl⟩ := assemble_eq_ok_iff.mp hassemble
  refine ⟨⟨?_, by rw [hterminals]; rfl, ?_⟩, hsize⟩
  · intro i hi
    rcases Ruleset.mem_items.mp hi with ⟨name, hname, rfl⟩ | ⟨name, hname, rfl⟩ |
      ⟨symbols, hsymbols, rfl⟩ | ⟨rule, hrule, rfl⟩
    · rw [hname, initialState?] at hstate
      split at hstate
      · next found' hinitial =>
          cases hstate
          exact hfound _ (mem_of_initial? hinitial)
      · obtain ⟨rule, hrule, hcurrent⟩ := Option.map_eq_some_iff.mp hstate
        have hprintable := hfound _ (mem_rules.mp (List.mem_of_mem_head? hrule))
        have hplain := hprintable.1 _ List.mem_cons_self
        rw [hcurrent] at hplain
        exact hplain.isPhrase
    · rw [hterminals, TerminalStates.ofNames, NameSet.mem_ofList] at hname
      exact hfound _ (mem_terminals.mp hname)
    · rw [hfiller] at hsymbols
      exact printable_filler hfound hsymbols
    · rw [hrules] at hrule
      exact hfound _ (mem_rules.mp hrule)
  · intro hnone
    rw [hnone, initialState?] at hstate
    split at hstate
    · cases hstate
    · rw [hrules]
      exact hstate

/-! ## Rules that are lost -/

/-- A line that begins with a mark says no rule. -/
theorem not_rule_of_isMarked
    {line : List Char} (h : IsMarked line) {r : Rule} :
    Item.ofLine (dropLineEnd line) ≠ .ok (.rule r) := by
  intro hrule
  obtain ⟨mark, hmark, hhead⟩ := h
  obtain ⟨rest, rfl⟩ := List.head?_eq_some_iff.mp hhead
  have hmarks : ∀ mark ∈ itemMarks, isReturnOrFeed mark = false ∧
      ∀ rest, LineKind.ofLine (mark :: rest) ≠ .rule := by
    simp only [itemMarks, List.forall_mem_cons]
    refine ⟨⟨rfl, ?_⟩, ⟨rfl, ?_⟩, ⟨rfl, ?_⟩, by simp⟩
    all_goals
      intro rest hline
      cases hline
  obtain ⟨hkeep, hkind⟩ := hmarks mark hmark
  rw [dropLineEnd, dropWhileEnd_cons_of_neg hkeep] at hrule
  cases Item.saidBy_of_ofLine hrule with
  | rule hline _ _ => exact hkind _ hline

theorem length_rules_cons_of_ne
    {i : Item} (h : ∀ r, i ≠ .rule r) (others : List Item) :
    rules (i :: others) = rules others := by
  cases i with
  | rule r => exact absurd rfl (h r)
  | remark | terminal _ | initial _ | filler _ => rfl

/-- Lines say at most as many rules as there are lines that begin with no mark. -/
theorem Says.length_rules_le
    {lines : List (List Char)} {found : List Item} (h : Says lines found) :
    (rules found).length ≤ lines.countP fun line => ¬ IsMarked line := by
  induction h with
  | nil => exact Nat.zero_le _
  | @cons line item rest others hline hrest ih =>
      rw [List.countP_cons]
      by_cases hmarked : IsMarked line
      · have hne : ∀ r, item ≠ .rule r := by
          rintro r rfl
          exact not_rule_of_isMarked hmarked hline
        rw [length_rules_cons_of_ne hne]
        exact Nat.le_add_right_of_le ih
      · have hcons : (rules (item :: others)).length ≤ (rules others).length + 1 := by
          rw [rules, List.filterMap_cons]
          split
          · exact Nat.le_succ _
          · exact le_rfl
        simp only [hmarked, not_false_eq_true, decide_true, if_true]
        omega

/-- Only rules have lines that begin with no mark. -/
theorem countP_written
    {r : Ruleset} (h : r.Printable) :
    (r.written.countP fun line => ¬ IsMarked line) =
      r.rules.countP fun rule => ¬ StartsWithMark rule.currentState := by
  have hrules : ∀ rule ∈ r.rules, (IsMarked rule.written ↔ StartsWithMark rule.currentState) := by
    intro rule hrule
    have hprintable := h.items _ (Ruleset.mem_items.mpr (.inr (.inr (.inr ⟨rule, hrule, rfl⟩))))
    rw [StartsWithMark, IsMarked, IsMarked,
      Item.head?_written (hprintable.1 _ List.mem_cons_self).1]
  have hothers : ∀ i : Item, (∀ rule, i ≠ .rule rule) → i ≠ .remark → IsMarked i.print := by
    intro i hne hremark
    cases i with
    | remark => exact absurd rfl hremark
    | rule rule => exact absurd rfl (hne rule)
    | terminal _ | initial _ | filler _ => simp [Item.print, itemMarks]
  have hinitial : ∀ i ∈ (r.initialState.map Item.initial).toList, IsMarked i.print := by
    simp +contextual [hothers]
  have hterminals : ∀ i ∈ r.terminalStates.named.toList.map Item.terminal, IsMarked i.print := by
    simp +contextual [hothers]
  have hfiller : ∀ i ∈ (r.filler.map Item.filler).toList, IsMarked i.print := by
    simp +contextual [hothers]
  rw [Ruleset.written, List.countP_map, Ruleset.items, List.countP_append, List.countP_append,
    List.countP_append,
    List.countP_eq_zero.mpr (by simpa using hinitial),
    List.countP_eq_zero.mpr (by simpa using hterminals),
    List.countP_eq_zero.mpr (by simpa using hfiller), List.countP_map]
  simp only [Nat.zero_add]
  exact List.countP_congr fun rule hrule => by simp [Item.print, hrules rule hrule]

/-- A program with a misleading rule is not read back from its lines. -/
theorem parse_written_ne_of_startsWithMark
    {r : Ruleset} (h : r.Printable) {rule : Rule} (hrule : rule ∈ r.rules)
    (hmark : StartsWithMark rule.currentState) (size : Datum) :
    parse size r.written ≠ .ok r := by
  intro hparse
  obtain ⟨n, found, -, hsays, hassemble⟩ := parse_eq_ok_iff.mp hparse
  obtain ⟨-, hrules, -⟩ := assemble_eq_ok_iff.mp hassemble
  have hle := hsays.length_rules_le
  rw [countP_written h, ← hrules] at hle
  have hall := List.countP_eq_length.mp (le_antisymm List.countP_le_length hle)
  simpa [hmark] using hall rule hrule

/-- A program that was read from lines has lines of its own, and it is read back from them exactly
when no rule of it starts in a state that begins like a line of another kind. -/
theorem parse_print_eq_ok_iff
    {size : Datum} {lines : List (List Char)} {r : Ruleset} (h : parse size lines = .ok r) :
    ∃ printed, r.print = some printed ∧
      (parse size printed = .ok r ↔ ∀ rule ∈ r.rules, ¬ StartsWithMark rule.currentState) := by
  obtain ⟨hprintable, hsize⟩ := printable_of_parse h
  refine ⟨_, hprintable.directed.print_eq, ?_, hprintable.parse_written hsize⟩
  intro hparse rule hrule hmark
  exact parse_written_ne_of_startsWithMark hprintable hrule hmark size hparse

/-- A program with an indented rule, inner blanks in its states, comments and two fillers. -/
theorem parse_print_indented_rule :
    ∃ r, parse (.int 5) ["  a #b ! c R ; note".toList, "@x !".toList, "#u  v;".toList,
        "@ ~".toList, "~ s t ".toList] = .ok r ∧
      ∃ printed, r.print = some printed ∧ parse (.int 5) printed = .ok r := by
  refine ⟨⟨[⟨some "a", some "#b", none, some "c", .toward .right⟩], some "s t",
    .ofNames ["u  v"], some [some "x", none, some "~"], 5⟩, ?_⟩
  have h : parse (.int 5) ["  a #b ! c R ; note".toList, "@x !".toList, "#u  v;".toList,
      "@ ~".toList, "~ s t ".toList] = .ok ⟨[⟨some "a", some "#b", none, some "c", .toward .right⟩],
        some "s t", .ofNames ["u  v"], some [some "x", none, some "~"], 5⟩ := by
    rfl
  obtain ⟨printed, hprint, hback⟩ := parse_print_eq_ok_iff h
  exact ⟨h, printed, hprint, hback.mpr (by decide)⟩

/-- Behind a blank a rule may start in a state that begins like a terminal state, and the printed
line is read as one. -/
theorem exists_parse_print_ne :
    ∃ r printed, parse (.int 3) [" #a b x y R".toList] = .ok r ∧ r.print = some printed ∧
      parse (.int 3) printed ≠ .ok r := by
  refine ⟨⟨[⟨some "#a", some "b", some "x", some "y", .toward .right⟩], some "#a", .ofNames [],
    none, 3⟩, ["~#a".toList, "#a b x y R".toList], ?_⟩
  have h : parse (.int 3) [" #a b x y R".toList] =
      .ok ⟨[⟨some "#a", some "b", some "x", some "y", .toward .right⟩], some "#a", .ofNames [],
        none, 3⟩ := by
    rfl
  exact ⟨h, by rfl, parse_written_ne_of_startsWithMark (printable_of_parse h).1 List.mem_cons_self
    (by decide) (.int 3)⟩

end Program

end RingTape
