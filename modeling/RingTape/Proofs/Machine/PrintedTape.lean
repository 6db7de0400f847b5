import RingTape.Proofs.Launch.Load
import RingTape.Proofs.Table.RoundTrip
import RingTape.Yaml.Value

/-!
# Tapes in a line

A tape is shown as a line: its cells with spaces between them, and a placeholder for the blank ones.
The line alone does not tell the tape, as a symbol might hold a space or be empty.  No symbol does
on the tapes of a machine whose ruleset has been read: the words of a program and the checked
symbols of a table are all that its filler and its rules can put there, and a step puts nothing else
there.  So the line can be cut at its spaces, and it is the line of one tape only.
-/

namespace RingTape

open Text

/-! ## Tapes of words -/

/-- The cells are blank or hold words. -/
def Tape.HoldsWords (t : Tape) : Prop :=
  ∀ name, some name ∈ t → IsWord name.toList

theorem Tape.holdsWords_iff
    {t : Tape} :
    t.HoldsWords ↔ ∀ symbol ∈ t, symbol = none ∨
      ∃ name, symbol = some name ∧ name ≠ "" ∧ ∀ c ∈ name.toList, isBlank c = false := by
  constructor
  · intro h symbol hsymbol
    cases symbol with
    | none => exact .inl rfl
    | some name =>
        obtain ⟨hne, hchars⟩ := h name hsymbol
        exact .inr ⟨name, rfl, ne_empty_iff.mpr hne, hchars⟩
  · intro h name hname
    rcases h (some name) hname with hnone | ⟨other, hother, hne, hchars⟩
    · cases hnone
    · obtain rfl := Option.some.inj hother
      exact ⟨ne_empty_iff.mp hne, hchars⟩

namespace Ruleset

/-- All that the ruleset can put on a tape are blanks and words. -/
structure WritesWords (r : Ruleset) : Prop where
  filler : ∀ pattern ∈ r.filler, Tape.HoldsWords pattern
  rules : ∀ rule ∈ r.rules, ∀ name, rule.nextValue = some name → IsWord name.toList

/-- The ruleset is read from the lines of a program or from the text of a table. -/
inductive IsRead (r : Ruleset) : Prop
  | program {size : Datum} {lines : List (List Char)} : Program.parse size lines = .ok r → IsRead r
  | table {loader : Yaml.Loader} {size : Datum} {text : List Char} :
      Table.parse loader size text = .ok r → IsRead r

theorem Printable.writesWords
    {r : Ruleset} (h : r.Printable) :
    r.WritesWords := by
  constructor
  case filler =>
    intro pattern hpattern name hname
    have hitem : Item.filler pattern ∈ r.items :=
      mem_items.mpr (.inr (.inr (.inl ⟨pattern, hpattern, rfl⟩)))
    exact ((h.items _ hitem).2 (some name) hname).1.1
  case rules =>
    intro rule hrule name hname
    have hitem : Item.rule rule ∈ r.items := mem_items.mpr (.inr (.inr (.inr ⟨rule, hrule, rfl⟩)))
    have hplain : IsPlainToken rule.nextValue := (h.items _ hitem).1 _ (by simp [Rule.names])
    rw [hname] at hplain
    exact hplain.1.1

namespace IsRead

variable {r : Ruleset}

theorem printable
    (h : r.IsRead) :
    r.Printable := by
  cases h with
  | program hparse => exact (Program.printable_of_parse hparse).1
  | table hparse =>
      obtain ⟨n, document, hsize, hdocument⟩ := Table.exists_ofDatum_of_parse hparse
      have himported := Table.imported_of_ofDatum hdocument
      have hlegible := himported.legible (Machine.size_pos_of_tapeSize hsize)
      exact hlegible.printable himported.directed

theorem directed
    (h : r.IsRead) :
    r.Directed := by
  cases h with
  | program hparse => exact Program.directed_of_parse hparse
  | table hparse => exact Table.directed_of_parse hparse

end IsRead

end Ruleset

namespace Machine

theorem holdsWords_initialTape
    {r : Ruleset} (h : r.WritesWords) (size : Nat) :
    (initialTape r size).HoldsWords := by
  intro name hname
  rcases (Tape.repeats_tile _ _).eq_none_or_mem hname with hnone | hpattern
  · cases hnone
  · cases hfiller : r.filler with
    | none =>
        rw [hfiller] at hpattern
        cases hpattern
    | some pattern =>
        rw [hfiller] at hpattern
        exact h.filler pattern hfiller name hpattern

/-- A step writes at most one cell, with the next value of a rule. -/
theorem holdsWords_of_step
    {m next : Machine} {proceed : Bool} (hring : m.OnRing) (hwords : m.ruleset.WritesWords)
    (h : m.tape.HoldsWords) (hstep : m.step = (next, .ok proceed)) :
    next.tape.HoldsWords := by
  rcases hring.step_cases with ⟨-, hhalts⟩ | ⟨head, rule, -, -, hmem, hfollows⟩
  · rw [hhalts] at hstep
    cases hstep
    exact h
  · rw [hfollows] at hstep
    split at hstep
    · cases hstep
      intro name hname
      rcases List.mem_or_eq_of_mem_set hname with hkept | hwritten
      · exact h name hkept
      · exact hwords.rules rule hmem name hwritten.symm
    · cases hstep

/-- What a machine has reached by its steps holds words where its ruleset writes nothing else. -/
theorem Reachable.holdsWords
    {m : Machine} (h : m.Reachable) (hwords : m.ruleset.WritesWords) :
    m.OnRing ∧ m.tape.HoldsWords := by
  induction h with
  | create hcreate =>
      obtain ⟨n, hn, rfl⟩ := create_eq_ok hcreate
      exact ⟨onRing_start _ (size_pos_of_tapeSize hn), holdsWords_initialTape hwords n⟩
  | @step m next proceed _ hstep ih =>
      rw [ruleset_of_step hstep] at hwords
      obtain ⟨hring, hholds⟩ := ih hwords
      refine ⟨?_, holdsWords_of_step hring hwords hholds hstep⟩
      rw [← next_of_step hstep]
      exact hring.next.1

end Machine

/-! ## Reading a line -/

namespace Tape

/-- The symbol that a piece of a line stands for. -/
def symbolOfPiece (placeholder : String) (piece : List Char) : Symbol :=
  if piece = placeholder.toList then none else some (String.ofList piece)

/-- The tape that a line shows, the placeholder read as blank. -/
def ofLine (placeholder line : String) : Tape :=
  (splitWhere (· == ' ') line.toList).map (symbolOfPiece placeholder)

/-- A cell as it is shown. -/
def shownCell (placeholder : String) : Symbol → List Char
  | none => placeholder.toList
  | some name => name.toList

theorem toList_line
    (placeholder : String) (t : Tape) :
    (t.line placeholder).toList = joinWith [' '] (t.map (shownCell placeholder)) := by
  rw [line, String.toList_ofList, render]
  rfl

theorem symbolOfPiece_shownCell
    {placeholder : String} {symbol : Symbol} (h : symbol ≠ some placeholder) :
    symbolOfPiece placeholder (shownCell placeholder symbol) = symbol := by
  cases symbol with
  | none => exact if_pos rfl
  | some name =>
      have hne : name.toList ≠ placeholder.toList := by
        intro heq
        apply h
        rw [String.toList_inj.mp heq]
      rw [shownCell, symbolOfPiece, if_neg hne, String.ofList_toList]

theorem space_notMem_of_isWord
    {word : List Char} (h : IsWord word) :
    ' ' ∉ word := by
  intro hspace
  exact absurd (h.2 ' ' hspace) (by decide)

/-- A tape of words is read back from its line. -/
theorem ofLine_line
    {placeholder : String} {t : Tape} (hne : t ≠ []) (hwords : t.HoldsWords)
    (hplaceholder : IsWord placeholder.toList) (hother : some placeholder ∉ t) :
    ofLine placeholder (t.line placeholder) = t := by
  -- no cell is shown with a space in it, so that the pieces are the cells
  have hpieces : ∀ piece ∈ t.map (shownCell placeholder), ' ' ∉ piece := by
    rw [List.forall_mem_map]
    intro symbol hsymbol
    cases symbol with
    | none => exact space_notMem_of_isWord hplaceholder
    | some name => exact space_notMem_of_isWord (hwords name hsymbol)
  have hsymbols : ∀ symbol ∈ t,
      (symbolOfPiece placeholder ∘ shownCell placeholder) symbol = symbol := by
    intro symbol hsymbol
    apply symbolOfPiece_shownCell
    rintro rfl
    exact hother hsymbol
  rw [ofLine, toList_line, splitWhere_joinWith (mt List.map_eq_nil_iff.mp hne) hpieces,
    List.map_map, List.map_congr_left hsymbols, List.map_id']

end Tape

namespace Machine

theorem OnRing.tape_ne_nil
    {m : Machine} (h : m.OnRing) :
    m.tape ≠ [] := by
  apply List.ne_nil_of_length_pos
  rw [h.length_tape]
  exact h.size_pos

/-- What is on the tape of a machine whose ruleset has been read are blanks and words, and the tape
is read back from its line.  A line of two such tapes is the line of one. -/
theorem Reachable.line_determines_tape
    {m : Machine} (h : m.Reachable) (hread : m.ruleset.IsRead) :
    (∀ symbol ∈ m.tape, symbol = none ∨
        ∃ name, symbol = some name ∧ name ≠ "" ∧ ∀ c ∈ name.toList, isBlank c = false) ∧
      ∀ placeholder, placeholder ≠ "" → (∀ c ∈ placeholder.toList, isBlank c = false) →
        some placeholder ∉ m.tape →
        Tape.ofLine placeholder (m.tape.line placeholder) = m.tape ∧
          ∀ other : Machine, other.Reachable → other.ruleset.IsRead →
            some placeholder ∉ other.tape →
            (m.tape.line placeholder = other.tape.line placeholder ↔ m.tape = other.tape) := by
  obtain ⟨hring, hwords⟩ := h.holdsWords hread.printable.writesWords
  refine ⟨Tape.holdsWords_iff.mp hwords, fun placeholder hne hchars hother => ?_⟩
  have hplaceholder : IsWord placeholder.toList := ⟨ne_empty_iff.mp hne, hchars⟩
  have hline := Tape.ofLine_line hring.tape_ne_nil hwords hplaceholder hother
  refine ⟨hline, fun other hreachable hread' hother' => ⟨fun heq => ?_, fun heq => by rw [heq]⟩⟩
  obtain ⟨hring', hwords'⟩ := hreachable.holdsWords hread'.printable.writesWords
  have hline' := Tape.ofLine_line hring'.tape_ne_nil hwords' hplaceholder hother'
  rw [← hline, heq, hline']

/-- A program and a table, each after a step that has written a symbol of two characters.  Their
lines tell the second cell, which is blank on both tapes, from the third. -/
theorem line_determines_tape_after_one_step :
    let r : Ruleset := ⟨[⟨some "a", some "b", some "x", some "ab", .toward .right⟩], some "a",
      .ofNames [], some [some "x", none], 3⟩
    let r' : Ruleset := ⟨[⟨some "s", some "t", some "x", some "ab", .toward .right⟩], some "s",
      .ofNames ["t"], some [some "x", none, none], 3⟩
    let m := (start r 3).next
    let other := (start r' 3).next
    m.Reachable ∧ m.ruleset.IsRead ∧ other.Reachable ∧ other.ruleset.IsRead ∧
      m.tape.line "_" = "ab _ x" ∧ Tape.ofLine "_" (m.tape.line "_") = m.tape ∧
      other.tape.line "_" = "ab _ _" ∧
      (m.tape.line "_" = other.tape.line "_" ↔ m.tape = other.tape) := by
  intro r r' m other
  have hparse : Program.parse (.int 3) ["a b x ab R".toList, "@x !".toList] = .ok r := by rfl
  have hparse' : Table.parse Yaml.load (.int 3)
      "input: x\ntable:\n s:\n  x: \x7bwrite: ab, R: t\x7d\n t:".toList = .ok r' :=
    toOption_eq_some_iff.mp (by decide +kernel)
  have hstart : (start r 3).Reachable := reachable_start r (by decide) (by decide)
  have hstart' : (start r' 3).Reachable := reachable_start r' (by decide) (by decide)
  have hstep : (start r 3).step = (m, .ok true) :=
    Prod.ext rfl (toOption_eq_some_iff.mp (by decide))
  have hstep' : (start r' 3).step = (other, .ok true) :=
    Prod.ext rfl (toOption_eq_some_iff.mp (by decide))
  have hread : m.ruleset.IsRead := (ruleset_of_step hstep).symm ▸ .program hparse
  have hread' : other.ruleset.IsRead := (ruleset_of_step hstep').symm ▸ .table hparse'
  have hreachable : m.Reachable := .step hstart hstep
  have hreachable' : other.Reachable := .step hstart' hstep'
  obtain ⟨-, hline⟩ := hreachable.line_determines_tape hread
  have hchars : ∀ c ∈ "_".toList, isBlank c = false := List.forall_mem_singleton.mpr (by decide)
  obtain ⟨htape, hother⟩ := hline "_" (by decide) hchars (by decide)
  exact ⟨hreachable, hread, hreachable', hread', by decide, htape, by decide,
    hother other hreachable' hread' (by decide)⟩

end Machine

end RingTape
