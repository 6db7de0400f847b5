import RingTape.Proofs.Checked
import RingTape.Proofs.Program.Printable

/-!
# Rules and their lines

A rule that is put together by hand may hold names that its line does not keep: a blank in a name
shifts the fields behind it, and an empty name is no field at all.  No such rule is ever read, and
so none is read back from its own line.  What is printed for a text that is read is therefore a
normal form of the text.
-/

namespace RingTape

open Text

namespace Rule

/-- Each state and value of the rule is nothing, or a name without blanks that does not stand for
nothing. -/
def Writable (r : Rule) : Prop :=
  ∀ s ∈ r.names, ∀ name ∈ s, name ≠ "" ∧ name ≠ "!" ∧ ∀ c ∈ name.toList, isBlank c = false

theorem writable_iff
    {r : Rule} :
    r.Writable ↔ ∀ s ∈ r.names, IsToken s :=
  forall₂_congr fun _ _ => isToken_iff.symm

/-- The line of the rule that a text is read as. -/
def normalForm (text : List Char) : Except RuleFault (Option (List Char)) :=
  print <$> parse text

variable {text : List Char} {r : Rule}

theorem writable_of_parse
    (h : parse text = .ok r) :
    r.Directed ∧ r.Writable := by
  obtain ⟨hdirected, hnames⟩ := names_of_parse h
  refine ⟨hdirected, writable_iff.mpr fun s hs => ?_⟩
  obtain ⟨token, rfl, hword, -⟩ := hnames s hs
  exact isToken_ofToken hword

/-- A rule that is read has a line, and the line is read as the rule. -/
theorem print_of_parse
    (h : parse text = .ok r) :
    r.print = some r.written ∧ parse r.written = .ok r := by
  obtain ⟨hdirected, hwritable⟩ := writable_of_parse h
  exact ⟨hdirected.print_eq, hdirected.parse_written (writable_iff.mp hwritable)⟩

theorem normalForm_eq_ok
    {line : List Char} (h : normalForm text = .ok (some line)) :
    ∃ r, parse text = .ok r ∧ parse line = .ok r ∧ r.print = some line := by
  obtain ⟨r, hr, hprint⟩ := map_eq_ok_iff.mp h
  obtain ⟨hwritten, hback⟩ := print_of_parse hr
  obtain rfl : r.written = line := Option.some.inj (hwritten.symm.trans hprint)
  exact ⟨r, hr, hback, hwritten⟩

/-- A rule with a direction has a line, and is read back from it exactly when its names keep their
shape there, which those of a rule that is read always do.  So the line of a text's rule is read as
the text is, it is its own normal form, and two texts have the same one exactly when they are read
as the same rule. -/
theorem parse_print_iff_writable :
    (∀ r : Rule, r.Directed →
        ∃ line, r.print = some line ∧ (parse line = .ok r ↔ r.Writable)) ∧
      (∀ (text : List Char) (r : Rule), parse text = .ok r →
        r.Directed ∧ r.Writable ∧ ∃ line, r.print = some line ∧ parse line = .ok r) ∧
      (∀ text line : List Char, normalForm text = .ok (some line) →
        parse line = parse text ∧ normalForm line = .ok (some line)) ∧
      ∀ text text' line line' : List Char, normalForm text = .ok (some line) →
        normalForm text' = .ok (some line') → (line = line' ↔ parse text = parse text') := by
  refine ⟨fun r hr => ⟨r.written, hr.print_eq, ?_, ?_⟩, fun text r h => ?_, ?_, ?_⟩
  · exact fun h => (writable_of_parse h).2
  · exact fun h => hr.parse_written (writable_iff.mp h)
  · exact ⟨(writable_of_parse h).1, (writable_of_parse h).2, r.written, print_of_parse h⟩
  · intro text line h
    obtain ⟨r, hr, hline, hprint⟩ := normalForm_eq_ok h
    exact ⟨hline.trans hr.symm, map_eq_ok_iff.mpr ⟨r, hline, hprint⟩⟩
  · intro text text' line line' h h'
    obtain ⟨r, hr, hline, hprint⟩ := normalForm_eq_ok h
    obtain ⟨r', hr', hline', hprint'⟩ := normalForm_eq_ok h'
    constructor
    · rintro rfl
      exact hr.trans (hline.symm.trans (hline'.trans hr'.symm))
    · intro hsame
      obtain rfl : r = r' := Except.ok.inj (hr.symm.trans (hsame.trans hr'))
      exact Option.some.inj (hprint.symm.trans hprint')

/-- Blanks around the fields and the number for the way are not kept, and a name with a blank inside
is read as another rule. -/
theorem parse_print_iff_writable_of_spaced_text :
    let r : Rule := ⟨some "a", none, some "*", some ";", .toward .left⟩
    let r' : Rule := { r with nextState := some "b c" }
    let text : List Char := [' ', 'a', '\t', '!', ' ', ' ', '*', ' ', ';', ' ', '-', '7', ' ']
    let line : List Char := ['a', ' ', '!', ' ', '*', ' ', ';', ' ', 'L']
    r.Directed ∧ r'.Directed ∧ parse text = .ok r ∧ normalForm text = .ok (some line) ∧
      parse line = .ok r ∧ normalForm line = .ok (some line) ∧
      parse text = parse line ∧ ∃ line', r'.print = some line' ∧ parse line' ≠ .ok r' := by
  intro r r' text line
  have hread : parse text = .ok r := by rfl
  have hform : normalForm text = .ok (some line) := map_eq_ok_iff.mpr ⟨r, hread, by rfl⟩
  obtain ⟨hback, hparsed, hnormal, hsame⟩ := parse_print_iff_writable
  obtain ⟨hline, hline'⟩ := hnormal text line hform
  have hdirected' : r'.Directed := ⟨.left, rfl⟩
  obtain ⟨spaced, hprint, hiff⟩ := hback r' hdirected'
  refine ⟨(hparsed text r hread).1, hdirected', hread, hform, hline.trans hread, hline',
    (hsame text line _ _ hform hline').mp rfl, spaced, hprint, fun hspaced => ?_⟩
  have hblank := (hiff.mp hspaced (some "b c") (by decide) "b c" rfl).2.2
  exact absurd (hblank ' ' (by decide)) (by decide)

end Rule

end RingTape
