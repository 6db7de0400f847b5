import RingTape.Proofs.Program.RoundTrip

/-!
# Legible rulesets

A ruleset need not come from lines: it may be put together by hand, or imported.  This module says
for any ruleset, without reading or printing it, whether it is read back from its own lines.

That the condition suffices goes line by line.  That it is necessary does not, since the lines of a
ruleset might make up for each other: a rule that is read as a terminal state could stand for
another one that is lost.  It follows from what reading can give at all: whatever is read has
printable items only, so that a ruleset that is read back has such items as well.
-/

namespace RingTape

open Text

/-- A state that keeps its shape on a line of its own. -/
def IsName (name : String) : Prop :=
  name ≠ "" ∧ ';' ∉ name.toList ∧ (∀ c ∈ name.toList.head?, isBlank c = false) ∧
    ∀ c ∈ name.toList.getLast?, isBlank c = false

instance (name : String) : Decidable (IsName name) :=
  have : ∀ o : Option Char, Decidable (∀ c ∈ o, isBlank c = false) :=
    fun o => o.decidableForallMem
  inferInstanceAs (Decidable (_ ∧ _ ∧ _ ∧ _))

/-- A symbol or state that keeps its shape between blanks. -/
def IsField (s : Option String) : Prop :=
  ∀ name ∈ s, name ≠ "" ∧ name ≠ "!" ∧ ∀ c ∈ name.toList, isBlank c = false ∧ c ≠ ';'

instance (s : Option String) : Decidable (IsField s) :=
  have : ∀ cs : List Char, Decidable (∀ c ∈ cs, isBlank c = false ∧ c ≠ ';') :=
    fun cs => cs.decidableBAll _
  s.decidableForallMem

theorem isName_iff
    {name : String} :
    IsName name ↔ IsPhrase name.toList := by
  rw [IsName, IsPhrase, ne_empty_iff]
  constructor
  · rintro ⟨hne, hsemi, hhead, hlast⟩
    exact ⟨hne, trim_eq_self hhead hlast, hsemi⟩
  · rintro ⟨hne, htrim, hsemi⟩
    refine ⟨hne, hsemi, fun c hc => ?_, fun c hc => ?_⟩
    · rw [← htrim] at hc
      exact head?_trim hc
    · rw [← htrim] at hc
      exact getLast?_trim hc

theorem isField_iff
    {s : Option String} :
    IsField s ↔ IsPlainToken s := by
  rw [IsPlainToken, isToken_iff]
  cases s with
  | none => exact ⟨fun _ => ⟨nofun, by decide⟩, fun _ => nofun⟩
  | some name =>
      constructor
      · intro h
        obtain ⟨hne, hmark, hchars⟩ := h name rfl
        refine ⟨fun other hother => ?_, fun hsemi => (hchars ';' hsemi).2 rfl⟩
        obtain rfl : name = other := Option.some.inj hother
        exact ⟨hne, hmark, fun c hc => (hchars c hc).1⟩
      · rintro ⟨htoken, hsemi⟩ other hother
        obtain rfl : name = other := Option.some.inj hother
        obtain ⟨hne, hmark, hblank⟩ := htoken name rfl
        exact ⟨hne, hmark, fun c hc => ⟨hblank c hc, fun heq => hsemi (heq ▸ hc)⟩⟩

namespace Ruleset

/-- A ruleset whose lines tell all of it. -/
structure Legible (r : Ruleset) : Prop where
  halt : r.terminalStates.halt = true
  terminals : ∀ name ∈ r.terminalStates.named.toList, IsName name
  initial : ∀ name ∈ r.initialState, IsName name
  /-- Without a line for the initial state it is taken from the first rule. -/
  fallback : r.initialState = none → r.rules.head?.map (·.currentState) = some none
  filler : ∀ symbols ∈ r.filler, symbols ≠ [] ∧ ∀ s ∈ symbols, IsField s
  fields : ∀ rule ∈ r.rules, ∀ s ∈ rule.names, IsField s
  /-- The line of a rule begins with its current state. -/
  unmarked : ∀ rule ∈ r.rules, ¬ StartsWithMark rule.currentState

namespace Legible

variable {r : Ruleset}

theorem printable
    (h : r.Legible) (hr : r.Directed) :
    r.Printable := by
  refine ⟨fun i hi => ?_, h.halt, h.fallback⟩
  rcases mem_items.mp hi with ⟨name, hname, rfl⟩ | ⟨name, hname, rfl⟩ | ⟨symbols, hsymbols, rfl⟩ |
    ⟨rule, hrule, rfl⟩
  · exact isName_iff.mp (h.initial name hname)
  · exact isName_iff.mp (h.terminals name hname)
  · obtain ⟨hne, hfields⟩ := h.filler symbols hsymbols
    exact ⟨hne, fun s hs => isField_iff.mp (hfields s hs)⟩
  · exact ⟨fun s hs => isField_iff.mp (h.fields rule hrule s hs), hr rule hrule⟩

/-- A legible ruleset has lines, and is read back from them. -/
theorem parse_print
    (h : r.Legible) (hr : r.Directed) {size : Datum}
    (hsize : RingTape.tapeSize size = .ok r.tapeSize) :
    ∃ printed, r.print = some printed ∧ Program.parse size printed = .ok r :=
  ⟨_, hr.print_eq, (h.printable hr).parse_written hsize h.unmarked⟩

theorem of_printable
    (h : r.Printable) (hmarks : ∀ rule ∈ r.rules, ¬ StartsWithMark rule.currentState) :
    r.Legible where
  halt := h.halt
  terminals := fun name hname =>
    isName_iff.mpr (h.items (.terminal name) (mem_items.mpr (.inr (.inl ⟨name, hname, rfl⟩))))
  initial := fun name hname =>
    isName_iff.mpr (h.items (.initial name) (mem_items.mpr (.inl ⟨name, hname, rfl⟩)))
  fallback := h.initial
  filler := by
    intro symbols hsymbols
    obtain ⟨hne, hplain⟩ := h.items (.filler symbols)
      (mem_items.mpr (.inr (.inr (.inl ⟨symbols, hsymbols, rfl⟩))))
    exact ⟨hne, fun s hs => isField_iff.mpr (hplain s hs)⟩
  fields := by
    intro rule hrule s hs
    obtain ⟨hplain, -⟩ := h.items (.rule rule)
      (mem_items.mpr (.inr (.inr (.inr ⟨rule, hrule, rfl⟩))))
    exact isField_iff.mpr (hplain s hs)
  unmarked := hmarks

end Legible

/-- A ruleset with directions has lines, and it is read back from them exactly when it is
legible. -/
theorem parse_print_self_iff
    {r : Ruleset} (hsize : 0 < r.tapeSize) (hr : r.Directed) :
    ∃ printed, r.print = some printed ∧
      (Program.parse (.int r.tapeSize) printed = .ok r ↔ r.Legible) := by
  refine ⟨_, hr.print_eq, fun h => ?_, fun h => ?_⟩
  · -- the lines need not be looked at: what is read is printable, and here that is `r` itself
    have hprintable := (Program.printable_of_parse h).1
    refine .of_printable hprintable fun rule hrule hmark => ?_
    exact Program.parse_written_ne_of_startsWithMark hprintable hrule hmark _ h
  · exact (h.printable hr).parse_written (tapeSize_natCast hsize) h.unmarked

/-- A terminal state may hold a blank, and a ruleset without an initial state is read back when its
first rule has none either.  A blank at the end of a terminal state is lost. -/
theorem parse_print_self_iff_of_inner_blank :
    let r : Ruleset :=
      ⟨[⟨none, some "~b", some "@", none, .toward .stay⟩], none, .ofNames ["at rest"],
        some [some "#", none], 4⟩
    let r' : Ruleset := { r with terminalStates := .ofNames ["a", "a "] }
    0 < r.tapeSize ∧ r.Directed ∧
      (∃ printed, r.print = some printed ∧ Program.parse (.int r.tapeSize) printed = .ok r) ∧
      ∃ printed, r'.print = some printed ∧ Program.parse (.int r'.tapeSize) printed ≠ .ok r' := by
  intro r r'
  have hr : r.Directed := by decide
  have hr' : r'.Directed := by decide
  have hlegible : r.Legible :=
    ⟨by decide, by decide, by decide, by decide, by decide, by decide, by decide⟩
  obtain ⟨printed, hprint, hback⟩ := parse_print_self_iff (by decide) hr
  obtain ⟨printed', hprint', hback'⟩ := parse_print_self_iff (by decide) hr'
  refine ⟨by decide, hr, ⟨printed, hprint, hback.mpr hlegible⟩, printed', hprint', fun hparse => ?_⟩
  exact absurd ((hback'.mp hparse).terminals "a " (by decide)) (by decide)

end Ruleset

end RingTape
