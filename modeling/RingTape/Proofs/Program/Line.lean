import RingTape.Program.Line
import RingTape.Proofs.Text.Fields
import Mathlib.Data.List.Basic

/-!
# What a line says, and why it says nothing

A line is read by its first character: it is looked at before the line is trimmed, and before its
comment is dropped.  Here both outcomes are told by the kind of the line instead, one clause for
each thing that a line can say and for each fault that it can have.
-/

namespace RingTape

open Text

/-- The kinds of lines. -/
inductive LineKind where
  | blank
  | comment
  | terminal
  | initial
  | filler
  | rule
  deriving DecidableEq, Repr

/-- The kind of a line without its end.  Its first character tells the kind, unless the line is
blank. -/
def LineKind.ofLine (line : List Char) : LineKind :=
  if line.all isBlank then .blank
  else if line.head? = some ';' then .comment
  else if line.head? = some '#' then .terminal
  else if line.head? = some '~' then .initial
  else if line.head? = some '@' then .filler
  else .rule

namespace Program

/-- What a line says, its comment aside. -/
def content (line : List Char) : List Char :=
  trim (beforeComment line)

/-- What a line says after the mark of its kind. -/
def body (line : List Char) : List Char :=
  content line.tail

/-- The symbols that a line lists after its mark. -/
def symbols (line : List Char) : List Symbol :=
  (fields (body line)).map ofToken

end Program

/-! ## Texts that are no rules -/

namespace Rule

variable {text : List Char}

theorem parse_of_length_lt
    (h : (fields (trim text)).length < 5) :
    parse text = .error (.fieldCount (fields (trim text)).length (trim text)) := by
  have hall : fieldsUpTo 4 (trim text) = fields (trim text) := by
    rw [fieldsUpTo_eq, if_pos (by omega)]
  rw [parse, hall]
  split
  · next hfields =>
      rw [hfields] at h
      exact absurd h (by simp)
  · rfl

theorem exists_parse_of_le_length
    (h : 5 ≤ (fields (trim text)).length) :
    ∃ state next value written,
      parse text = do
        let direction ← Direction.parse (afterFields 4 (trim text))
        return ⟨state, next, value, written, .toward direction⟩ := by
  have hfirst : fieldsUpTo 4 (trim text) =
      (fields (trim text)).take 4 ++ [afterFields 4 (trim text)] := by
    rw [fieldsUpTo_eq, if_neg (by omega)]
  have hlength : ((fields (trim text)).take 4).length = 4 := by
    rw [List.length_take]
    omega
  obtain ⟨state, next, value, written, hfour⟩ := List.length_eq_four.mp hlength
  rw [parse, hfirst, hfour]
  exact ⟨ofToken state, ofToken next, ofToken value, ofToken written, rfl⟩

/-- A text is no rule when it has too few fields, or no direction after the fourth. -/
theorem parse_eq_error_iff
    {fault : RuleFault} :
    parse text = .error fault ↔
      ((fields (trim text)).length < 5 ∧
        fault = .fieldCount (fields (trim text)).length (trim text)) ∨
      (5 ≤ (fields (trim text)).length ∧
        Direction.parse? (afterFields 4 (trim text)) = none ∧
        fault = .direction (afterFields 4 (trim text))) := by
  rcases Nat.lt_or_ge (fields (trim text)).length 5 with hfew | hmany
  · have hnot : ¬ 5 ≤ (fields (trim text)).length := by omega
    rw [parse_of_length_lt hfew]
    simp [hfew, hnot, eq_comm]
  · have hnot : ¬ (fields (trim text)).length < 5 := by omega
    obtain ⟨state, next, value, written, hparse⟩ := exists_parse_of_le_length hmany
    rw [hparse, Direction.parse]
    cases Direction.parse? (afterFields 4 (trim text)) with
    | some direction => simp [hnot, bind, Except.bind, pure, Except.pure]
    | none => simp [hmany, hnot, eq_comm, bind, Except.bind]

end Rule

namespace Item

open Program

/-! ## Reading by kind -/

theorem ofLine_eq
    (line : List Char) :
    ofLine line = match LineKind.ofLine line with
      | .blank | .comment => .ok .remark
      | .terminal =>
        if body line = [] then .error .noTerminal else .ok (.terminal (String.ofList (body line)))
      | .initial =>
        if body line = [] then .error .noInitial else .ok (.initial (String.ofList (body line)))
      | .filler => if symbols line = [] then .error .noFiller else .ok (.filler (symbols line))
      | .rule =>
        if content line = [] then .ok .remark
        else match Rule.parse (content line) with
          | .ok r => .ok (.rule r)
          | .error fault => .error (.rule fault) := by
  have hblank : (trim line).isEmpty = line.all isBlank := by
    rw [Bool.eq_iff_iff, List.isEmpty_iff, trim_eq_nil_iff, List.all_eq_true]
  unfold ofLine LineKind.ofLine
  simp only [hblank, List.isEmpty_iff]
  by_cases hall : line.all isBlank = true
  · rw [if_pos hall, if_pos hall]
  · rw [if_neg hall, if_neg hall]
    obtain ⟨c, rest, rfl⟩ : ∃ c rest, line = c :: rest := by
      apply List.exists_cons_of_ne_nil
      intro hnil
      apply hall
      rw [hnil]
      rfl
    by_cases hcomment : c = ';'
    · subst hcomment
      rfl
    by_cases hterminal : c = '#'
    · subst hterminal
      rfl
    by_cases hinitial : c = '~'
    · subst hinitial
      rfl
    by_cases hfiller : c = '@'
    · subst hfiller
      rfl
    -- no mark is left, so that the line can only be one of the last kind
    simp only [List.head?_cons, Option.some.injEq, hcomment, hterminal, hinitial, hfiller, if_false]
    split
    · next h => exact absurd (List.cons.inj h).1 hcomment
    · next h => exact absurd (List.cons.inj h).1 hterminal
    · next h => exact absurd (List.cons.inj h).1 hinitial
    · next h => exact absurd (List.cons.inj h).1 hfiller
    · rfl

/-- What a line says, by its kind. -/
inductive SaidBy (line : List Char) : Item → Prop
  | blank : LineKind.ofLine line = .blank → SaidBy line .remark
  | comment : LineKind.ofLine line = .comment → SaidBy line .remark
  | terminal : LineKind.ofLine line = .terminal → body line ≠ [] →
      SaidBy line (.terminal (String.ofList (body line)))
  | initial : LineKind.ofLine line = .initial → body line ≠ [] →
      SaidBy line (.initial (String.ofList (body line)))
  | filler : LineKind.ofLine line = .filler → symbols line ≠ [] →
      SaidBy line (.filler (symbols line))
  /-- Such a line looks like a rule, and holds nothing but a comment. -/
  | indented : LineKind.ofLine line = .rule → content line = [] → SaidBy line .remark
  | rule {r : Rule} : LineKind.ofLine line = .rule → content line ≠ [] →
      Rule.parse (content line) = .ok r → SaidBy line (.rule r)

/-- The fault of a line, by its kind. -/
inductive Faulty (line : List Char) : LineFault → Prop
  | terminal : LineKind.ofLine line = .terminal → body line = [] → Faulty line .noTerminal
  | initial : LineKind.ofLine line = .initial → body line = [] → Faulty line .noInitial
  | filler : LineKind.ofLine line = .filler → symbols line = [] → Faulty line .noFiller
  | fieldCount : LineKind.ofLine line = .rule → content line ≠ [] →
      (fields (content line)).length < 5 →
      Faulty line (.rule (.fieldCount (fields (content line)).length (content line)))
  /-- The last field is all that stands after the fourth. -/
  | direction : LineKind.ofLine line = .rule → content line ≠ [] →
      5 ≤ (fields (content line)).length →
      Direction.parse? (afterFields 4 (content line)) = none →
      Faulty line (.rule (.direction (afterFields 4 (content line))))

section ByKind

variable {line : List Char} {i : Item} {fault : LineFault}

theorem saidBy_of_ofLine
    (h : ofLine line = .ok i) :
    SaidBy line i := by
  rw [ofLine_eq] at h
  split at h
  · next hkind =>
      cases h
      exact .blank hkind
  · next hkind =>
      cases h
      exact .comment hkind
  · next hkind =>
      split_ifs at h with hnil
      cases h
      exact .terminal hkind hnil
  · next hkind =>
      split_ifs at h with hnil
      cases h
      exact .initial hkind hnil
  · next hkind =>
      split_ifs at h with hnil
      cases h
      exact .filler hkind hnil
  · next hkind =>
      split_ifs at h with hnil
      · cases h
        exact .indented hkind hnil
      · split at h
        · next r hr =>
            cases h
            exact .rule hkind hnil hr
        · cases h

theorem faulty_of_ofLine
    (h : ofLine line = .error fault) :
    Faulty line fault := by
  rw [ofLine_eq] at h
  split at h
  · cases h
  · cases h
  · next hkind =>
      split_ifs at h with hnil
      cases h
      exact .terminal hkind hnil
  · next hkind =>
      split_ifs at h with hnil
      cases h
      exact .initial hkind hnil
  · next hkind =>
      split_ifs at h with hnil
      cases h
      exact .filler hkind hnil
  · next hkind =>
      split_ifs at h with hnil
      split at h
      · cases h
      · next fault hfault =>
          cases h
          have htrim : trim (content line) = content line := trim_trim _
          rw [Rule.parse_eq_error_iff, htrim] at hfault
          rcases hfault with ⟨hfew, rfl⟩ | ⟨hmany, hdirection, rfl⟩
          · exact .fieldCount hkind hnil hfew
          · exact .direction hkind hnil hmany hdirection

theorem SaidBy.ofLine_eq_ok
    (h : SaidBy line i) :
    ofLine line = .ok i := by
  rw [ofLine_eq]
  cases h with
  | blank hkind => rw [hkind]
  | comment hkind => rw [hkind]
  | terminal hkind hne => simp only [hkind, if_neg hne]
  | initial hkind hne => simp only [hkind, if_neg hne]
  | filler hkind hne => simp only [hkind, if_neg hne]
  | indented hkind hnil => simp only [hkind, if_pos hnil]
  | rule hkind hne hr => simp only [hkind, if_neg hne, hr]

theorem Faulty.ofLine_eq_error
    (h : Faulty line fault) :
    ofLine line = .error fault := by
  rw [ofLine_eq]
  have htrim : trim (content line) = content line := trim_trim _
  cases h with
  | terminal hkind hnil => simp only [hkind, if_pos hnil]
  | initial hkind hnil => simp only [hkind, if_pos hnil]
  | filler hkind hnil => simp only [hkind, if_pos hnil]
  | fieldCount hkind hne hfew =>
      have hfault := Rule.parse_eq_error_iff.mpr (.inl ⟨by rwa [htrim], rfl⟩)
      rw [htrim] at hfault
      simp only [hkind, if_neg hne, hfault]
  | direction hkind hne hmany hdirection =>
      have hfault := Rule.parse_eq_error_iff.mpr
        (.inr ⟨by rwa [htrim], by rwa [htrim], rfl⟩)
      rw [htrim] at hfault
      simp only [hkind, if_neg hne, hfault]

end ByKind

end Item

namespace Program

/-- A line that says nothing, not even that it holds nothing. -/
def Malformed (line : List Char) : Prop :=
  ∃ fault, Item.Faulty line fault

theorem not_malformed_iff
    {line : List Char} :
    ¬ Malformed line ↔ ∃ i, Item.ofLine line = .ok i := by
  constructor
  · intro h
    cases hline : Item.ofLine line with
    | ok i => exact ⟨i, rfl⟩
    | error fault => exact absurd ⟨fault, Item.faulty_of_ofLine hline⟩ h
  · rintro ⟨i, hi⟩ ⟨fault, hfault⟩
    rw [hfault.ofLine_eq_error] at hi
    cases hi

end Program

end RingTape
