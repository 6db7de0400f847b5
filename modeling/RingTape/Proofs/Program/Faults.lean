import RingTape.Proofs.Datum.Integers
import RingTape.Proofs.Program.Reading
import Mathlib.Algebra.Group.Int.Defs

/-!
# Lines that are no program

Reading ends at the first line that is malformed, and all lines before that one say something.  Here
the faults of a program are told without the order of reading: which fault there is, and where, can
be seen from the lines alone.

A size that is refused is refused before any line is read.  The refusal shows the size, and comes to
nothing where an integer in it is too long to be shown.
-/

namespace RingTape

open Text

/-- A positive integer, and nothing else. -/
def IsTapeSize (size : Datum) : Prop :=
  ∃ n : Int, 0 < n ∧ size = .int n

theorem exists_tapeSize_of_isTapeSize
    {size : Datum} (h : IsTapeSize size) :
    ∃ n, tapeSize size = .ok n := by
  obtain ⟨n, hn, rfl⟩ := h
  exact ⟨n.toNat, if_pos hn⟩

theorem tapeSize_of_not_isTapeSize
    {size : Datum} (h : ¬ IsTapeSize size) :
    tapeSize size = .error (.ofSize size) := by
  unfold tapeSize
  split
  · next n =>
      apply if_neg
      intro hn
      exact h ⟨n, hn, rfl⟩
  · rfl

namespace Program

/-- The ways in which lines, together with a size for the tape, are no program. -/
inductive FailsWith (size : Datum) (lines : List (List Char)) : ProgramFault → Prop
  | illegalSize {shown : String} : ¬ IsTapeSize size → size.toText = .ok shown →
      FailsWith size lines (.tapeSize (.illegal shown))
  | unshowableSize {cause : ShowFault} : ¬ IsTapeSize size → size.toText = .error cause →
      FailsWith size lines (.tapeSize (.unshowable cause))
  | line {before : List (List Char)} {line : List Char} {rest : List (List Char)}
      {fault : LineFault} : IsTapeSize size → lines = before ++ line :: rest →
      (∀ earlier ∈ before, ¬ Malformed (dropLineEnd earlier)) →
      Item.Faulty (dropLineEnd line) fault →
      FailsWith size lines (.line (before.length + 1) (dropLineEnd line) fault)
  | noInitialState : IsTapeSize size → (∀ line ∈ lines, ¬ Malformed (dropLineEnd line)) →
      linesOf .initial lines = [] → ruleLines lines = [] → FailsWith size lines .noInitialState

/-! ## The first line at fault -/

section Items

variable {number : Nat} {before rest : List (List Char)} {line : List Char}

theorem items_append
    {found : List Item} (h : Says before found) :
    items number (before ++ rest) = (found ++ ·) <$> items (number + before.length) rest := by
  induction h generalizing number with
  | nil => simp
  | @cons line i lines others hline hlines ih =>
      have hnumber : number + 1 + lines.length = number + (line :: lines).length := by
        rw [List.length_cons]
        omega
      rw [List.cons_append, items, hline]
      dsimp only
      rw [ih, hnumber, Functor.map_map]
      rfl

/-- Reading stops at the first malformed line, whatever comes after it. -/
theorem items_of_firstFault
    (hbefore : ∀ earlier ∈ before, ¬ Malformed (dropLineEnd earlier)) {fault : LineFault}
    (hfault : Item.Faulty (dropLineEnd line) fault) :
    items number (before ++ line :: rest) =
      .error (.line (number + before.length) (dropLineEnd line) fault) := by
  obtain ⟨found, hfound⟩ := exists_says_iff.mpr hbefore
  rw [items_append hfound, items, hfault.ofLine_eq_error]
  rfl

/-- Some malformed line comes first. -/
theorem exists_firstFault
    {lines : List (List Char)} (h : ∃ line ∈ lines, Malformed (dropLineEnd line)) :
    ∃ before line rest, lines = before ++ line :: rest ∧
      (∀ earlier ∈ before, ¬ Malformed (dropLineEnd earlier)) ∧
      Malformed (dropLineEnd line) := by
  induction lines with
  | nil => simp at h
  | cons line lines ih =>
      by_cases hline : Malformed (dropLineEnd line)
      · exact ⟨[], line, lines, rfl, by simp, hline⟩
      · have hlater : ∃ other ∈ lines, Malformed (dropLineEnd other) := by
          simpa [hline] using h
        obtain ⟨before, other, rest, rfl, hbefore, hother⟩ := ih hlater
        refine ⟨line :: before, other, rest, rfl, ?_, hother⟩
        rw [List.forall_mem_cons]
        exact ⟨hline, hbefore⟩

end Items

/-! ## Faults of a program -/

section Parse

variable {size : Datum} {lines : List (List Char)} {fault : ProgramFault}

theorem FailsWith.parse_eq_error
    (h : FailsWith size lines fault) :
    parse size lines = .error fault := by
  cases h with
  | illegalSize hsize htext =>
      rw [parse, tapeSize_of_not_isTapeSize hsize, TapeSizeFault.ofSize, htext]
  | unshowableSize hsize htext =>
      rw [parse, tapeSize_of_not_isTapeSize hsize, TapeSizeFault.ofSize, htext]
  | line hsize hlines hbefore hfault =>
      obtain ⟨n, hn⟩ := exists_tapeSize_of_isTapeSize hsize
      rw [parse, hn, hlines]
      dsimp only
      rw [items_of_firstFault hbefore hfault, Nat.add_comm]
      rfl
  | noInitialState hsize hlines hinitials hrules =>
      obtain ⟨n, hn⟩ := exists_tapeSize_of_isTapeSize hsize
      obtain ⟨found, hsays⟩ := exists_says_iff.mpr hlines
      have hnone : initialState? found = none := by
        by_contra hsome
        rcases hsays.initialState?_ne_none_iff.mp hsome with hinitial | hrule
        · exact hinitial hinitials
        · exact hrule hrules
      rw [parse, hn]
      dsimp only
      rw [items_eq_ok hsays]
      change assemble n found = _
      rw [assemble, hnone]

/-- A size that is no tape size is refused in one of two ways. -/
theorem exists_failsWith_of_not_isTapeSize
    (hsize : ¬ IsTapeSize size) :
    ∃ fault, ∀ lines, FailsWith size lines fault := by
  cases htext : size.toText with
  | ok shown => exact ⟨_, fun _ => .illegalSize hsize htext⟩
  | error cause => exact ⟨_, fun _ => .unshowableSize hsize htext⟩

theorem exists_parse_of_not_malformed
    (hsize : IsTapeSize size) (hlines : ∀ line ∈ lines, ¬ Malformed (dropLineEnd line))
    (hstart : linesOf .initial lines ≠ [] ∨ ruleLines lines ≠ []) :
    ∃ r, parse size lines = .ok r := by
  obtain ⟨n, hn⟩ := exists_tapeSize_of_isTapeSize hsize
  obtain ⟨found, hsays⟩ := exists_says_iff.mpr hlines
  exact hsays.exists_parse hn hstart

/-- Lines are no program in one of these ways, or they are one. -/
theorem exists_failsWith_or
    (size : Datum) (lines : List (List Char)) :
    (∃ fault, FailsWith size lines fault) ∨
      (IsTapeSize size ∧ (∀ line ∈ lines, ¬ Malformed (dropLineEnd line)) ∧
        (linesOf .initial lines ≠ [] ∨ ruleLines lines ≠ [])) := by
  by_cases hsize : IsTapeSize size
  · by_cases hlines : ∃ line ∈ lines, Malformed (dropLineEnd line)
    · obtain ⟨before, line, rest, heq, hbefore, fault, hfault⟩ := exists_firstFault hlines
      exact .inl ⟨_, .line hsize heq hbefore hfault⟩
    · have hnone : ∀ line ∈ lines, ¬ Malformed (dropLineEnd line) := by
        intro line hline hmalformed
        exact hlines ⟨line, hline, hmalformed⟩
      by_cases hstart : linesOf .initial lines ≠ [] ∨ ruleLines lines ≠ []
      · exact .inr ⟨hsize, hnone, hstart⟩
      · rw [not_or, not_ne_iff, not_ne_iff] at hstart
        exact .inl ⟨_, .noInitialState hsize hnone hstart.1 hstart.2⟩
  · obtain ⟨fault, hfails⟩ := exists_failsWith_of_not_isTapeSize hsize
    exact .inl ⟨fault, hfails lines⟩

theorem parse_eq_error_iff :
    parse size lines = .error fault ↔ FailsWith size lines fault := by
  constructor
  · intro hparse
    rcases exists_failsWith_or size lines with ⟨fault', hfails⟩ | ⟨hsize, hlines, hstart⟩
    · have hparse' := hfails.parse_eq_error
      rw [hparse] at hparse'
      cases hparse'
      exact hfails
    · obtain ⟨r, hr⟩ := exists_parse_of_not_malformed hsize hlines hstart
      rw [hparse] at hr
      cases hr
  · exact FailsWith.parse_eq_error

theorem parse_eq_illegal_iff
    {shown : String} :
    parse size lines = .error (.tapeSize (.illegal shown)) ↔
      ¬ IsTapeSize size ∧ size.toText = .ok shown := by
  rw [parse_eq_error_iff]
  refine ⟨fun h => ?_, fun h => .illegalSize h.1 h.2⟩
  cases h with
  | illegalSize hsize htext => exact ⟨hsize, htext⟩

theorem exists_illegal_iff :
    (∃ shown, parse size lines = .error (.tapeSize (.illegal shown))) ↔
      ¬ IsTapeSize size ∧ Datum.AllShort size.integers := by
  simp only [parse_eq_illegal_iff, exists_and_left, Datum.exists_toText_iff]

theorem exists_unshowable_iff :
    (∃ cause, parse size lines = .error (.tapeSize (.unshowable cause))) ↔
      ¬ IsTapeSize size ∧ ¬ Datum.AllShort size.integers := by
  simp only [parse_eq_error_iff, ← Datum.exists_toText_iff]
  constructor
  · rintro ⟨cause, h⟩
    cases h with
    | unshowableSize hsize htext => exact ⟨hsize, fun ⟨shown, hshown⟩ => by simp [htext] at hshown⟩
  · rintro ⟨hsize, htext⟩
    cases hshown : size.toText with
    | ok shown => exact absurd ⟨shown, hshown⟩ htext
    | error cause => exact ⟨cause, .unshowableSize hsize hshown⟩

theorem exists_parse_iff :
    (∃ r, parse size lines = .ok r) ↔
      IsTapeSize size ∧ (∀ line ∈ lines, ¬ Malformed (dropLineEnd line)) ∧
        (linesOf .initial lines ≠ [] ∨ ruleLines lines ≠ []) := by
  constructor
  · rintro ⟨r, hr⟩
    rcases exists_failsWith_or size lines with ⟨fault, hfails⟩ | hprogram
    · rw [hfails.parse_eq_error] at hr
      cases hr
    · exact hprogram
  · rintro ⟨hsize, hlines, hstart⟩
    exact exists_parse_of_not_malformed hsize hlines hstart

theorem exists_line_fault_iff :
    (∃ number text fault, parse size lines = .error (.line number text fault)) ↔
      IsTapeSize size ∧ ∃ line ∈ lines, Malformed (dropLineEnd line) := by
  constructor
  · rintro ⟨number, text, fault, hparse⟩
    cases parse_eq_error_iff.mp hparse with
    | @line before line rest _ hsize hlines hbefore hfault =>
        have hline : line ∈ lines := by simp [hlines]
        exact ⟨hsize, line, hline, _, hfault⟩
  · rintro ⟨hsize, hlines⟩
    obtain ⟨before, line, rest, heq, hbefore, fault, hfault⟩ := exists_firstFault hlines
    exact ⟨_, _, _, (FailsWith.line hsize heq hbefore hfault).parse_eq_error⟩

/-- What comes after a malformed line is not looked at. -/
theorem parse_append_cons
    {before : List (List Char)} {line : List Char} (h : Malformed (dropLineEnd line))
    (size : Datum) (rest rest' : List (List Char)) :
    parse size (before ++ line :: rest) = parse size (before ++ line :: rest') := by
  by_cases hsize : IsTapeSize size
  · have hsome : ∃ other ∈ before ++ [line], Malformed (dropLineEnd other) :=
      ⟨line, by simp, h⟩
    obtain ⟨before', line', rest₀, heq, hbefore, fault, hfault⟩ := exists_firstFault hsome
    have hsplit (rest : List (List Char)) :
        before ++ line :: rest = before' ++ line' :: (rest₀ ++ rest) := by
      rw [List.append_cons, heq]
      simp
    rw [(FailsWith.line hsize (hsplit rest) hbefore hfault).parse_eq_error,
      (FailsWith.line hsize (hsplit rest') hbefore hfault).parse_eq_error]
  · obtain ⟨fault, hfails⟩ := exists_failsWith_of_not_isTapeSize hsize
    rw [(hfails _).parse_eq_error, (hfails _).parse_eq_error]

end Parse

/-- Lines are refused in no other way than `FailsWith` tells, and read otherwise.  A size that is no
tape size is refused as one, whatever the lines are, if it can be shown, which it cannot exactly
when an integer in it is too long.  A malformed line that comes first is always told, by its number,
and ends the reading. -/
theorem parse_fails_exactly
    (size : Datum) (lines : List (List Char)) :
    (∀ fault, parse size lines = .error fault ↔ FailsWith size lines fault) ∧
      ((∃ shown, parse size lines = .error (.tapeSize (.illegal shown))) ↔
        ¬ IsTapeSize size ∧ Datum.AllShort size.integers) ∧
      ((∃ cause, parse size lines = .error (.tapeSize (.unshowable cause))) ↔
        ¬ IsTapeSize size ∧ ¬ Datum.AllShort size.integers) ∧
      ((∃ number text fault, parse size lines = .error (.line number text fault)) ↔
        IsTapeSize size ∧ ∃ line ∈ lines, Malformed (dropLineEnd line)) ∧
      ((∃ r, parse size lines = .ok r) ↔
        IsTapeSize size ∧ (∀ line ∈ lines, ¬ Malformed (dropLineEnd line)) ∧
          (linesOf .initial lines ≠ [] ∨ ruleLines lines ≠ [])) ∧
      ∀ before line rest rest', lines = before ++ line :: rest → Malformed (dropLineEnd line) →
        parse size (before ++ line :: rest') = parse size lines := by
  refine ⟨fun fault => parse_eq_error_iff, exists_illegal_iff, exists_unshowable_iff,
    exists_line_fault_iff, exists_parse_iff, ?_⟩
  intro before line rest rest' hlines hmalformed
  rw [hlines]
  exact parse_append_cons hmalformed size rest' rest

/-- A terminal state that is only a comment, behind a blank line and before another faulty one. -/
theorem parse_fails_exactly_in_third_line :
    parse (.int 3) ["a b ! c R\n".toList, " \n".toList, "#  ;u\n".toList, "~".toList] =
        .error (.line 3 "#  ;u".toList .noTerminal) ∧
      parse (.int 3) ["a b ! c R\n".toList, " \n".toList, "#  ;u\n".toList] =
        .error (.line 3 "#  ;u".toList .noTerminal) := by
  let before := ["a b ! c R\n".toList, " \n".toList]
  let line := "#  ;u\n".toList
  obtain ⟨hfault, -, -, -, -, hcontinued⟩ :=
    parse_fails_exactly (.int 3) (before ++ line :: ["~".toList])
  have hsize : IsTapeSize (.int 3) := ⟨3, by decide, rfl⟩
  have hbefore : ∀ earlier ∈ before, ¬ Malformed (dropLineEnd earlier) := by
    simp only [before, List.forall_mem_cons, not_malformed_iff]
    exact ⟨⟨_, rfl⟩, ⟨_, rfl⟩, by simp⟩
  have hline : Item.Faulty (dropLineEnd line) .noTerminal := .terminal (by decide) (by decide)
  have hparse := (hfault _).mpr (.line hsize rfl hbefore hline)
  have hshorter := hcontinued before line ["~".toList] [] rfl ⟨_, hline⟩
  exact ⟨hparse, hshorter.trans hparse⟩

/-- A negative number of so many digits is no tape size, and is not refused as one. -/
theorem parse_neg_pow_eq_unshowable
    {digits : Nat} (h : maxDecimalDigits ≤ digits) (lines : List (List Char)) :
    ¬ IsTapeSize (.int (-10 ^ digits)) ∧
      parse (.int (-10 ^ digits)) lines = .error (.tapeSize (.unshowable .integerTooLong)) := by
  have hsize : ¬ IsTapeSize (.int (-10 ^ digits)) := by
    rintro ⟨n, hn, heq⟩
    obtain rfl : -10 ^ digits = n := Datum.int.inj heq
    exact absurd hn (Int.not_lt.mpr (Int.neg_nonpos_of_nonneg (Int.pow_nonneg (by decide))))
  have hlong : ¬ Datum.AllShort (Datum.int (-10 ^ digits)).integers := by
    intro hshort
    have hlt := hshort _ (List.mem_singleton_self _)
    rw [Int.natAbs_neg, Int.natAbs_pow] at hlt
    exact absurd hlt (Nat.not_lt.mpr (Nat.pow_le_pow_right (by decide) h))
  obtain ⟨⟨⟩, hfault⟩ := exists_unshowable_iff.mpr ⟨hsize, hlong⟩
  exact ⟨hsize, hfault⟩

/-- So a size that is no tape size may be refused without being shown, whatever the lines are. -/
theorem exists_parse_ne_illegal :
    ∃ size : Datum, size = .int (-10 ^ 5000) ∧ ¬ IsTapeSize size ∧
      ∀ lines, parse size lines = .error (.tapeSize (.unshowable .integerTooLong)) ∧
        ∀ shown, parse size lines ≠ .error (.tapeSize (.illegal shown)) := by
  have hlong (lines : List (List Char)) :=
    parse_neg_pow_eq_unshowable (by decide : maxDecimalDigits ≤ 5000) lines
  refine ⟨_, rfl, (hlong []).1, fun lines => ⟨(hlong lines).2, fun shown hillegal => ?_⟩⟩
  rw [(hlong lines).2] at hillegal
  cases hillegal

end Program

end RingTape
