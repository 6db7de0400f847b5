import RingTape.Proofs.Yaml.ScalarText
import RingTape.Yaml.Token.Lexer

/-!
# What stands between tokens

Blank lines, comments and the indentation of the next line are passed over, in one go or by a plain
scalar that looks for its next line.
-/

namespace RingTape.Yaml

open Cursor LexState

variable {index line column : Nat} {rest : List Char}

variable {text : List Char} {p : Pad} {comment : List Char}

theorem Pad.chars_append_none
    (h : p.comment = none) :
    p.chars ++ text = spaces p.width ++ '\n' :: text := by
  rw [Pad.chars, h, List.append_assoc]
  rfl

theorem Pad.chars_append_some
    (h : p.comment = some comment) :
    p.chars ++ text = spaces p.width ++ '#' :: (comment ++ '\n' :: text) := by
  rw [Pad.chars, h, List.append_assoc, Option.elim_some, List.cons_append, List.cons_append,
    List.append_assoc, List.singleton_append]

theorem Pad.length_comment_le
    (h : p.comment = some comment) :
    ('#' :: (comment ++ '\n' :: text)).length ≤ (p.chars ++ text).length := by
  rw [Pad.chars_append_some h, List.length_append]
  exact Nat.le_add_left _ _

theorem skipComment_comment
    (h : IsInline comment) :
    skipComment ⟨'#' :: (comment ++ '\n' :: text), index, line, column⟩ =
      ⟨'\n' :: text, index + (comment.length + 1), line, column + (comment.length + 1)⟩ := by
  have hinline : IsInline ('#' :: comment) := isInline_cons.mpr ⟨by decide, h⟩
  have hkept : ∀ c ∈ '#' :: comment, (!isBreak c) = true := by
    intro c hc
    rw [not_isBreak_of_isInline (hinline c hc)]
    rfl
  have hat : (⟨'#' :: (comment ++ '\n' :: text), index, line, column⟩ : Cursor).at? '#' = true :=
    rfl
  rw [skipComment, if_pos hat, skipWhile, ← List.cons_append, takeWhile_eq hinline hkept rfl]
  rfl

/-- After its spaces and its comment a line ends. -/
theorem skipComment_pad
    (hp : p.Legible) :
    ∃ width, (⟨p.chars ++ text, index, line, column⟩ : Cursor).skipSpaces.skipComment =
      ⟨'\n' :: text, index + width, line, column + width⟩ := by
  cases hcomment : p.comment with
  | none =>
      refine ⟨p.width, ?_⟩
      rw [Pad.chars_append_none hcomment, skipSpaces_eq (by simp)]
      rfl
  | some comment =>
      refine ⟨p.width + (comment.length + 1), ?_⟩
      rw [Pad.chars_append_some hcomment, skipSpaces_eq (by simp),
        skipComment_comment (hp comment hcomment), Nat.add_assoc, Nat.add_assoc]

/-- After spaces the next token stands on the same line. -/
theorem skipToToken_spaces
    {fuel : Nat} (n : Nat) (hrest : StartsToken rest) :
    skipToToken (fuel + 1) ⟨spaces n ++ rest, index, line, column⟩ =
      (false, ⟨rest, index + n, line, column + n⟩) := by
  have hskip : (⟨spaces n ++ rest, index, line, column⟩ : Cursor).skipSpaces.skipComment =
      ⟨rest, index + n, line, column + n⟩ := by
    rw [skipSpaces_eq hrest.head?_ne, skipComment, hrest.not_at]
    rfl
  simp only [skipToToken, hskip, takeBreak_of_not_isBreak hrest.not_isBreak]

/-- The lines up to a token: lines without an entry, and then the indentation of the token, which
does not look like the border of a document. -/
inductive Lands (column : Nat) (rest : List Char) : List Char → Prop where
  | here (starts : StartsToken rest) (border : column = 0 → NoBorder rest) :
      Lands column rest (spaces column ++ rest)
  | pad {p : Pad} {text : List Char} (legible : p.Legible) (lands : Lands column rest text) :
      Lands column rest (p.chars ++ text)

theorem Pad.head?_chars
    (p : Pad) (text : List Char) :
    ∃ c, (p.chars ++ text).head? = some c ∧ (c = ' ' ∨ c = '#' ∨ c = '\n') := by
  obtain ⟨width, comment⟩ := p
  cases width with
  | zero =>
      cases comment with
      | none => exact ⟨'\n', rfl, .inr (.inr rfl)⟩
      | some comment => exact ⟨'#', rfl, .inr (.inl rfl)⟩
  | succ width => exact ⟨' ', rfl, .inl rfl⟩

theorem Pad.length_pos
    (p : Pad) :
      0 < p.chars.length := by
  have hfeed : '\n' ∈ p.chars := by simp [Pad.chars]
  exact List.length_pos_of_mem hfeed

theorem Pad.length_lt
    (p : Pad) {fuel : Nat} (h : (p.chars ++ text).length < fuel + 1) :
    text.length < fuel := by
  have hpositive := p.length_pos
  rw [List.length_append] at h
  omega

theorem Lands.noBorder
    (h : Lands column rest text) :
    NoBorder text := by
  cases h with
  | here starts border =>
      cases column with
      | zero => exact border rfl
      | succ n => exact noBorder_of_head? (c := ' ') rfl (by decide) (by decide)
  | @pad p text legible lands =>
      obtain ⟨c, hhead, rfl | rfl | rfl⟩ := p.head?_chars text
      · exact noBorder_of_head? hhead (by decide) (by decide)
      · exact noBorder_of_head? hhead (by decide) (by decide)
      · exact noBorder_of_head? hhead (by decide) (by decide)

theorem Lands.length_le
    (h : Lands column rest text) :
    rest.length ≤ text.length := by
  induction h with
  | here => simp
  | pad _ _ ih => exact ih.trans (by simp)

/-- The end of a line is passed over. -/
theorem skipToToken_pad
    (hp : p.Legible) (text : List Char) (fuel : Nat) :
    ∃ index', skipToToken (fuel + 1) ⟨p.chars ++ text, index, line, column⟩ =
      (true, (skipToToken fuel ⟨text, index', line + 1, 0⟩).2) := by
  obtain ⟨width, hskip⟩ : ∃ width,
      (⟨p.chars ++ text, index, line, column⟩ : Cursor).skipSpaces.skipComment =
        ⟨'\n' :: text, index + width, line, column + width⟩ := skipComment_pad hp
  refine ⟨index + width + 1, ?_⟩
  simp only [skipToToken, hskip, takeBreak_lineFeed]

/-- Over the lines before it the next token is found, in the column that it stands in. -/
theorem skipToToken_lands
    (h : Lands column rest text) {fuel : Nat} (hfuel : text.length < fuel) :
    ∃ broken index' line', skipToToken fuel ⟨text, index, line, 0⟩ =
      (broken, ⟨rest, index', line', column⟩) := by
  induction h generalizing fuel index line with
  | here starts border =>
      obtain ⟨fuel, rfl⟩ := Nat.exists_eq_succ_of_ne_zero (Nat.ne_zero_of_lt hfuel)
      refine ⟨false, index + column, line, ?_⟩
      rw [skipToToken_spaces column starts, Nat.zero_add]
  | @pad p text legible lands ih =>
      obtain ⟨fuel, rfl⟩ := Nat.exists_eq_succ_of_ne_zero (Nat.ne_zero_of_lt hfuel)
      have hshorter : text.length < fuel := p.length_lt hfuel
      obtain ⟨index', hnext⟩ : ∃ index', skipToToken (fuel + 1)
            ⟨p.chars ++ text, index, line, 0⟩ =
          (true, (skipToToken fuel ⟨text, index', line + 1, 0⟩).2) := skipToToken_pad legible text fuel
      obtain ⟨broken, index'', line', hlands⟩ : ∃ broken index'' line',
          skipToToken fuel ⟨text, index', line + 1, 0⟩ = (broken, ⟨rest, index'', line', column⟩) :=
        ih hshorter
      exact ⟨true, index'', line', by rw [hnext, hlands]⟩

/-- After some lines there is only one next token. -/
theorem Lands.unique
    {width : Nat} {first : List Char} (h : Lands column rest text) (h' : Lands width first text) :
    column = width ∧ rest = first := by
  obtain ⟨broken, index, line, hfinds⟩ : ∃ broken index line,
      skipToToken (text.length + 1) ⟨text, 0, 0, 0⟩ = (broken, ⟨rest, index, line, column⟩) :=
    skipToToken_lands h (Nat.lt_succ_self _)
  obtain ⟨broken', index', line', hfinds'⟩ : ∃ broken index line,
      skipToToken (text.length + 1) ⟨text, 0, 0, 0⟩ = (broken, ⟨first, index, line, width⟩) :=
    skipToToken_lands h' (Nat.lt_succ_self _)
  rw [hfinds, Prod.mk.injEq, Cursor.mk.injEq] at hfinds'
  exact ⟨hfinds'.2.2.2.2, hfinds'.2.1⟩

/-- From here the next token is found in the given column, and it may be a key. -/
structure Reaches (allowed : Bool) (c : Cursor) (column : Nat) (rest : List Char) : Prop where
  shorter : rest.length ≤ c.rest.length
  unmarked : c.at? byteOrderMark = false
  finds : ∃ broken index line,
    skipToToken (c.rest.length + 1) c = (broken, ⟨rest, index, line, column⟩) ∧
      (allowed || broken) = true

variable {width : Nat}

theorem Pad.not_at_mark
    (p : Pad) (text : List Char) :
    (⟨p.chars ++ text, index, line, column⟩ : Cursor).at? byteOrderMark = false := by
  obtain ⟨c, hhead, hc⟩ := p.head?_chars text
  apply beq_false_of_ne
  rw [peek?, hhead]
  rcases hc with rfl | rfl | rfl <;> decide

theorem Lands.not_at_mark
    (h : Lands width rest text) :
    (⟨text, index, line, column⟩ : Cursor).at? byteOrderMark = false := by
  cases h with
  | here starts =>
      cases width with
      | zero => exact starts.not_at_mark
      | succ n => rfl
  | @pad p text => exact p.not_at_mark text

theorem reaches_here
    (hrest : StartsToken rest) :
    Reaches true ⟨rest, index, line, column⟩ column rest :=
  ⟨le_rfl, hrest.not_at_mark, false, index, line, skipToToken_spaces 0 hrest, rfl⟩

theorem reaches_lands
    (h : Lands width rest text) :
    Reaches true ⟨text, index, line, 0⟩ width rest := by
  obtain ⟨broken, index', line', hfinds⟩ : ∃ broken index' line',
      skipToToken (text.length + 1) ⟨text, index, line, 0⟩ =
        (broken, ⟨rest, index', line', width⟩) := skipToToken_lands h (Nat.lt_succ_self _)
  exact ⟨h.length_le, h.not_at_mark, broken, index', line', hfinds, rfl⟩

theorem reaches_pad
    (hp : p.Legible) (h : Lands width rest text) (allowed : Bool) :
    Reaches allowed ⟨p.chars ++ text, index, line, column⟩ width rest := by
  have hshorter : text.length < (p.chars ++ text).length := by
    rw [List.length_append]
    exact Nat.lt_add_of_pos_left p.length_pos
  obtain ⟨index', hnext⟩ : ∃ index', skipToToken ((p.chars ++ text).length + 1)
        ⟨p.chars ++ text, index, line, column⟩ =
      (true, (skipToToken (p.chars ++ text).length ⟨text, index', line + 1, 0⟩).2) :=
    skipToToken_pad hp text _
  obtain ⟨broken, index'', line', hlands⟩ : ∃ broken index'' line',
      skipToToken (p.chars ++ text).length ⟨text, index', line + 1, 0⟩ =
        (broken, ⟨rest, index'', line', width⟩) := skipToToken_lands h hshorter
  refine ⟨h.length_le.trans hshorter.le, p.not_at_mark text, true, index'', line', ?_, ?_⟩
  · rw [hnext, hlands]
  · exact Bool.or_true allowed

theorem reaches_comment
    (hcomment : IsInline comment) (h : Lands width rest text) (allowed : Bool) :
    Reaches allowed ⟨'#' :: (comment ++ '\n' :: text), index, line, column⟩ width rest := by
  have hp : Pad.Legible ⟨0, some comment⟩ := by
    intro more hmore
    rwa [← Option.some.inj hmore]
  have hreaches : Reaches allowed ⟨Pad.chars ⟨0, some comment⟩ ++ text, index, line, column⟩ width
      rest := reaches_pad hp h allowed
  rwa [Pad.chars_append_some rfl] at hreaches

/-- A plain scalar looks for its next line up to a comment or up to the next token. -/
theorem plainBreaks_lands
    (h : Lands width rest text) {fuel : Nat} (hfuel : text.length < fuel) :
    ∃ breaks c, plainBreaks fuel ⟨text, index, line, 0⟩ = (some breaks, c) ∧
      (c.at? '#' = true ∨ c.column = width) ∧ c.rest.length ≤ text.length ∧
      Reaches true c width rest := by
  induction h generalizing fuel index line with
  | here starts border =>
      obtain ⟨fuel, rfl⟩ := Nat.exists_eq_succ_of_ne_zero (Nat.ne_zero_of_lt hfuel)
      refine ⟨[], ⟨rest, index + width, line, width⟩, ?_, .inr rfl, by simp, reaches_here starts⟩
      rw [plainBreaks, skipSpaces_eq starts.head?_ne, takeBreak_of_not_isBreak starts.not_isBreak,
        Nat.zero_add]
  | @pad p text legible lands ih =>
      obtain ⟨fuel, rfl⟩ := Nat.exists_eq_succ_of_ne_zero (Nat.ne_zero_of_lt hfuel)
      cases hcomment : p.comment with
      | none =>
          obtain ⟨breaks, c, hbreaks, hstops, hshorter, hreaches⟩ : ∃ breaks c,
              plainBreaks fuel ⟨text, index + p.width + 1, line + 1, 0⟩ = (some breaks, c) ∧
                (c.at? '#' = true ∨ c.column = width) ∧ c.rest.length ≤ text.length ∧
                Reaches true c width rest := ih (p.length_lt hfuel)
          refine ⟨'\n' :: breaks, c, ?_, hstops, hshorter.trans (by simp), hreaches⟩
          rw [Pad.chars_append_none hcomment, plainBreaks, skipSpaces_eq (by simp),
            takeBreak_lineFeed]
          dsimp only
          rw [not_atSeparator lands.noBorder, hbreaks]
          rfl
      | some comment =>
          refine ⟨[], ⟨'#' :: (comment ++ '\n' :: text), index + p.width, line, 0 + p.width⟩, ?_,
            .inl rfl, p.length_comment_le hcomment,
            reaches_comment (legible comment hcomment) lands true⟩
          rw [Pad.chars_append_some hcomment, plainBreaks, skipSpaces_eq (by simp),
            takeBreak_of_not_isBreak rfl]

/-- A plain scalar ends with its line when the next token is in a column before it. -/
theorem afterRun_pad
    (hp : p.Legible) (h : Lands width rest text) {indent : Int} (hwidth : width < indent) :
    ∃ ended c, (∀ fuel read,
        afterRun false indent fuel read ⟨p.chars ++ text, index, line, column⟩ = (read, ended, c)) ∧
      c.rest.length ≤ (p.chars ++ text).length ∧ Reaches ended c width rest := by
  cases hcomment : p.comment with
  | none =>
      obtain ⟨breaks, c, hbreaks, hstops, hshorter, hreaches⟩ : ∃ breaks c,
          plainBreaks (text.length + 1) ⟨text, index + p.width + 1, line + 1, 0⟩ =
            (some breaks, c) ∧ (c.at? '#' = true ∨ c.column = width) ∧
            c.rest.length ≤ text.length ∧ Reaches true c width rest :=
        plainBreaks_lands h (Nat.lt_succ_self text.length)
      refine ⟨true, c, fun fuel read => ?_, hshorter.trans (by simp), hreaches⟩
      have hplain : plainSpaces ⟨p.chars ++ text, index, line, column⟩ =
          (fold ['\n'] breaks, true, c) := by
        rw [Pad.chars_append_none hcomment, plainSpaces, takeWhile_spaces (by simp)]
        dsimp only
        rw [takeBreak_lineFeed]
        dsimp only
        rw [not_atSeparator h.noBorder, hbreaks]
        rfl
      have hends : (c.at? '#' || !false && decide ((c.column : Int) < indent)) = true := by
        rcases hstops with hat | hcolumn
        · rw [hat, Bool.true_or]
        · rw [hcolumn, decide_eq_true hwidth]
          exact Bool.or_true _
      rw [afterRun, hplain]
      dsimp only
      rw [Bool.or_assoc, hends, Bool.or_true]
      rfl
  | some comment =>
      refine ⟨false, ⟨'#' :: (comment ++ '\n' :: text), index + p.width, line, column + p.width⟩,
        fun fuel read => ?_, p.length_comment_le hcomment,
        reaches_comment (hp comment hcomment) h false⟩
      have hplain : plainSpaces ⟨p.chars ++ text, index, line, column⟩ =
          (spaces p.width, false,
            ⟨'#' :: (comment ++ '\n' :: text), index + p.width, line, column + p.width⟩) := by
        rw [Pad.chars_append_some hcomment, plainSpaces, takeWhile_spaces (by simp)]
        dsimp only
        rw [takeBreak_of_not_isBreak rfl]
      have hat : (⟨'#' :: (comment ++ '\n' :: text), index + p.width, line,
          column + p.width⟩ : Cursor).at? '#' = true := rfl
      rw [afterRun, hplain]
      dsimp only
      rw [hat, Bool.or_true]
      rfl

end RingTape.Yaml
