import RingTape.Proofs.Checked
import RingTape.Proofs.Text.Fields
import RingTape.Table.SymbolGroup

/-!
# Groups between quotes

A line is changed only if it starts with a group and a colon, and then the two quotes are all that
it gains.  Blanks before such a line and anything after its colon do not matter.  A line can be seen
as such a line in one way only, and with its quotes it is none any more.
-/

namespace RingTape

namespace Table

open Text

/-! ## Lines that start with a group -/

/-- The parts of a line that starts with a group and a colon.  The group ends with its first closing
bracket. -/
structure GroupLine where
  indent : List Char
  body : List Char
  gap : List Char
  rest : List Char
  isBlank_indent : ∀ c ∈ indent, isBlank c = true
  body_ne_nil : body ≠ []
  not_mem_body : ']' ∉ body
  isBlank_gap : ∀ c ∈ gap, isBlank c = true

namespace GroupLine

/-- The line as it is written. -/
def chars (g : GroupLine) : List Char :=
  g.indent ++ ('[' :: (g.body ++ ']' :: (g.gap ++ ':' :: g.rest)))

/-- The line with its group between quotes. -/
def quoted (g : GroupLine) : List Char :=
  g.indent ++ ('"' :: '[' :: (g.body ++ ']' :: '"' :: (g.gap ++ ':' :: g.rest)))

/-- The line with more text after it. -/
def extended (g : GroupLine) (more : List Char) : GroupLine :=
  { g with rest := g.rest ++ more }

@[simp] theorem chars_extended
    (g : GroupLine) (more : List Char) :
    (g.extended more).chars = g.chars ++ more := by
  simp [chars, extended]

@[simp] theorem quoted_extended
    (g : GroupLine) (more : List Char) :
    (g.extended more).quoted = g.quoted ++ more := by
  simp [quoted, extended]

theorem dropWhile_chars
    (g : GroupLine) :
    g.chars.dropWhile isBlank = '[' :: (g.body ++ ']' :: (g.gap ++ ':' :: g.rest)) := by
  rw [chars, List.dropWhile_append_of_pos g.isBlank_indent, List.dropWhile_cons_of_neg (by decide)]

theorem takeWhile_chars
    (g : GroupLine) :
    g.chars.takeWhile isBlank = g.indent := by
  rw [chars, List.takeWhile_append_of_pos g.isBlank_indent,
    List.takeWhile_cons_of_neg (by decide), List.append_nil]

/-- The first bracket, the first closing bracket after it and the colon behind that are where a line
is cut. -/
theorem chars_injective :
    Function.Injective chars := by
  intro g g' h
  have hindent : g.indent = g'.indent := by
    rw [← g.takeWhile_chars, ← g'.takeWhile_chars, h]
  have hinside : g.body ++ ']' :: (g.gap ++ ':' :: g.rest) =
      g'.body ++ ']' :: (g'.gap ++ ':' :: g'.rest) := by
    have hdrop := congrArg (List.dropWhile isBlank) h
    rw [g.dropWhile_chars, g'.dropWhile_chars] at hdrop
    exact List.tail_eq_of_cons_eq hdrop
  obtain ⟨hbody, hbehind⟩ := append_cons_inj_of_not_mem g.not_mem_body g'.not_mem_body hinside
  obtain ⟨hgap, hrest⟩ := append_cons_inj_of_not_mem
    (fun hmem => absurd (g.isBlank_gap ':' hmem) (by decide))
    (fun hmem => absurd (g'.isBlank_gap ':' hmem) (by decide)) hbehind
  cases g
  cases g'
  congr

theorem quoteGroup_chars
    (g : GroupLine) :
    quoteGroup g.chars = g.quoted := by
  have hinner : ∀ c ∈ g.body, (c != ']') = true :=
    fun c hc => bne_iff_ne.mpr fun heq => g.not_mem_body (heq ▸ hc)
  have hdrop : (g.body ++ ']' :: (g.gap ++ ':' :: g.rest)).dropWhile (· != ']') =
      ']' :: (g.gap ++ ':' :: g.rest) := by
    rw [List.dropWhile_append_of_pos hinner]
    rfl
  have htake : (g.body ++ ']' :: (g.gap ++ ':' :: g.rest)).takeWhile (· != ']') = g.body := by
    rw [List.takeWhile_append_of_pos hinner, List.takeWhile_cons_of_neg (by decide),
      List.append_nil]
  have hcolon : ((g.gap ++ ':' :: g.rest).dropWhile isBlank).head? = some ':' := by
    rw [List.dropWhile_append_of_pos g.isBlank_gap, List.dropWhile_cons_of_neg (by decide)]
    rfl
  simp only [quoteGroup, g.dropWhile_chars, g.takeWhile_chars, hdrop, htake, hcolon]
  simp [g.body_ne_nil, quoted]

theorem quoted_ne_chars
    (g : GroupLine) :
    g.quoted ≠ g.chars := by
  intro h
  have hlength := congrArg List.length h
  simp only [quoted, chars, List.length_append, List.length_cons] at hlength
  omega

end GroupLine

/-- A line that is changed starts with a group. -/
theorem exists_groupLine
    {line : List Char} (h : quoteGroup line ≠ line) :
    ∃ g : GroupLine, g.chars = line := by
  revert h
  fun_cases quoteGroup line with
  | case1 body hline tail hclose inner hgroup =>
      intro _
      rw [Bool.and_eq_true, Bool.not_eq_true', List.isEmpty_eq_false_iff, beq_iff_eq] at hgroup
      obtain ⟨rest, hrest⟩ := List.head?_eq_some_iff.mp hgroup.2
      let g : GroupLine := {
        indent := line.takeWhile isBlank
        body := inner
        gap := tail.takeWhile isBlank
        rest := rest
        isBlank_indent := fun c hc => List.mem_takeWhile_imp hc
        body_ne_nil := hgroup.1
        not_mem_body := fun hmem => by simpa using List.mem_takeWhile_imp hmem
        isBlank_gap := fun c hc => List.mem_takeWhile_imp hc }
      have htail : g.gap ++ ':' :: g.rest = tail := by
        rw [← hrest, List.takeWhile_append_dropWhile]
      have hbody : g.body ++ ']' :: tail = body := by
        rw [← hclose, List.takeWhile_append_dropWhile]
      refine ⟨g, ?_⟩
      rw [GroupLine.chars, htail, hbody, ← hline, List.takeWhile_append_dropWhile]
  | case2 => exact fun h => absurd rfl h
  | case3 => exact fun h => absurd rfl h
  | case4 => exact fun h => absurd rfl h

/-- A line starts with a group and a colon. -/
def IsGroupLine (line : List Char) : Prop :=
  ∃ g : GroupLine, g.chars = line

theorem isGroupLine_iff
    {line : List Char} :
    IsGroupLine line ↔ quoteGroup line ≠ line := by
  constructor
  · rintro ⟨g, rfl⟩
    rw [g.quoteGroup_chars]
    exact g.quoted_ne_chars
  · exact exists_groupLine

instance (line : List Char) : Decidable (IsGroupLine line) :=
  decidable_of_iff' _ isGroupLine_iff

theorem quoteGroup_of_not_isGroupLine
    {line : List Char} (h : ¬IsGroupLine line) :
    quoteGroup line = line :=
  Decidable.not_not.mp fun hne => h (isGroupLine_iff.mpr hne)

theorem quoteGroup_append
    {line : List Char} (h : IsGroupLine line) (more : List Char) :
    quoteGroup (line ++ more) = quoteGroup line ++ more := by
  obtain ⟨g, rfl⟩ := h
  rw [← g.chars_extended, GroupLine.quoteGroup_chars, GroupLine.quoteGroup_chars,
    g.quoted_extended]

theorem not_isGroupLine_of_blank
    {line : List Char} (h : ∀ c ∈ line, isBlank c = true) :
    ¬IsGroupLine line := by
  rintro ⟨g, rfl⟩
  have hdrop := List.dropWhile_eq_nil_iff.mpr h
  rw [g.dropWhile_chars] at hdrop
  cases hdrop

/-- Blanks before a line are kept, whether it starts with a group or not. -/
theorem quoteGroup_blank_append
    {blanks : List Char} (h : ∀ c ∈ blanks, isBlank c = true) (line : List Char) :
    quoteGroup (blanks ++ line) = blanks ++ quoteGroup line := by
  rw [quoteGroup, quoteGroup, List.dropWhile_append_of_pos h, List.takeWhile_append_of_pos h]
  split
  · split
    · dsimp only
      split
      · simp only [List.append_assoc]
      · rfl
    · rfl
  · rfl

theorem isGroupLine_blank_append
    {blanks : List Char} (h : ∀ c ∈ blanks, isBlank c = true) {line : List Char} :
    IsGroupLine (blanks ++ line) ↔ IsGroupLine line := by
  rw [isGroupLine_iff, isGroupLine_iff, quoteGroup_blank_append h, ne_eq, ne_eq,
    List.append_cancel_left_eq]

theorem mem_quoteGroup
    {line : List Char} {c : Char} (h : c ∈ quoteGroup line) :
    c = '"' ∨ c ∈ line := by
  by_cases hline : IsGroupLine line
  · obtain ⟨g, rfl⟩ := hline
    rw [g.quoteGroup_chars] at h
    simp only [GroupLine.quoted, GroupLine.chars, List.mem_append, List.mem_cons] at h ⊢
    tauto
  · rw [quoteGroup_of_not_isGroupLine hline] at h
    exact .inr h

theorem eq_nil_of_quoteGroup_eq_nil
    {line : List Char} (h : quoteGroup line = []) :
    line = [] := by
  by_cases hline : IsGroupLine line
  · obtain ⟨g, rfl⟩ := hline
    simp [g.quoteGroup_chars, GroupLine.quoted] at h
  · rwa [quoteGroup_of_not_isGroupLine hline] at h

/-! ## Piece by piece -/

/-- The text with `f` applied to each of its pieces between the characters `s`. -/
def mapPieces (s : Char) (f : List Char → List Char) (text : List Char) : List Char :=
  joinWith [s] ((splitWhere (· == s) text).map f)

variable {s : Char} {f : List Char → List Char}

theorem mapPieces_of_not_mem
    {text : List Char} (h : s ∉ text) :
    mapPieces s f text = f text := by
  rw [mapPieces, splitWhere_of_forall_not]
  · rfl
  · exact fun c hc => beq_false_of_ne fun heq => h (heq ▸ hc)

theorem mapPieces_append_cons
    {piece : List Char} (h : s ∉ piece) (rest : List Char) :
    mapPieces s f (piece ++ s :: rest) = f piece ++ s :: mapPieces s f rest := by
  have hpiece : ∀ c ∈ piece, (c == s) = false :=
    fun c hc => beq_false_of_ne fun heq => h (heq ▸ hc)
  rw [mapPieces, splitWhere_append_cons hpiece (beq_self_eq_true s), List.map_cons, mapPieces]
  cases hpieces : (splitWhere (· == s) rest).map f with
  | nil => exact absurd (List.map_eq_nil_iff.mp hpieces) (splitWhere_ne_nil _ _)
  | cons next others => simp [joinWith]

/-! ## Line by line -/

/-- The lines of a text, between its line feeds. -/
def feedLines (text : List Char) : List (List Char) :=
  splitWhere (· == '\n') text

theorem feedLines_quoteGroups
    (text : List Char) :
    feedLines (quoteGroups text) = (feedLines text).map quoteGroup := by
  rw [feedLines, quoteGroups, splitWhere_joinWith]
  · rfl
  · simpa using splitWhere_ne_nil _ text
  · intro line hline hfeed
    obtain ⟨old, hold, rfl⟩ := List.mem_map.mp hline
    rcases mem_quoteGroup hfeed with hquote | hfeed
    · exact absurd hquote (by decide)
    · exact absurd (not_of_mem_splitWhere hold _ hfeed).1 (by decide)

theorem not_isGroupLine_quoteGroup
    (line : List Char) :
    ¬IsGroupLine (quoteGroup line) := by
  by_cases hline : IsGroupLine line
  · obtain ⟨g, rfl⟩ := hline
    rw [g.quoteGroup_chars]
    rintro ⟨g', hg'⟩
    have hdrop := congrArg (List.dropWhile isBlank) hg'
    rw [g'.dropWhile_chars, GroupLine.quoted, List.dropWhile_append_of_pos g.isBlank_indent,
      List.dropWhile_cons_of_neg (by decide)] at hdrop
    exact absurd (List.head_eq_of_cons_eq hdrop) (by decide)
  · rwa [quoteGroup_of_not_isGroupLine hline]

/-- Lines are changed one by one, exactly those that start with a group and a colon are, and these
gain the quotes around the group and nothing else.  No line that starts with a group is left, so
that nothing changes when groups are put between quotes again. -/
theorem quoteGroups_line_by_line
    (text : List Char) :
    (feedLines (quoteGroups text)).length = (feedLines text).length ∧
      List.Forall₂
        (fun old new => (new ≠ old ↔ IsGroupLine old) ∧ ∀ g : GroupLine, g.chars = old → new = g.quoted)
        (feedLines text) (feedLines (quoteGroups text)) ∧
      Function.Injective GroupLine.chars ∧
      (∀ line ∈ feedLines (quoteGroups text), ¬IsGroupLine line) ∧
      quoteGroups (quoteGroups text) = quoteGroups text := by
  have hnone : ∀ line ∈ feedLines (quoteGroups text), ¬IsGroupLine line := by
    rw [feedLines_quoteGroups, List.forall_mem_map]
    exact fun line _ => not_isGroupLine_quoteGroup line
  refine ⟨?_, ?_, GroupLine.chars_injective, hnone, ?_⟩
  · rw [feedLines_quoteGroups, List.length_map]
  · rw [feedLines_quoteGroups, List.forall₂_map_right_iff, List.forall₂_same]
    intro line _
    refine ⟨isGroupLine_iff.symm, ?_⟩
    rintro g rfl
    exact g.quoteGroup_chars
  · have hsame : (feedLines (quoteGroups text)).map quoteGroup = feedLines (quoteGroups text) :=
      (List.map_congr_left fun line hline => quoteGroup_of_not_isGroupLine (hnone line hline)).trans
        (List.map_id _)
    calc
      quoteGroups (quoteGroups text) =
          joinWith ['\n'] ((feedLines (quoteGroups text)).map quoteGroup) := rfl
      _ = joinWith ['\n'] (feedLines (quoteGroups text)) := by rw [hsame]
      _ = quoteGroups text := joinWith_splitWhere '\n' _

/-- An opening bracket may stand in a group, and a line without a group behind it. -/
theorem quoteGroups_line_by_line_of_nested_bracket :
    let g : GroupLine :=
      ⟨[' '], ['[', '0'], ['\t'], [' ', 'R'], List.forall_mem_singleton.mpr rfl, by decide, by decide,
        List.forall_mem_singleton.mpr rfl⟩
    let text : List Char := g.chars ++ ['\n', 'a', ':']
    g.chars ∈ feedLines text ∧ g.quoted ∈ feedLines (quoteGroups text) ∧ ¬IsGroupLine g.quoted := by
  intro g text
  have hmem : g.chars ∈ feedLines text := by decide
  obtain ⟨-, hlines, -, hnone, -⟩ := quoteGroups_line_by_line text
  obtain ⟨new, hnew, -, hquoted⟩ := exists_of_mem_left hlines hmem
  obtain rfl : new = g.quoted := hquoted g rfl
  exact ⟨hmem, hnew, hnone _ hnew⟩

end Table

end RingTape
