import RingTape.Proofs.Text.Fields

/-!
# Texts and their lines

Line breaks are blanks, and no line holds one.  Lines that hold none are read back from the text in
which each but the last is ended by a line feed.

The line ends of a file are unified before its text is cut into lines.  This changes neither the
lines nor their number: what is unified is cut in the same places.
-/

namespace RingTape.Text

theorem isBlank_of_isLineBreak
    {c : Char} (h : isLineBreak c = true) :
    isBlank c = true := by
  simp only [isLineBreak, isBlank, Bool.or_eq_true, Bool.and_eq_true, decide_eq_true_eq,
    beq_iff_eq] at h ⊢
  omega

/-- A text that stays in one piece when it is cut into lines. -/
def IsUnbroken (cs : List Char) : Prop :=
  ∀ c ∈ cs, isLineBreak c = false

theorem IsWord.isUnbroken
    {cs : List Char} (h : IsWord cs) :
    IsUnbroken cs := by
  intro c hc
  have hblank := h.2 c hc
  by_contra hbreak
  rw [isBlank_of_isLineBreak (by simpa using hbreak)] at hblank
  cases hblank

theorem isUnbroken_cons
    {c : Char} {cs : List Char} :
    IsUnbroken (c :: cs) ↔ isLineBreak c = false ∧ IsUnbroken cs :=
  List.forall_mem_cons

theorem isUnbroken_joinWith
    {pieces : List (List Char)} (h : ∀ piece ∈ pieces, IsWord piece) :
    IsUnbroken (joinWith [' '] pieces) := by
  intro c hc
  rcases mem_joinWith hc with hspace | ⟨piece, hpiece, hc⟩
  · rw [List.mem_singleton.mp hspace]
    rfl
  · exact (h piece hpiece).isUnbroken c hc

/-! ## Cutting a text -/

theorem lines_cons_of_not
    {c : Char} (h : isLineBreak c = false) (cs : List Char) :
    lines (c :: cs) = match lines cs with
      | [] => [[c]]
      | line :: others => (c :: line) :: others := by
  have hc : c ≠ '\r' := by
    rintro rfl
    exact absurd h (by decide)
  rw [lines, h]
  · rfl
  · exact fun _ heq => absurd heq hc

/-- A break ends a line, unless it is a carriage return that the line feed after it belongs to. -/
theorem lines_cons_of_break
    {c : Char} {cs : List Char} (h : isLineBreak c = true)
    (hpair : c = '\r' → cs.head? ≠ some '\n') :
    lines (c :: cs) = [] :: lines cs := by
  rw [lines, if_pos h]
  rintro rest hc rfl
  exact hpair hc rfl

theorem lines_cons_feed
    (cs : List Char) :
    lines ('\n' :: cs) = [] :: lines cs :=
  lines_cons_of_break (by decide) fun h => absurd h (by decide)

/-! ## Unified line ends -/

/-- What a character becomes when line ends are unified. -/
def unifyChar (x : Char) : Char :=
  if x == '\r' then '\n' else x

theorem unifyLineEnds_of_ne_return
    {x : Char} (h : x ≠ '\r') (rest : List Char) :
    unifyLineEnds (x :: rest) = x :: unifyLineEnds rest := by
  have hx : (if (x == '\r') = true then '\n' else x) = x := if_neg (by simpa using h)
  rw [unifyLineEnds, hx]
  exact fun _ hreturn => absurd hreturn h

/-- A text starts with a character that ends a line by itself. -/
theorem unifyLineEnds_of_single
    {x : Char} {rest : List Char} (h : x = '\r' → rest.head? ≠ some '\n') :
    unifyLineEnds (x :: rest) = unifyChar x :: unifyLineEnds rest := by
  rw [unifyLineEnds]
  · rfl
  · rintro more hx rfl
    exact h hx rfl

theorem unifyLineEnds_pair
    (rest : List Char) :
    unifyLineEnds ('\r' :: '\n' :: rest) = '\n' :: unifyLineEnds rest :=
  rfl

theorem head?_unifyLineEnds
    (text : List Char) :
    (unifyLineEnds text).head? = text.head?.map unifyChar := by
  fun_cases unifyLineEnds text <;> rfl

theorem length_unifyLineEnds_le
    (text : List Char) :
    (unifyLineEnds text).length ≤ text.length := by
  fun_induction unifyLineEnds text with
  | case1 => exact Nat.le_refl 0
  | case2 rest ih =>
      simp only [List.length_cons]
      omega
  | case3 x rest hpair ih => exact Nat.succ_le_succ ih

theorem unifyLineEnds_append
    {word : List Char} (hword : '\r' ∉ word) (rest : List Char) :
    unifyLineEnds (word ++ rest) = word ++ unifyLineEnds rest := by
  induction word with
  | nil => rfl
  | cons x word ih =>
      rw [List.mem_cons, not_or] at hword
      rw [List.cons_append, unifyLineEnds_of_ne_return (Ne.symm hword.1), ih hword.2,
        List.cons_append]

theorem lines_unifyLineEnds
    (cs : List Char) :
    lines (unifyLineEnds cs) = lines cs := by
  fun_induction unifyLineEnds cs with
  | case1 => rfl
  | case2 rest ih =>
      rw [lines_cons_feed, ih]
      rfl
  | case3 c rest hpair ih =>
      by_cases hc : c = '\r'
      · have hrest : rest.head? ≠ some '\n' := by
          intro hhead
          obtain ⟨others, rfl⟩ := List.head?_eq_some_iff.mp hhead
          exact hpair others hc rfl
        subst hc
        rw [lines_cons_of_break (by decide) (fun _ => hrest)]
        simp only [beq_self_eq_true, if_true]
        rw [lines_cons_feed, ih]
      · have hsame : (if (c == '\r') = true then '\n' else c) = c := if_neg (by simpa using hc)
        rw [hsame]
        cases hbreak : isLineBreak c with
        | true =>
            have hne : c = '\r' → ∀ cs : List Char, cs.head? ≠ some '\n' := fun h => absurd h hc
            rw [lines_cons_of_break hbreak fun h => hne h _,
              lines_cons_of_break hbreak fun h => hne h _, ih]
        | false => rw [lines_cons_of_not hbreak, lines_cons_of_not hbreak, ih]

/-- No line holds a break. -/
theorem isUnbroken_of_mem_lines
    {cs line : List Char} (h : line ∈ lines cs) :
    IsUnbroken line := by
  fun_induction lines cs generalizing line with
  | case1 => cases h
  | case2 rest ih =>
      rcases List.mem_cons.mp h with rfl | h
      · simp [IsUnbroken]
      · exact ih h
  | case3 c rest _ hbreak ih =>
      rcases List.mem_cons.mp h with rfl | h
      · simp [IsUnbroken]
      · exact ih h
  | case4 c rest _ hbreak hnil ih =>
      rw [List.mem_singleton.mp h, isUnbroken_cons]
      exact ⟨by simpa using hbreak, by simp [IsUnbroken]⟩
  | case5 c rest _ hbreak first others hcons ih =>
      rw [hcons, List.forall_mem_cons] at ih
      rcases List.mem_cons.mp h with rfl | h
      · exact isUnbroken_cons.mpr ⟨by simpa using hbreak, ih.1⟩
      · exact ih.2 line h

/-! ## Joining lines -/

theorem lines_append_cons
    {line rest : List Char} (h : IsUnbroken line) :
    lines (line ++ '\n' :: rest) = line :: lines rest := by
  induction line with
  | nil => exact lines_cons_feed rest
  | cons c line ih =>
      rw [isUnbroken_cons] at h
      rw [List.cons_append, lines_cons_of_not h.1, ih h.2]

theorem IsUnbroken.lines_eq
    {line : List Char} (h : IsUnbroken line) (hne : line ≠ []) :
    lines line = [line] := by
  induction line with
  | nil => exact absurd rfl hne
  | cons c line ih =>
      rw [isUnbroken_cons] at h
      rw [lines_cons_of_not h.1]
      cases line with
      | nil => rfl
      | cons d line => rw [ih h.2 (List.cons_ne_nil d line)]

/-- Lines that hold something, and no breaks, are read back from their text. -/
theorem lines_joinWith
    {pieces : List (List Char)} (hne : ∀ piece ∈ pieces, piece ≠ [])
    (h : ∀ piece ∈ pieces, IsUnbroken piece) :
    lines (joinWith ['\n'] pieces) = pieces := by
  induction pieces with
  | nil => rfl
  | cons piece rest ih =>
      rw [List.forall_mem_cons] at hne h
      cases rest with
      | nil => exact h.1.lines_eq hne.1
      | cons next others =>
          rw [joinWith, List.append_assoc, List.singleton_append, lines_append_cons h.1,
            ih hne.2 h.2]
          exact List.cons_ne_nil next others

end RingTape.Text
