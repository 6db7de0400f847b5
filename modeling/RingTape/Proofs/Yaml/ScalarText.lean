import RingTape.Proofs.Text.Fields
import RingTape.Proofs.Yaml.Block
import RingTape.Yaml.Token.Scalar

/-!
# Scalars within a line

A scalar that is written within a line is read back as it stands, up to the characters that cannot
belong to it.
-/

namespace RingTape.Yaml

open Cursor

variable {index line column : Nat} {rest : List Char}

/-! ## Between quotes -/

/-- A blank within a line. -/
def isLineBlank (c : Char) : Bool :=
  c == ' ' || c == '\t'

variable {quote : Char} {fuel : Nat} {read : List Char}

theorem quotedText_end
    (hquote : quote = '\'' ∨ quote = '"') (hrest : rest.head? ≠ some '\'') :
    quotedText quote (fuel + 1) read ⟨quote :: rest, index, line, column⟩ =
      .ok (read.reverse, ⟨rest, index + 1, line, column + 1⟩) := by
  have hinline : isInline quote = true := by
    rcases hquote with rfl | rfl <;> decide
  have hpeek : (⟨quote :: rest, index, line, column⟩ : Cursor).peek? = some quote := rfl
  have hsecond : (⟨quote :: rest, index, line, column⟩ : Cursor).peekAt? 1 = rest.head? := by
    simp [peekAt?, List.head?_eq_getElem?]
  have hdouble : (quote == '\'' && rest.head? == some '\'') = false := by
    simp [hrest]
  rw [quotedText, hpeek]
  dsimp only
  rw [if_pos (beq_self_eq_true quote), hsecond, hdouble, next_of_isInline hinline]
  rfl

theorem quotedText_char
    {c : Char} (hinline : isInline c = true) (hquote : c ≠ quote)
    (hescape : quote = '"' → c ≠ '\\') (hblank : isLineBlank c = false) :
    quotedText quote (fuel + 1) read ⟨c :: rest, index, line, column⟩ =
      quotedText quote fuel (c :: read) ⟨rest, index + 1, line, column + 1⟩ := by
  have hpeek : (⟨c :: rest, index, line, column⟩ : Cursor).peek? = some c := rfl
  have hplain : (c == ' ' || c == '\t' || isBreak c) = false := by
    rw [not_isBreak_of_isInline hinline, Bool.or_false]
    exact hblank
  have hslash : ¬ (quote == '"' && c == '\\') = true := by
    intro hboth
    rw [Bool.and_eq_true, beq_iff_eq, beq_iff_eq] at hboth
    exact hescape hboth.1 hboth.2
  rw [quotedText, hpeek]
  dsimp only
  rw [if_neg (by simpa using hquote), if_neg hslash, hplain, next_of_isInline hinline]
  rfl

theorem quotedText_blanks
    {blanks : List Char} (hne : blanks ≠ []) (hblanks : ∀ c ∈ blanks, isLineBlank c = true)
    (hquote : isLineBlank quote = false) (hrest : rest.head?.any isLineBlank = false)
    (hbreak : rest.head?.any isBreak = false) :
    quotedText quote (fuel + 1) read ⟨blanks ++ rest, index, line, column⟩ =
      quotedText quote fuel (blanks.reverse ++ read)
        ⟨rest, index + blanks.length, line, column + blanks.length⟩ := by
  have hinline : IsInline blanks := by
    intro c hc
    have hblank := hblanks c hc
    rw [isLineBlank, Bool.or_eq_true, beq_iff_eq, beq_iff_eq] at hblank
    rcases hblank with rfl | rfl <;> decide
  have htake : takeWhile (fun c => c == ' ' || c == '\t')
      ⟨blanks ++ rest, index, line, column⟩ =
      (blanks, ⟨rest, index + blanks.length, line, column + blanks.length⟩) :=
    takeWhile_eq hinline hblanks hrest
  obtain ⟨c, more, rfl⟩ := List.exists_cons_of_ne_nil hne
  have hc := hblanks c List.mem_cons_self
  have hpeek : (⟨c :: more ++ rest, index, line, column⟩ : Cursor).peek? = some c := rfl
  have hdiffers : ¬ (c == quote) = true := by
    intro heq
    rw [beq_iff_eq.mp heq, hquote] at hc
    cases hc
  have hslash : ¬ (quote == '"' && c == '\\') = true := by
    intro hboth
    rw [Bool.and_eq_true, beq_iff_eq, beq_iff_eq] at hboth
    rw [hboth.2] at hc
    exact absurd hc (by decide)
  have hgap : (c == ' ' || c == '\t' || isBreak c) = true := by
    rw [Bool.or_eq_true]
    exact .inl hc
  rw [quotedText, hpeek]
  dsimp only
  rw [if_neg hdiffers, if_neg hslash, if_pos hgap, htake]
  dsimp only
  rw [takeBreak_of_not_isBreak hbreak]

theorem IsQuotable.of_subset
    {text part : List Char} (h : IsQuotable quote text) (hpart : part ⊆ text) :
    IsQuotable quote part :=
  ⟨h.isQuote, fun c hc => h.chars c (hpart hc), fun hc => h.notQuote (hpart hc),
    fun hquote hc => h.notEscape hquote (hpart hc)⟩

/-- The blanks at the start of a text between quotes, and the text after them. -/
theorem IsQuotable.exists_blanks
    {text : List Char} (h : IsQuotable quote text) (hblank : text.head?.any isLineBlank = true) :
    ∃ blanks word, text = blanks ++ word ∧ blanks ≠ [] ∧ (∀ c ∈ blanks, isLineBlank c = true) ∧
      IsQuotable quote word ∧ word.head?.any isLineBlank = false := by
  have hsplit : text.takeWhile isLineBlank ++ text.dropWhile isLineBlank = text :=
    List.takeWhile_append_dropWhile
  refine ⟨text.takeWhile isLineBlank, text.dropWhile isLineBlank, hsplit.symm, ?_, ?_, ?_, ?_⟩
  · intro hnone
    obtain ⟨c, hhead, hc⟩ := Option.any_eq_true _ _ |>.mp hblank
    obtain ⟨more, rfl⟩ := List.head?_eq_some_iff.mp hhead
    rw [List.takeWhile_cons_of_pos hc] at hnone
    exact List.cons_ne_nil _ _ hnone
  · exact fun c hc => List.mem_takeWhile_imp hc
  · exact h.of_subset (List.dropWhile_subset _)
  · rw [Option.any_eq_false]
    exact fun c hc => Text.head?_dropWhile text hc

/-- A text between quotes is read up to the closing one. -/
theorem quotedText_eq
    {text : List Char} (h : IsQuotable quote text) (hrest : rest.head? ≠ some '\'')
    (hfuel : text.length < fuel) :
    quotedText quote fuel read ⟨text ++ quote :: rest, index, line, column⟩ =
      .ok (read.reverse ++ text,
        ⟨rest, index + text.length + 1, line, column + text.length + 1⟩) := by
  induction fuel generalizing text read index column with
  | zero => exact absurd hfuel (Nat.not_lt_zero _)
  | succ fuel ih =>
      have hquote : isLineBlank quote = false ∧ isBreak quote = false := by
        rcases h.isQuote with rfl | rfl <;> decide
      by_cases hblank : text.head?.any isLineBlank = true
      · -- The blanks before the next word are taken in one go.
        obtain ⟨blanks, word, rfl, hne, hblanks, hword, hfirst⟩ := h.exists_blanks hblank
        have hhead : (word ++ quote :: rest).head?.any isLineBlank = false ∧
            (word ++ quote :: rest).head?.any isBreak = false := by
          cases word with
          | nil => exact hquote
          | cons d word =>
              exact ⟨hfirst, not_isBreak_of_isInline (hword.chars d List.mem_cons_self)⟩
        have hpositive : 0 < blanks.length := List.length_pos_iff.mpr hne
        rw [List.length_append] at hfuel
        rw [List.append_assoc, quotedText_blanks hne hblanks hquote.1 hhead.1 hhead.2,
          ih hword (by omega)]
        simp
        omega
      · cases text with
        | nil =>
            rw [List.nil_append, List.append_nil]
            exact quotedText_end h.isQuote hrest
        | cons c more =>
            have hc := isInline_cons.mp h.chars
            have hdiffers : c ≠ quote := fun heq => h.notQuote (heq ▸ List.mem_cons_self)
            have hslash : quote = '"' → c ≠ '\\' :=
              fun hdouble heq => h.notEscape hdouble (heq ▸ List.mem_cons_self)
            have hmore : IsQuotable quote more := h.of_subset (List.subset_cons_self c more)
            rw [List.cons_append, quotedText_char hc.1 hdiffers hslash (by simpa using hblank),
              ih hmore (by simpa using hfuel)]
            simp
            omega

/-! ## Plain scalars -/

variable {flow : Bool} {indent : Int} {fuel : Nat} {read gap : List Char} {ended : Bool}

theorem isInline_of_isPlainChar
    {c : Char} (h : isPlainChar flow c = true) :
    isInline c = true := by
  rw [isPlainChar, Bool.and_eq_true, Bool.and_eq_true] at h
  exact h.1.1

theorem not_mem_of_isPlainChar
    {c : Char} (h : isPlainChar flow c = true) :
    c ≠ ' ' ∧ c ≠ '\t' ∧ c ≠ ':' ∧ c ≠ '#' := by
  refine ⟨?_, ?_, ?_, ?_⟩ <;> rintro rfl <;> exact absurd h (by cases flow <;> decide)

theorem isGap_of_isPlainChar
    {c : Char} (h : isPlainChar flow c = true) :
    isGap (some c) = false := by
  have hnot := not_mem_of_isPlainChar h
  have hbreak := not_isBreak_of_isInline (isInline_of_isPlainChar h)
  simp [isGap, hnot.1, hnot.2.1, hbreak]

theorem endsPlain_of_isPlainChar
    {c : Char} (h : isPlainChar flow c = true) (following : Option Char) :
    endsPlain flow c following = false := by
  have hcolon : (c == ':') = false := beq_false_of_ne (not_mem_of_isPlainChar h).2.2.1
  have hflow : (flow && ",?[]\x7b\x7d".toList.contains c) = false := by
    rw [isPlainChar, Bool.and_eq_true, Bool.not_eq_true'] at h
    exact h.2
  rw [endsPlain, isGap_of_isPlainChar h, hcolon, hflow]
  rfl

/-- A run of a plain scalar ends here. -/
def StopsRun (flow : Bool) (rest : List Char) : Prop :=
  ∀ c, rest.head? = some c → endsPlain flow c rest.tail.head? = true

theorem plainRun_eq
    {word : List Char} (hword : ∀ c ∈ word, isPlainChar flow c = true)
    (hrest : StopsRun flow rest) :
    plainRun flow (word ++ rest) = word := by
  induction word with
  | nil =>
      cases rest with
      | nil => rfl
      | cons c rest => exact if_pos (hrest c rfl)
  | cons c word ih =>
      rw [List.forall_mem_cons] at hword
      rw [List.cons_append, plainRun, endsPlain_of_isPlainChar hword.1, ih hword.2]
      rfl

/-- How a plain scalar goes on, or ends, after a run.  The text before is `read`. -/
def afterRun (flow : Bool) (indent : Int) (fuel : Nat) (read : List Char) (c : Cursor) :
    List Char × Bool × Cursor :=
  let (spaces, ended, c) := plainSpaces c
  if spaces.isEmpty || c.at? '#' || (!flow && c.column < indent) then (read, ended, c)
  else plainText flow indent fuel read.reverse spaces ended c

theorem plainText_word
    {word : List Char} (hne : word ≠ []) (hword : ∀ c ∈ word, isPlainChar flow c = true)
    (hrest : StopsRun flow rest) :
    plainText flow indent (fuel + 1) read gap ended ⟨word ++ rest, index, line, column⟩ =
      afterRun flow indent fuel (read.reverse ++ (gap ++ word))
        ⟨rest, index + word.length, line, column + word.length⟩ := by
  have hnumber : ¬ (⟨word ++ rest, index, line, column⟩ : Cursor).at? '#' = true := by
    obtain ⟨c, more, rfl⟩ := List.exists_cons_of_ne_nil hne
    intro heq
    have hc : some c = some '#' := beq_iff_eq.mp heq
    exact (not_mem_of_isPlainChar (hword c List.mem_cons_self)).2.2.2 (Option.some.inj hc)
  have hinline : IsInline word := fun c hc => isInline_of_isPlainChar (hword c hc)
  have hrun : ¬ word.isEmpty = true := by
    rwa [List.isEmpty_iff]
  rw [plainText, if_neg hnumber]
  dsimp only
  rw [plainRun_eq hword hrest, if_neg hrun, advance_of_isInline hinline, afterRun]
  simp

/-- Between two words of a plain scalar stand spaces. -/
theorem afterRun_spaces
    {n : Nat} (hn : n ≠ 0) (hrest : StartsToken rest) (hcolumn : flow = false → indent ≤ column + n) :
    afterRun flow indent fuel read ⟨spaces n ++ rest, index, line, column⟩ =
      plainText flow indent fuel read.reverse (spaces n) false
        ⟨rest, index + n, line, column + n⟩ := by
  have hspaces : (spaces n).isEmpty = false := by
    rw [List.isEmpty_eq_false_iff, spaces, Ne, List.replicate_eq_nil_iff]
    exact hn
  have hdeep : (!flow && decide (((column + n : Nat) : Int) < indent)) = false := by
    cases flow with
    | true => rfl
    | false => simpa using hcolumn rfl
  rw [afterRun, plainSpaces, takeWhile_spaces hrest.head?_ne]
  dsimp only
  rw [takeBreak_of_not_isBreak hrest.not_isBreak]
  dsimp only
  rw [hspaces, hrest.not_at, hdeep]
  rfl

theorem IsWords.startsToken
    {text : List Char} (h : IsWords flow text) (rest : List Char) :
    StartsToken (text ++ rest) := by
  intro c hc
  rw [List.head?_append_of_ne_nil _ h.ne_nil] at hc
  have hne : c ≠ ' ' := fun hspace => h.first (hspace ▸ hc)
  have hchar : isPlainChar flow c = true :=
    (h.chars c (List.mem_of_mem_head? hc)).resolve_left hne
  exact ⟨isInline_of_isPlainChar hchar, hne, (not_mem_of_isPlainChar hchar).2.2.2⟩

theorem stopsRun_spaces
    {n : Nat} (hn : n ≠ 0) :
    StopsRun flow (spaces n ++ rest) := by
  obtain ⟨n, rfl⟩ := Nat.exists_eq_succ_of_ne_zero hn
  intro c hc
  have hspace : ' ' = c := Option.some.inj hc
  rw [← hspace]
  rfl

/-- A text is a word, spaces after it, and what follows the spaces. -/
theorem exists_eq_word_append
    (text : List Char) :
    ∃ word n more, text = word ++ (spaces n ++ more) ∧ ' ' ∉ word ∧ more.head? ≠ some ' ' ∧
      (n = 0 → more = []) := by
  induction text with
  | nil => exact ⟨[], 0, [], rfl, List.not_mem_nil, nofun, fun _ => rfl⟩
  | cons c text ih =>
      obtain ⟨word, n, more, rfl, hword, hmore, hend⟩ := ih
      by_cases hc : c = ' '
      · by_cases hne : word = []
        · rw [hc, hne]
          exact ⟨[], n + 1, more, rfl, List.not_mem_nil, hmore, nofun⟩
        · have hfirst : (word ++ (spaces n ++ more)).head? ≠ some ' ' := by
            rw [List.head?_append_of_ne_nil word hne]
            exact fun hhead => hword (List.mem_of_mem_head? hhead)
          rw [hc]
          exact ⟨[], 1, _, rfl, List.not_mem_nil, hfirst, nofun⟩
      · have hword' : ' ' ∉ c :: word := by
          rw [List.mem_cons, not_or]
          exact ⟨fun heq => hc heq.symm, hword⟩
        exact ⟨c :: word, n, more, rfl, hword', hmore, hend⟩

/-- After its first word a text ends, or spaces follow and more words. -/
theorem IsWords.exists_word
    {text : List Char} (h : IsWords flow text) :
    ∃ word, word ≠ [] ∧ (∀ c ∈ word, isPlainChar flow c = true) ∧
      (text = word ∨ ∃ n more, n ≠ 0 ∧ IsWords flow more ∧ text = word ++ (spaces n ++ more)) := by
  obtain ⟨word, n, more, rfl, hspace, hfirst, hend⟩ := exists_eq_word_append text
  have hword : ∀ c ∈ word, isPlainChar flow c = true := by
    intro c hc
    refine (h.chars c (List.mem_append_left _ hc)).resolve_left ?_
    rintro rfl
    exact hspace hc
  have hne : word ≠ [] := by
    rintro rfl
    by_cases hn : n = 0
    · exact h.ne_nil (by rw [hn, hend hn]; rfl)
    · obtain ⟨n, rfl⟩ := Nat.exists_eq_succ_of_ne_zero hn
      exact h.first rfl
  refine ⟨word, hne, hword, ?_⟩
  by_cases hmore : more = []
  · -- Without more words there are no spaces, since the text does not end with one.
    left
    have hn : n = 0 := by
      by_contra hn
      apply h.last
      rw [hmore, List.append_nil, List.getLast?_append_of_ne_nil word, spaces, List.getLast?_replicate,
        if_neg hn]
      rwa [spaces, Ne, List.replicate_eq_nil_iff]
    rw [hn, hmore, spaces, List.replicate_zero, List.append_nil, List.append_nil]
  · right
    refine ⟨n, more, fun hn => hmore (hend hn), ⟨hmore, hfirst, fun c hc => ?_, ?_⟩, rfl⟩
    · exact h.chars c (List.mem_append_right word (List.mem_append_right _ hc))
    · have hlast := h.last
      rwa [← List.append_assoc, List.getLast?_append_of_ne_nil _ hmore] at hlast

/-- The words of a plain scalar are read up to the last one. -/
theorem plainText_eq
    {text : List Char} (h : IsWords flow text) (hrest : StopsRun flow rest)
    (hcolumn : flow = false → indent ≤ column + 1) (hfuel : text.length ≤ fuel) :
    ∃ more, plainText flow indent fuel read gap ended ⟨text ++ rest, index, line, column⟩ =
      afterRun flow indent more (read.reverse ++ (gap ++ text))
        ⟨rest, index + text.length, line, column + text.length⟩ := by
  induction fuel generalizing text read gap ended index column with
  | zero => exact absurd (List.eq_nil_of_length_eq_zero (Nat.le_zero.mp hfuel)) h.ne_nil
  | succ fuel ih =>
      obtain ⟨word, hne, hword, rfl | ⟨n, more, hn, hmore, rfl⟩⟩ := h.exists_word
      · exact ⟨fuel, plainText_word hne hword hrest⟩
      · have hpositive : 0 < word.length := List.length_pos_iff.mpr hne
        have hlength : (word ++ (spaces n ++ more)).length = word.length + (n + more.length) := by
          simp [spaces]
        have hcontinues : flow = false → indent ≤ (column + word.length : Nat) + (n : Nat) := by
          intro hflow
          have := hcolumn hflow
          omega
        rw [hlength] at hfuel
        obtain ⟨fuel', hrest'⟩ : ∃ fuel', plainText flow indent fuel
              (read.reverse ++ (gap ++ word)).reverse (spaces n) false
              ⟨more ++ rest, index + word.length + n, line, column + word.length + n⟩ =
            afterRun flow indent fuel'
              ((read.reverse ++ (gap ++ word)).reverse.reverse ++ (spaces n ++ more))
              ⟨rest, index + word.length + n + more.length, line,
                column + word.length + n + more.length⟩ :=
          ih hmore (fun hflow => by have := hcolumn hflow; omega) (by omega)
        refine ⟨fuel', ?_⟩
        rw [List.append_assoc, List.append_assoc, plainText_word hne hword (stopsRun_spaces hn),
          afterRun_spaces hn (hmore.startsToken rest) hcontinues, hrest', hlength]
        simp [Nat.add_assoc]

/-- A plain scalar ends before a mark that stands directly behind it, or after spaces in a flow
mapping. -/
theorem afterRun_mark
    {n : Nat} (hrest : StartsToken rest) (hstop : StopsRun flow rest) (hn : flow = true ∨ n = 0) :
    afterRun flow indent fuel read ⟨spaces n ++ rest, index, line, column⟩ =
      (read, false, ⟨rest, index + n, line, column + n⟩) := by
  by_cases hzero : n = 0
  · have hplain : plainSpaces ⟨spaces n ++ rest, index, line, column⟩ =
        ([], false, ⟨rest, index + n, line, column + n⟩) := by
      rw [plainSpaces, takeWhile_spaces hrest.head?_ne]
      dsimp only
      rw [takeBreak_of_not_isBreak hrest.not_isBreak, hzero]
      rfl
    rw [afterRun, hplain]
    rfl
  · have hflow : flow = true := hn.resolve_right hzero
    have hrun : (plainRun flow rest).isEmpty = true := by
      have hnone : plainRun flow ([] ++ rest) = [] := plainRun_eq (by simp) hstop
      rw [List.nil_append] at hnone
      rw [hnone]
      rfl
    rw [afterRun_spaces hzero hrest (by simp [hflow])]
    cases fuel with
    | zero => rw [plainText, List.reverse_reverse]
    | succ fuel =>
        rw [plainText, hrest.not_at]
        dsimp only
        rw [if_pos hrun, List.reverse_reverse]
        rfl

end RingTape.Yaml
