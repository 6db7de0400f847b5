import RingTape.Proofs.Yaml.Gap

/-!
# One token

What the lexer makes of a scalar and of the marks around it, in whatever state it reaches them.
-/

namespace RingTape.Yaml

open Cursor LexState

variable {index line column : Nat} {rest : List Char}

/-! ## Where a scalar stops -/

/-- A scalar that has been read up to the place `c` leaves the lexer at the place `c'`.  A plain one
looks farther than its last word, and finds out whether its line has ended. -/
def Written.Stops (flow : Bool) (indent : Int) (c : Cursor) (ended : Bool) (c' : Cursor) :
    Written → Prop
  | .plain _ =>
    StopsRun flow c.rest ∧ (∀ fuel read, afterRun flow indent fuel read c = (read, ended, c')) ∧
      c'.rest.length ≤ c.rest.length
  | .quoted _ _ => c.rest.head? ≠ some '\'' ∧ ended = false ∧ c' = c

variable {flow : Bool} {indent : Int} {w : Written}

theorem Written.Stops.length_le
    {c c' : Cursor} {ended : Bool} (h : w.Stops flow indent c ended c') :
    c'.rest.length ≤ c.rest.length := by
  cases w with
  | plain text => exact h.2.2
  | quoted quote text => exact (congrArg (fun c : Cursor => c.rest.length) h.2.2).le

theorem startsToken_colon :
    StartsToken (':' :: rest) := by
  intro c hc
  rw [← Option.some.inj hc]
  decide

theorem Written.stops_colon
    (hgap : isGap rest.head? = true) :
    w.Stops flow indent ⟨':' :: rest, index, line, column⟩ false
      ⟨':' :: rest, index, line, column⟩ := by
  have hstop : StopsRun flow (':' :: rest) := by
    intro c hc
    rw [← Option.some.inj hc, List.tail_cons, endsPlain, hgap]
    rfl
  cases w with
  | plain text =>
      exact ⟨hstop, fun fuel read => afterRun_mark startsToken_colon hstop (.inr rfl), le_rfl⟩
  | quoted quote text => exact ⟨by simp, rfl, rfl⟩

/-- The marks after an entry of a flow mapping. -/
def isFlowMark (c : Char) : Bool :=
  c == ',' || c == '\x7d'

theorem startsToken_flowMark
    {x : Char} (hx : isFlowMark x = true) :
    StartsToken (x :: rest) := by
  intro c hc
  rw [← Option.some.inj hc]
  rw [isFlowMark, Bool.or_eq_true, beq_iff_eq, beq_iff_eq] at hx
  rcases hx with rfl | rfl <;> decide

theorem stopsRun_flowMark
    {x : Char} (hx : isFlowMark x = true) :
    StopsRun true (x :: rest) := by
  intro c hc
  rw [← Option.some.inj hc]
  rw [isFlowMark, Bool.or_eq_true, beq_iff_eq, beq_iff_eq] at hx
  rcases hx with rfl | rfl <;> simp [endsPlain]

theorem Written.stops_flowMark
    {x : Char} (hx : isFlowMark x = true) (n : Nat) :
    ∃ m index' column', column ≤ column' ∧
      w.Stops true indent ⟨spaces n ++ x :: rest, index, line, column⟩ false
        ⟨spaces m ++ x :: rest, index', line, column'⟩ := by
  cases w with
  | plain text =>
      have hstop : StopsRun true (spaces n ++ x :: rest) := by
        by_cases hn : n = 0
        · rw [hn]
          exact stopsRun_flowMark hx
        · exact stopsRun_spaces hn
      exact ⟨0, index + n, column + n, Nat.le_add_right column n, hstop, fun fuel read =>
        afterRun_mark (startsToken_flowMark hx) (stopsRun_flowMark hx) (.inl rfl),
        by simp [spaces]⟩
  | quoted quote text =>
      refine ⟨n, index, column, le_rfl, ?_, rfl, rfl⟩
      cases n with
      | zero =>
          rintro heq
          rw [Option.some.inj heq] at hx
          exact absurd hx (by decide)
      | succ n => simp [spaces, List.replicate_succ]

theorem stopsRun_of_isGap
    (h : isGap rest.head? = true) :
    StopsRun flow rest := by
  intro c hc
  rw [hc] at h
  rw [endsPlain, h]
  rfl

theorem Pad.isGap_head?
    {p : Pad} (hp : p.Apart) (text : List Char) :
    isGap (p.chars ++ text).head? = true := by
  obtain ⟨width, comment⟩ := p
  cases width with
  | zero =>
      cases comment with
      | none => rfl
      | some comment => exact absurd (hp (by simp)) (lt_irrefl 0)
  | succ width => rfl

theorem Written.stops_pad
    {p : Pad} (hp : p.Legible) (hapart : p.Apart) {text : List Char} {width : Nat}
    (h : Lands width rest text) (hwidth : width < indent) :
    ∃ ended c, w.Stops false indent ⟨p.chars ++ text, index, line, column⟩ ended c ∧
      Reaches ended c width rest := by
  cases w with
  | plain word =>
      obtain ⟨ended, c, hends, hshorter, hreaches⟩ : ∃ ended c, (∀ fuel read,
          afterRun false indent fuel read ⟨p.chars ++ text, index, line, column⟩ =
            (read, ended, c)) ∧ c.rest.length ≤ (p.chars ++ text).length ∧
          Reaches ended c width rest := afterRun_pad hp h hwidth
      exact ⟨ended, c, ⟨stopsRun_of_isGap (p.isGap_head? hapart text), hends, hshorter⟩, hreaches⟩
  | quoted quote word =>
      refine ⟨false, ⟨p.chars ++ text, index, line, column⟩, ⟨?_, rfl, rfl⟩, reaches_pad hp h false⟩
      obtain ⟨c, hhead, hc⟩ := p.head?_chars text
      intro heq
      have hquote : c = '\'' := Option.some.inj (hhead.symm.trans heq)
      rw [hquote] at hc
      exact absurd hc (by decide)

/-! ## Scalars -/

/-- A plain scalar starts with no mark, or with one that does not stand alone. -/
theorem IsPlain.exists_cons
    {text : List Char} (h : IsPlain flow text) :
    ∃ x more, text = x :: more ∧ isPlainChar flow x = true ∧ (indicators.contains x = false ∨
      ((x = '-' ∨ x = '?') ∧ ∃ c, more.head? = some c ∧ isPlainChar flow c = true)) := by
  obtain ⟨x, more, rfl⟩ := List.exists_cons_of_ne_nil h.ne_nil
  have hx : isPlainChar flow x = true :=
    (h.chars x List.mem_cons_self).resolve_left fun hspace => h.first (hspace ▸ rfl)
  have hstarts := h.starts
  rw [startsWord, Bool.or_eq_true, Bool.not_eq_true', Bool.and_eq_true, Bool.or_eq_true, beq_iff_eq,
    beq_iff_eq, Option.any_eq_true] at hstarts
  exact ⟨x, more, rfl, hx, hstarts⟩

theorem Written.exists_cons
    (hw : w.Legible flow) :
    ∃ x text, w.chars = x :: text ∧ isInline x = true ∧ x ≠ ' ' ∧ x ≠ '#' := by
  cases w with
  | plain text =>
      obtain ⟨x, more, rfl, hplain, -⟩ := IsPlain.exists_cons hw
      have hnot := not_mem_of_isPlainChar hplain
      exact ⟨x, more, rfl, isInline_of_isPlainChar hplain, hnot.1, hnot.2.2.2⟩
  | quoted quote text =>
      refine ⟨quote, text ++ [quote], rfl, ?_⟩
      rcases hw.isQuote with rfl | rfl <;> decide

/-- The start of a key is no border, and then neither is that of its line. -/
theorem Written.IsKey.noBorder_append
    {key : Written} (h : key.IsKey column) (rest : List Char) (hcolumn : column = 0) :
    NoBorder (key.chars ++ ':' :: rest) := by
  obtain ⟨hdashes, hpoints⟩ := h.noBorder hcolumn
  rcases hchars : key.chars with _ | ⟨a, _ | ⟨b, _ | ⟨c, more⟩⟩⟩
  · exact noBorder_of_head? rfl (by decide) (by decide)
  · constructor <;> simp
  · constructor <;> simp
  · rw [hchars] at hdashes hpoints
    exact ⟨hdashes, hpoints⟩

variable {s t : LexState}

theorem eq_of_saveCandidate
    (h : s.saveCandidate = .ok t) :
    t = { s with candidates := t.candidates } := by
  rw [saveCandidate, dropCandidate] at h
  by_cases hallowed : s.keyAllowed = true
  · by_cases hrequired : s.candidate?.any (·.required) = true
    · rw [if_pos hallowed, if_pos hrequired] at h
      cases h
    · rw [if_pos hallowed, if_neg hrequired] at h
      cases h
      rfl
  · rw [if_neg hallowed] at h
    cases h
    rfl

/-- A character that is no mark starts a plain scalar. -/
theorem readToken_unmarked
    {x : Char} (hx : isPlainChar (s.flow != 0) x = true) (hmark : indicators.contains x = false)
    (hseparator : (s.cursor.column == 0 && s.cursor.atSeparator) = false) :
    s.readToken x = s.plainScalar := by
  have hstarts : s.startsPlain x = true := by
    have hmark' : "-?:,[]\x7b\x7d#&*!|>'\"%@`".toList.contains x = false := hmark
    rw [startsPlain, isGap_of_isPlainChar hx, hmark']
    rfl
  have hne (c : Char) (hc : c ∈ indicators) : (x == c) = false := by
    apply beq_false_of_ne
    rintro rfl
    rw [List.contains_iff_mem.mpr hc] at hmark
    cases hmark
  simp only [readToken, hseparator, hne '%' (by decide), hne '-' (by decide),
    hne '[' (by decide), hne '\x7b' (by decide), hne ']' (by decide), hne '\x7d' (by decide),
    hne ',' (by decide), hne '?' (by decide), hne ':' (by decide), hne '*' (by decide),
    hne '&' (by decide), hne '!' (by decide), hne '|' (by decide), hne '>' (by decide),
    hne '\'' (by decide), hne '"' (by decide), hstarts, Bool.false_and, Bool.and_false,
    Bool.or_false, Bool.false_eq_true, if_false, if_true]

/-- A dash or a question mark belongs to the word when it touches the next character. -/
theorem readToken_touching
    {x : Char} (hx : x = '-' ∨ x = '?') (hplain : isPlainChar (s.flow != 0) x = true)
    (hseparator : (s.cursor.column == 0 && s.cursor.atSeparator) = false) {c : Char}
    (hsecond : s.cursor.peekAt? 1 = some c) (hc : isGap (some c) = false) :
    s.readToken x = s.plainScalar := by
  rcases hx with rfl | rfl
  · have hstarts : s.startsPlain '-' = true := by
      rw [startsPlain, hsecond, hc, Bool.or_eq_true]
      exact .inr rfl
    simp [readToken, hseparator, hsecond, hc, hstarts]
  · have hflow : (s.flow != 0) = false := by
      by_contra hflow
      rw [Bool.not_eq_false] at hflow
      rw [hflow] at hplain
      exact absurd hplain (by decide)
    have hstarts : s.startsPlain '?' = true := by
      have houter : s.flow = 0 := by simpa using hflow
      rw [startsPlain, hsecond, hc, houter, Bool.or_eq_true]
      exact .inr rfl
    have hmark : s.atMark = false := by
      rw [atMark, hsecond, hc, hflow]
      rfl
    simp [readToken, hmark, hstarts]

theorem readToken_plain
    {text : List Char} (h : IsPlain (s.flow != 0) text)
    (hcursor : s.cursor = ⟨text ++ rest, index, line, column⟩)
    (hborder : column = 0 → NoBorder (text ++ rest)) {x : Char} (hx : text.head? = some x) :
    s.readToken x = s.plainScalar := by
  have hseparator : (s.cursor.column == 0 && s.cursor.atSeparator) = false := by
    rw [hcursor]
    by_cases hcolumn : column = 0
    · rw [not_atSeparator (hborder hcolumn), Bool.and_false]
    · rw [beq_false_of_ne hcolumn, Bool.false_and]
  obtain ⟨y, more, rfl, hplain, hstarts⟩ := h.exists_cons
  obtain rfl : y = x := Option.some.inj hx
  rcases hstarts with hmark | ⟨hmark, c, hc, hword⟩
  · exact readToken_unmarked hplain hmark hseparator
  · have hsecond : s.cursor.peekAt? 1 = some c := by
      obtain ⟨tail, rfl⟩ := List.head?_eq_some_iff.mp hc
      rw [hcursor]
      rfl
    exact readToken_touching hmark hplain hseparator hsecond (isGap_of_isPlainChar hword)

theorem readToken_quoted
    {quote : Char} (hquote : quote = '\'' ∨ quote = '"') :
    s.readToken quote = s.keyPart (readQuoted quote) := by
  rcases hquote with rfl | rfl <;> simp [readToken]

theorem plainScalar_eq
    {text : List Char} {ended : Bool} {c : Cursor} (h : IsWords (s.flow != 0) text)
    (hcursor : s.cursor = ⟨text ++ rest, index, line, column⟩)
    (hindent : s.flow = 0 → s.indent ≤ column) (hrest : StopsRun (s.flow != 0) rest)
    (hends : ∀ fuel read, afterRun (s.flow != 0) (s.indent + 1) fuel read
      ⟨rest, index + text.length, line, column + text.length⟩ = (read, ended, c))
    (hsave : s.saveCandidate = .ok t) :
    s.plainScalar = .ok (({ t with keyAllowed := ended, cursor := c }).push (.scalar true text)) := by
  have hcolumn : (s.flow != 0) = false → s.indent + 1 ≤ column + 1 := by
    intro hflow
    have := hindent (by simpa using hflow)
    omega
  obtain ⟨fuel, hread⟩ : ∃ fuel, plainText (s.flow != 0) (s.indent + 1)
        ((text ++ rest).length + 1) [] [] false ⟨text ++ rest, index, line, column⟩ =
      afterRun (s.flow != 0) (s.indent + 1) fuel text
        ⟨rest, index + text.length, line, column + text.length⟩ :=
    plainText_eq h hrest hcolumn (by simp; omega)
  rw [hends fuel text] at hread
  have ht := eq_of_saveCandidate hsave
  have hsame : t.cursor = s.cursor ∧ t.flow = s.flow ∧ t.indent = s.indent := by
    rw [ht]
    exact ⟨rfl, rfl, rfl⟩
  rw [plainScalar, hsave]
  dsimp only [bind, Except.bind, pure, Except.pure]
  rw [hsame.1, hsame.2.1, hsame.2.2, hcursor]
  dsimp only
  rw [hread]

theorem keyPart_readQuoted
    {quote : Char} {text : List Char} (h : IsQuotable quote text)
    (hcursor : s.cursor = ⟨quote :: text ++ [quote] ++ rest, index, line, column⟩)
    (hrest : rest.head? ≠ some '\'') (hsave : s.saveCandidate = .ok t) :
    s.keyPart (readQuoted quote) = .ok (({ t with
      keyAllowed := false
      cursor := ⟨rest, index + (text.length + 2), line, column + (text.length + 2)⟩ }).push
        (.scalar false text)) := by
  have hquote : isInline quote = true := by
    rcases h.isQuote with rfl | rfl <;> decide
  have hread : readQuoted quote ⟨quote :: text ++ [quote] ++ rest, index, line, column⟩ =
      .ok (.scalar false text,
        ⟨rest, index + (text.length + 2), line, column + (text.length + 2)⟩) := by
    rw [List.append_assoc, List.cons_append, List.singleton_append, readQuoted,
      next_of_isInline hquote, quotedText_eq h hrest (by simp; omega)]
    have hindex : index + 1 + text.length + 1 = index + (text.length + 2) := by omega
    have hcolumn : column + 1 + text.length + 1 = column + (text.length + 2) := by omega
    rw [hindex, hcolumn]
    rfl
  have hsame : t.cursor = s.cursor := by rw [eq_of_saveCandidate hsave]
  rw [keyPart, hsave]
  dsimp only [bind, Except.bind, pure, Except.pure]
  rw [hsame, hcursor, hread]

/-- A scalar is read where it stands, as a candidate for a key if a key may start there. -/
theorem readToken_written
    {c : Cursor} {ended : Bool} (hw : w.Legible (s.flow != 0))
    (hcursor : s.cursor = ⟨w.chars ++ rest, index, line, column⟩)
    (hborder : column = 0 → NoBorder (w.chars ++ rest))
    (hindent : s.flow = 0 → s.indent ≤ column)
    (hstops : w.Stops (s.flow != 0) (s.indent + 1)
      ⟨rest, index + w.chars.length, line, column + w.chars.length⟩ ended c)
    (hsave : s.saveCandidate = .ok t) {x : Char} (hx : w.chars.head? = some x) :
    s.readToken x = .ok (({ t with keyAllowed := ended, cursor := c }).push w.token) := by
  cases w with
  | plain text =>
      rw [readToken_plain hw hcursor hborder hx]
      exact plainScalar_eq hw.toIsWords hcursor hindent hstops.1 hstops.2.1 hsave
  | quoted quote text =>
      obtain ⟨hrest, rfl, rfl⟩ := hstops
      have hquote : quote = x := Option.some.inj hx
      rw [← hquote, readToken_quoted hw.isQuote, keyPart_readQuoted hw hcursor hrest hsave]
      simp [Written.chars, Written.token]

end RingTape.Yaml
