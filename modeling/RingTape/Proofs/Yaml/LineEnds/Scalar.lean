import RingTape.Proofs.Yaml.LineEnds.Property
import RingTape.Yaml.Token.Scalar

/-!
# Scalars with other line ends

A scalar is read alike at a place of a text and at its counterpart: its lines are the same, and the
ends of its lines are written with the same characters.  The readers of scalars go round as often as
there are characters left at most, and so the counterpart, with fewer of them, is not short of
turns.
-/

namespace RingTape.Yaml

open Text Cursor

variable {lag : Nat → Nat} {bound fuel fuel' : Nat} {c c' : Cursor}

/-! ## Quoted scalars -/

theorem isInner_blank :
    IsInner fun x => x == ' ' || x == '\t' :=
  isInner_of (by decide)

theorem corresponds_quotedBreaks
    (hfuel : c'.rest.length < fuel) (hfuel' : c'.rest.length < fuel')
    (h : Alike lag bound c c') :
    Corresponds (ReadAlike lag bound) (quotedBreaks fuel c) (quotedBreaks fuel' c') := by
  induction fuel generalizing fuel' c c' with
  | zero => exact absurd hfuel (Nat.not_lt_zero _)
  | succ fuel ih =>
      obtain ⟨fuel', rfl⟩ := Nat.exists_eq_add_one_of_ne_zero (Nat.ne_zero_of_lt hfuel')
      unfold quotedBreaks
      rw [h.atSeparator_eq]
      split
      · exact .error _
      · have hplace := h.skipWhile isInner_blank
        have hle := length_skipWhile_le (fun x => x == ' ' || x == '\t') c'
        dsimp only
        rcases hplace.takeBreak with hgoes | ⟨x, d, d', hends⟩
        · rw [hgoes.here, hgoes.there]
          exact .ok ⟨rfl, hplace⟩
        · have hshorter := hends.shorter
          rw [hends.here, hends.there]
          refine Corresponds.bind (ih (by omega) (by omega) hends.alike) ?_
          rintro ⟨_, e⟩ ⟨more, e'⟩ ⟨rfl, he⟩
          exact .ok ⟨rfl, he⟩

theorem escapedChar?_of_isBreak
    {x : Char} (h : isBreak x = true) :
    escapedChar? x = none := by
  rcases eq_of_isBreak h with rfl | rfl | rfl | rfl | rfl <;> rfl

theorem escapeLength?_of_isBreak
    {x : Char} (h : isBreak x = true) :
    escapeLength? x = none := by
  rcases eq_of_isBreak h with rfl | rfl | rfl | rfl | rfl <;> rfl

theorem readEscape_of_isBreak
    {x : Char} (hx : isBreak x = true) (hhere : c.peek? = some x) :
    readEscape c = quotedBreaks (c.rest.length + 1) c.takeBreak.2 := by
  unfold readEscape
  rw [hhere]
  dsimp only
  rw [escapedChar?_of_isBreak hx]
  dsimp only
  rw [escapeLength?_of_isBreak hx]
  exact if_pos hx

theorem corresponds_readEscape
    (h : Alike lag bound c c') :
    Corresponds (ReadAlike lag bound) (readEscape c) (readEscape c') := by
  cases h.sees with
  | nothing here there =>
      unfold readEscape
      rw [here, there]
      exact .error _
  | lineEnd x x' hx hx' here there =>
      rw [readEscape_of_isBreak hx here, readEscape_of_isBreak hx' there]
      have hle := h.length_le
      rcases h.takeBreak with hgoes | ⟨y, d, d', hends⟩
      · have hinner := hgoes.inner
        rw [here, Option.any_some, hx] at hinner
        cases hinner
      · have hshorter := hends.shorter
        rw [hends.here, hends.there]
        dsimp only
        exact corresponds_quotedBreaks (by omega) (by omega) hends.alike
  | inner x hx here there next shorter =>
      unfold readEscape
      rw [here, there]
      dsimp only
      cases escapedChar? x with
      | some y => exact .ok ⟨rfl, next⟩
      | none =>
          cases escapeLength? x with
          | none =>
              rw [hx]
              exact .error _
          | some count =>
              dsimp only
              rw [next.rest, hexNumber?_unifyLineEnds]
              cases hn : hexNumber? count 0 c.next.rest with
              | none => exact .error _
              | some n =>
                  have hplace := next.advance (not_isBreak_of_hexNumber? hn)
                  dsimp only
                  cases escapedCode n with
                  | error fault => exact .error _
                  | ok y => exact .ok ⟨rfl, hplace⟩

/-- What blanks and a line end inside of quotes become. -/
def quotedGap : Reader (List Char) := fun c =>
  let (blanks, c) := c.takeWhile fun x => x == ' ' || x == '\t'
  match c.takeBreak with
  | ([], _) => .ok (blanks, c)
  | (lineEnd, c) => do
    let (breaks, c) ← quotedBreaks (c.rest.length + 1) c
    return (fold lineEnd breaks, c)

theorem corresponds_quotedGap
    {x : Char} (h : Alike lag (bound + 1) c c') (hhere : c.peek? = some x)
    (hx : (x == ' ' || x == '\t' || isBreak x) = true) :
    Corresponds (ReadAlike lag bound) (quotedGap c) (quotedGap c') := by
  obtain ⟨blanks, d, d', hblanks⟩ := h.takes isInner_blank
  unfold quotedGap
  rw [hblanks.here, hblanks.there]
  dsimp only
  rcases hblanks.alike.takeBreak with hgoes | ⟨y, e, e', hends⟩
  · have hne : blanks ≠ [] := by
      rintro rfl
      have hinner := hgoes.inner
      rw [hblanks.eq_of_nil, hhere, Option.any_some] at hinner
      rw [hinner, Bool.or_false] at hx
      exact hblanks.ne_nil hhere hx rfl
    have hshorter := hblanks.shorter hne
    have hbound := h.bounded
    rw [hgoes.here, hgoes.there]
    exact .ok ⟨rfl, hblanks.alike.weaken (by omega)⟩
  · have hle := hends.alike.length_le
    have hshorter := hends.shorter
    have hbound := hblanks.alike.bounded
    have hplace : Alike lag bound e e' := hends.alike.weaken (by omega)
    rw [hends.here, hends.there]
    refine Corresponds.bind (corresponds_quotedBreaks (by omega) (by omega) hplace) ?_
    rintro ⟨_, f⟩ ⟨breaks, f'⟩ ⟨rfl, hf⟩
    exact .ok ⟨rfl, hf⟩

/-- Inside of quotes a character starts a gap: a blank or the end of a line. -/
structure StartsGap (quote x : Char) : Prop where
  inside : (x == quote) = false
  literal : (quote == '"' && x == '\\') = false
  blank : (x == ' ' || x == '\t' || isBreak x) = true

theorem startsGap_of_isBreak
    {quote x : Char} (hquote : isBreak quote = false) (hx : isBreak x = true) :
    StartsGap quote x where
  inside := beq_false_of_ne (ne_of_isBreak hquote hx)
  literal := by
    have hne : x ≠ '\\' := ne_of_isBreak (by decide) hx
    rw [beq_false_of_ne hne, Bool.and_false]
  blank := by rw [hx, Bool.or_true]

theorem quotedText_of_gap
    {quote x : Char} (hx : StartsGap quote x) (hhere : c.peek? = some x) (fuel : Nat)
    (read : List Char) :
    quotedText quote (fuel + 1) read c = (do
      let (gap, d) ← quotedGap c
      quotedText quote fuel (gap.reverse ++ read) d) := by
  rw [quotedText, hhere]
  dsimp only
  rw [hx.inside, hx.literal, hx.blank, if_neg Bool.false_ne_true, if_neg Bool.false_ne_true,
    if_pos rfl, quotedGap]
  rcases c.takeWhile _ with ⟨blanks, d⟩
  dsimp only
  rcases d.takeBreak with ⟨_ | ⟨y, ys⟩, e⟩
  · rfl
  · dsimp only
    cases quotedBreaks (e.rest.length + 1) e <;> rfl

section

variable {quote : Char} {read : List Char}

/-- The text between quotes is read alike from here on, with `fuel` and `fuel'` turns left. -/
def QuotedAlike (lag : Nat → Nat) (quote : Char) (fuel : Nat) : Prop :=
  ∀ {bound fuel' : Nat} {c c' : Cursor} {read : List Char}, c'.rest.length < fuel →
    c'.rest.length < fuel' → Alike lag bound c c' →
    Corresponds (ReadAlike lag bound) (quotedText quote fuel read c) (quotedText quote fuel' read c')

theorem corresponds_quotedText_gap
    {x x' : Char} (ih : QuotedAlike lag quote fuel) (hfuel : c'.rest.length < fuel + 1)
    (hfuel' : c'.rest.length < fuel' + 1) (h : Alike lag bound c c') (here : c.peek? = some x)
    (there : c'.peek? = some x') (hx : StartsGap quote x) (hx' : StartsGap quote x') :
    Corresponds (ReadAlike lag bound) (quotedText quote (fuel + 1) read c)
      (quotedText quote (fuel' + 1) read c') := by
  obtain ⟨m, hm⟩ := exists_length_eq there
  have hbound := h.bounded
  rw [quotedText_of_gap hx here, quotedText_of_gap hx' there]
  refine Corresponds.bind (corresponds_quotedGap (h.weaken hm.le) here hx.blank) ?_
  rintro ⟨_, d⟩ ⟨gap, d'⟩ ⟨rfl, hd⟩
  have hle := hd.bounded
  dsimp only at hd hle ⊢
  exact ih (by omega) (by omega) (hd.weaken (by omega))

theorem corresponds_quotedText_end
    (ih : QuotedAlike lag quote fuel) (hfuel : c'.rest.length < fuel + 1)
    (hfuel' : c'.rest.length < fuel' + 1) (hquote : isBreak quote = false)
    (h : Alike lag bound c c') (here : c.peek? = some quote) (there : c'.peek? = some quote) :
    Corresponds (ReadAlike lag bound) (quotedText quote (fuel + 1) read c)
      (quotedText quote (fuel' + 1) read c') := by
  have hnext := h.next_at? hquote (beq_iff_eq.mpr here)
  have hshorter := length_next_lt there
  have htwice : (c'.peekAt? 1 == some '\'') = (c.peekAt? 1 == some '\'') := by
    rw [h.peekAt?_one here hquote, Bool.eq_iff_iff, beq_iff_eq, beq_iff_eq,
      map_unifyChar_eq_some_iff (by decide)]
  rw [quotedText, quotedText, here, there]
  dsimp only
  rw [beq_self_eq_true, if_pos rfl, if_pos rfl, htwice]
  by_cases hdoubled : (quote == '\'' && c.peekAt? 1 == some '\'') = true
  · rw [if_pos hdoubled, if_pos hdoubled]
    rw [Bool.and_eq_true, beq_iff_eq, beq_iff_eq] at hdoubled
    have hplace : Alike lag bound (c.advance 2) (c'.advance 2) :=
      hnext.next_at? (by decide) (beq_iff_eq.mpr (c.peek?_next.trans hdoubled.2))
    have hle : (c'.advance 2).rest.length ≤ c'.next.rest.length := by
      rw [rest_advance, rest_next, List.length_drop, List.length_tail]
      omega
    exact ih (by omega) (by omega) hplace
  · rw [if_neg hdoubled, if_neg hdoubled]
    exact .ok ⟨rfl, hnext⟩

theorem corresponds_quotedText_escape
    (ih : QuotedAlike lag quote fuel) (hfuel : c'.rest.length < fuel + 1)
    (hfuel' : c'.rest.length < fuel' + 1) (h : Alike lag bound c c') (hquote : quote = '"')
    (here : c.peek? = some '\\') (there : c'.peek? = some '\\') :
    Corresponds (ReadAlike lag bound) (quotedText quote (fuel + 1) read c)
      (quotedText quote (fuel' + 1) read c') := by
  subst hquote
  obtain ⟨m, hm⟩ := exists_length_eq there
  have hbound := h.bounded
  have hnext : Alike lag m c.next c'.next := (h.weaken hm.le).pass (by decide) here
  rw [quotedText, quotedText, here, there]
  dsimp only
  refine Corresponds.bind (corresponds_readEscape hnext) ?_
  rintro ⟨_, d⟩ ⟨piece, d'⟩ ⟨rfl, hd⟩
  have hle := hd.bounded
  dsimp only at hd hle ⊢
  exact ih (by omega) (by omega) (hd.weaken (by omega))

theorem corresponds_quotedText
    (hquote : isBreak quote = false) (fuel : Nat) :
    QuotedAlike lag quote fuel := by
  induction fuel with
  | zero =>
      intro bound fuel' c c' read hfuel
      exact absurd hfuel (Nat.not_lt_zero _)
  | succ fuel ih =>
      intro bound fuel' c c' read hfuel hfuel' h
      obtain ⟨fuel', rfl⟩ := Nat.exists_eq_add_one_of_ne_zero (Nat.ne_zero_of_lt hfuel')
      cases h.sees with
      | nothing here there =>
          rw [quotedText, quotedText, here, there]
          exact .error _
      | lineEnd x x' hx hx' here there =>
          exact corresponds_quotedText_gap ih hfuel hfuel' h here there
            (startsGap_of_isBreak hquote hx) (startsGap_of_isBreak hquote hx')
      | inner x hx here there next shorter =>
          by_cases hend : x = quote
          · subst hend
            exact corresponds_quotedText_end ih hfuel hfuel' hquote h here there
          · by_cases hescape : (quote == '"' && x == '\\') = true
            · have hboth := hescape
              rw [Bool.and_eq_true, beq_iff_eq, beq_iff_eq] at hboth
              obtain ⟨hdouble, rfl⟩ := hboth
              exact corresponds_quotedText_escape ih hfuel hfuel' h hdouble here there
            · by_cases hblank : (x == ' ' || x == '\t' || isBreak x) = true
              · have hgap : StartsGap quote x :=
                  ⟨beq_false_of_ne hend, eq_false_of_ne_true hescape, hblank⟩
                exact corresponds_quotedText_gap ih hfuel hfuel' h here there hgap hgap
              · rw [quotedText, quotedText, here, there]
                dsimp only
                rw [beq_false_of_ne hend, if_neg Bool.false_ne_true, if_neg Bool.false_ne_true,
                  if_neg hescape, if_neg hescape, if_neg hblank, if_neg hblank]
                exact ih (by omega) (by omega) next

end

theorem corresponds_readQuoted
    {quote : Char} (hquote : isBreak quote = false) (h : Alike lag (bound + 1) c c')
    (hhere : c.peek? = some quote) :
    Corresponds (ReadAlike lag bound) (readQuoted quote c) (readQuoted quote c') := by
  have hnext := h.pass hquote hhere
  have hle := h.length_le
  have hnext_le := length_next_le c'
  refine Corresponds.bind (corresponds_quotedText hquote _ (by omega) (by omega) hnext) ?_
  rintro ⟨_, d⟩ ⟨text, d'⟩ ⟨rfl, hd⟩
  exact .ok ⟨rfl, hd⟩

/-! ## Block scalars -/

theorem chomping?_map
    (x : Option Char) :
    chomping? (x.map unifyChar) = chomping? x :=
  apply_map_unifyChar rfl x

theorem increment?_map
    (x : Option Char) :
    increment? (x.map unifyChar) = increment? x :=
  apply_map_unifyChar rfl x

theorem not_isBreak_of_chomping?
    {y : Option Char} {chomping : Chomping} (h : chomping? y = some chomping) :
    ∀ x, y = some x → isBreak x = false := by
  rintro x rfl
  by_contra hbreak
  rcases eq_of_isBreak (eq_true_of_ne_false hbreak) with rfl | rfl | rfl | rfl | rfl <;> cases h

theorem not_isBreak_of_increment?
    {y : Option Char} {n : Nat} (h : increment? y = .ok (some n)) :
    ∀ x, y = some x → isBreak x = false := by
  rintro x rfl
  by_contra hbreak
  rcases eq_of_isBreak (eq_true_of_ne_false hbreak) with rfl | rfl | rfl | rfl | rfl <;> cases h

/-- The indicators of a block scalar, whether or not their word ends behind them. -/
def blockIndicators : Reader (Chomping × Option Nat) := fun c =>
  match chomping? c.peek? with
  | some chomping => do
    match ← increment? c.next.peek? with
    | some n => return ((chomping, some n), c.next.next)
    | none => return ((chomping, none), c.next)
  | none => do
    match ← increment? c.peek? with
    | some n =>
      match chomping? c.next.peek? with
      | some chomping => return ((chomping, some n), c.next.next)
      | none => return ((.clip, some n), c.next)
    | none => return ((.clip, none), c)

theorem readIndicators_eq
    (c : Cursor) :
    readIndicators c = blockIndicators c >>= endOfWord := by
  unfold readIndicators blockIndicators
  dsimp only
  cases chomping? c.peek? with
  | some chomping =>
      dsimp only
      cases increment? c.next.peek? with
      | error fault => rfl
      | ok n => cases n <;> rfl
  | none =>
      dsimp only
      cases increment? c.peek? with
      | error fault => rfl
      | ok n =>
          cases n with
          | none => rfl
          | some n =>
              simp only [bind, Except.bind]
              cases chomping? c.next.peek? <;> rfl

theorem corresponds_readIndicators
    (h : Alike lag bound c c') :
    Corresponds (ReadAlike lag bound) (readIndicators c) (readIndicators c') := by
  rw [readIndicators_eq, readIndicators_eq]
  refine Corresponds.bind (R := ReadAlike lag bound) ?_ ?_
  · unfold blockIndicators
    rw [h.peek?_eq, chomping?_map, increment?_map]
    cases hchomping : chomping? c.peek? with
    | some chomping =>
        have hnext := h.next (not_isBreak_of_chomping? hchomping)
        dsimp only
        rw [hnext.peek?_eq, increment?_map]
        cases hincrement : increment? c.next.peek? with
        | error fault => exact .error _
        | ok n =>
            cases n with
            | none => exact .ok ⟨rfl, hnext⟩
            | some n =>
                exact .ok ⟨rfl, hnext.next (not_isBreak_of_increment? hincrement)⟩
    | none =>
        dsimp only
        cases hincrement : increment? c.peek? with
        | error fault => exact .error _
        | ok n =>
            cases n with
            | none => exact .ok ⟨rfl, h⟩
            | some n =>
                have hnext := h.next (not_isBreak_of_increment? hincrement)
                simp only [bind, Except.bind]
                rw [hnext.peek?_eq, chomping?_map]
                cases hchomping : chomping? c.next.peek? with
                | none => exact .ok ⟨rfl, hnext⟩
                | some chomping =>
                    exact .ok ⟨rfl, hnext.next (not_isBreak_of_chomping? hchomping)⟩
  · rintro ⟨_, d⟩ ⟨value, d'⟩ ⟨rfl, hd⟩
    exact corresponds_endOfWord _ hd

theorem Cursor.Alike.advanceSpaces
    (h : Alike lag bound c c') (n : Nat) :
    Alike lag bound (c.advance (min (c.rest.takeWhile (· == ' ')).length n))
      (c'.advance (min (c'.rest.takeWhile (· == ' ')).length n)) := by
  have hspace : IsInner (· == ' ') := isInner_of (by decide)
  rw [h.rest, takeWhile_unifyLineEnds hspace]
  apply h.advance
  intro x hx
  rw [Nat.min_comm, ← List.take_take,
    ← List.prefix_iff_eq_take.mp (List.takeWhile_prefix (· == ' '))] at hx
  have hrun := List.mem_of_mem_take hx
  exact hspace.not_isBreak (List.mem_takeWhile_imp (p := (· == ' ')) hrun)

theorem readAlike_blockBreaks
    (indent : Nat) (hfuel : c'.rest.length < fuel) (hfuel' : c'.rest.length < fuel')
    (h : Alike lag bound c c') :
    ReadAlike lag bound (blockBreaks indent fuel c) (blockBreaks indent fuel' c') := by
  induction fuel generalizing fuel' c c' with
  | zero => exact absurd hfuel (Nat.not_lt_zero _)
  | succ fuel ih =>
      obtain ⟨fuel', rfl⟩ := Nat.exists_eq_add_one_of_ne_zero (Nat.ne_zero_of_lt hfuel')
      have hplace := h.advanceSpaces (indent - c.column)
      unfold blockBreaks
      rw [h.column]
      dsimp only
      rcases hplace.takeBreak with hgoes | ⟨x, d, d', hends⟩
      · rw [hgoes.here, hgoes.there]
        exact ⟨rfl, hplace⟩
      · have hshorter := hends.shorter
        rw [rest_advance, List.length_drop] at hshorter
        have hmore : ReadAlike lag bound (blockBreaks indent fuel d)
            (blockBreaks indent fuel' d') := ih (by omega) (by omega) hends.alike
        rw [hends.here, hends.there]
        exact ⟨congrArg ([x] ++ ·) hmore.value, hmore.alike⟩

/-- Two scans have found the same, two things each, and go on at a place and its counterpart. -/
structure ScanAlike {α β : Type} (lag : Nat → Nat) (bound : Nat) (p p' : α × β × Cursor) : Prop where
  first : p'.1 = p.1
  second : p'.2.1 = p.2.1
  alike : Alike lag bound p.2.2 p'.2.2

/-- Spaces are passed at both places or at neither. -/
theorem Cursor.Alike.index_skipSpaces_iff
    (h : Alike lag bound c c') :
    c'.skipSpaces.index = c'.index ↔ c.skipSpaces.index = c.index := by
  have hline : c.skipSpaces.line = c.line := line_skipWhile (isInner_of (by decide)) c
  have hindex := h.index
  have hspaces := h.skipSpaces.index
  rw [hline] at hspaces
  omega

theorem scanAlike_leadingBreaks
    (hfuel : c'.rest.length < fuel) (hfuel' : c'.rest.length < fuel')
    (h : Alike lag bound c c') :
    ScanAlike lag bound (leadingBreaks fuel c) (leadingBreaks fuel' c') := by
  induction fuel generalizing fuel' c c' with
  | zero => exact absurd hfuel (Nat.not_lt_zero _)
  | succ fuel ih =>
      obtain ⟨fuel', rfl⟩ := Nat.exists_eq_add_one_of_ne_zero (Nat.ne_zero_of_lt hfuel')
      have hplace := h.skipSpaces
      have hreached : (if c'.skipSpaces.index = c'.index then 0 else c'.skipSpaces.column) =
          if c.skipSpaces.index = c.index then 0 else c.skipSpaces.column := by
        simp only [h.index_skipSpaces_iff, hplace.column]
      unfold leadingBreaks
      dsimp only
      rw [hreached]
      rcases hplace.takeBreak with hgoes | ⟨x, d, d', hends⟩
      · rw [hgoes.here, hgoes.there]
        exact ⟨rfl, rfl, hplace⟩
      · have hshorter := hends.shorter
        have hle := length_skipWhile_le (· == ' ') c'
        rw [Cursor.skipSpaces] at hshorter
        have hmore : ScanAlike lag bound (leadingBreaks fuel d) (leadingBreaks fuel' d') :=
          ih (by omega) (by omega) hends.alike
        rw [hends.here, hends.there]
        exact ⟨congrArg ([x] ++ ·) hmore.first, congrArg (max _) hmore.second, hmore.alike⟩

theorem isInner_not_isBreak :
    IsInner (!isBreak ·) := by
  intro x hx
  simp [hx]

/-- The end of a line of a block scalar and the line ends of the empty lines after it. -/
def scanBreaks (indent : Nat) (c : Cursor) : (List Char × List Char) × Cursor :=
  let (lineEnd, c) := c.takeBreak
  let (breaks, c) := blockBreaks indent (c.rest.length + 1) c
  ((lineEnd, breaks), c)

/-- A line of a block scalar, its end, and the line ends of the empty lines after it. -/
def scanLine (indent : Nat) (c : Cursor) : (List Char × List Char × List Char) × Cursor :=
  let (line, c) := c.takeWhile (!isBreak ·)
  let (ends, c) := scanBreaks indent c
  ((line, ends), c)

/-- What a line end becomes between two lines of a block scalar. -/
def joinLines (folded : Bool) (lineEnd breaks : List Char) (c after : Cursor) : List Char :=
  let startsBlank (c : Cursor) := c.at? ' ' || c.at? '\t'
  if folded && lineEnd == ['\n'] && !startsBlank c && !startsBlank after then
    if breaks.isEmpty then [' '] else []
  else lineEnd

theorem blockLines_succ
    (folded : Bool) (indent fuel : Nat) (read lineEnd breaks : List Char) (c : Cursor) :
    blockLines folded indent (fuel + 1) read lineEnd breaks c =
      if c.column = indent && c.peek?.isSome then
        match scanLine indent c with
        | ((line, lineEnd, more), after) =>
          let read := line.reverse ++ (breaks.reverse ++ read)
          if after.column = indent && after.peek?.isSome then
            blockLines folded indent fuel
              ((joinLines folded lineEnd more c after).reverse ++ read) lineEnd more after
          else ((read, lineEnd, more), after)
      else ((read, lineEnd, breaks), c) :=
  rfl

theorem readAlike_scanBreaks
    (indent : Nat) (h : ReadAlike lag bound c.takeBreak c'.takeBreak) :
    ReadAlike lag bound (scanBreaks indent c) (scanBreaks indent c') := by
  have hle := h.alike.length_le
  have hbreaks : ReadAlike lag bound
      (blockBreaks indent (c.takeBreak.2.rest.length + 1) c.takeBreak.2)
      (blockBreaks indent (c'.takeBreak.2.rest.length + 1) c'.takeBreak.2) :=
    readAlike_blockBreaks indent (by omega) (by omega) h.alike
  exact ⟨congrArg₂ Prod.mk h.value hbreaks.value, hbreaks.alike⟩

/-- A line of a block scalar takes some character where there is one. -/
theorem readAlike_scanLine
    {x : Char} (indent : Nat) (h : Alike lag (bound + 1) c c') (hhere : c.peek? = some x) :
    ReadAlike lag bound (scanLine indent c) (scanLine indent c') := by
  obtain ⟨line, d, d', hline⟩ := h.takes isInner_not_isBreak
  have hbound := h.bounded
  have hend : ReadAlike lag bound d.takeBreak d'.takeBreak := by
    by_cases hempty : line = []
    · subst hempty
      obtain rfl := hline.eq_of_nil
      have hx : isBreak x = true := by
        by_contra hx
        exact hline.ne_nil hhere (by simpa using hx) rfl
      exact readAlike_takeBreak_of_isBreak hline.alike hhere hx
    · have hshorter := hline.shorter hempty
      exact readAlike_takeBreak (hline.alike.weaken (by omega))
  have hends := readAlike_scanBreaks indent hend
  unfold scanLine
  rw [hline.here, hline.there]
  exact ⟨congrArg (Prod.mk line) hends.value, hends.alike⟩

theorem joinLines_eq
    (folded : Bool) (lineEnd breaks : List Char) {d d' : Cursor} {bound' : Nat}
    (h : Alike lag bound c c') (hd : Alike lag bound' d d') :
    joinLines folded lineEnd breaks c' d' = joinLines folded lineEnd breaks c d := by
  have hspace : isBreak ' ' = false := by decide
  have htab : isBreak '\t' = false := by decide
  simp only [joinLines, h.at?_eq hspace, h.at?_eq htab, hd.at?_eq hspace, hd.at?_eq htab]

theorem readAlike_blockLines
    (folded : Bool) (indent : Nat) {read lineEnd breaks : List Char}
    (hfuel : c'.rest.length < fuel) (hfuel' : c'.rest.length < fuel')
    (h : Alike lag bound c c') :
    ReadAlike lag bound (blockLines folded indent fuel read lineEnd breaks c)
      (blockLines folded indent fuel' read lineEnd breaks c') := by
  induction fuel generalizing fuel' c c' read lineEnd breaks with
  | zero => exact absurd hfuel (Nat.not_lt_zero _)
  | succ fuel ih =>
      obtain ⟨fuel', rfl⟩ := Nat.exists_eq_add_one_of_ne_zero (Nat.ne_zero_of_lt hfuel')
      rw [blockLines_succ, blockLines_succ, h.column, h.peek?_eq, Option.isSome_map]
      by_cases hgoes : (c.column = indent && c.peek?.isSome) = true
      · rw [if_pos hgoes, if_pos hgoes]
        rw [Bool.and_eq_true] at hgoes
        obtain ⟨x, here⟩ := Option.isSome_iff_exists.mp hgoes.2
        have there : c'.peek? = some (unifyChar x) := by
          rw [h.peek?_eq, here, Option.map_some]
        obtain ⟨m, hm⟩ := exists_length_eq there
        have hline := readAlike_scanLine indent (h.weaken hm.le) here
        revert hline
        rcases scanLine indent c with ⟨_, d⟩
        rcases scanLine indent c' with ⟨⟨line, lineEnd, more⟩, d'⟩
        rintro ⟨rfl, hd⟩
        have hle := hd.bounded
        have hbound := h.bounded
        dsimp only at hd hle ⊢
        rw [hd.column, hd.peek?_eq, Option.isSome_map, joinLines_eq folded lineEnd more h hd]
        split
        · exact ih (by omega) (by omega) (hd.weaken (by omega))
        · exact ⟨rfl, hd.weaken (by omega)⟩
      · rw [if_neg hgoes, if_neg hgoes]
        exact ⟨rfl, h⟩

/-- The empty lines at the start of a block scalar, and the column of its lines. -/
def blockHead (parent : Int) (increment : Option Nat) (c : Cursor) : List Char × Nat × Cursor :=
  let least := max 1 (parent + 1).toNat
  match increment with
  | none =>
    let (breaks, reached, c) := leadingBreaks (c.rest.length + 1) c
    (breaks, max least reached, c)
  | some n =>
    let indent := least + n - 1
    let (breaks, c) := blockBreaks indent (c.rest.length + 1) c
    (breaks, indent, c)

theorem readBlock_eq
    (folded : Bool) (parent : Int) (c : Cursor) :
    readBlock folded parent c = (do
      let ((chomping, increment), d) ← readIndicators c.next
      let e ← endOfLine d
      let (breaks, indent, f) := blockHead parent increment e
      let ((read, lineEnd, breaks), g) :=
        blockLines folded indent (f.rest.length + 1) [] [] breaks f
      let text := read.reverse ++
        match chomping with
        | .strip => []
        | .clip => lineEnd
        | .keep => lineEnd ++ breaks
      return (.scalar false text, g)) :=
  rfl

theorem scanAlike_blockHead
    (parent : Int) (increment : Option Nat) (h : Alike lag bound c c') :
    ScanAlike lag bound (blockHead parent increment c) (blockHead parent increment c') := by
  have hle := h.length_le
  unfold blockHead
  cases increment with
  | none =>
      have hlead : ScanAlike lag bound (leadingBreaks (c.rest.length + 1) c)
          (leadingBreaks (c'.rest.length + 1) c') :=
        scanAlike_leadingBreaks (by omega) (by omega) h
      exact ⟨hlead.first, congrArg (max _) hlead.second, hlead.alike⟩
  | some n =>
      have hbreaks : ReadAlike lag bound
          (blockBreaks (max 1 (parent + 1).toNat + n - 1) (c.rest.length + 1) c)
          (blockBreaks (max 1 (parent + 1).toNat + n - 1) (c'.rest.length + 1) c') :=
        readAlike_blockBreaks _ (by omega) (by omega) h
      exact ⟨hbreaks.value, rfl, hbreaks.alike⟩

theorem corresponds_readBlock
    {x : Char} (folded : Bool) (parent : Int) (hx : isBreak x = false)
    (h : Alike lag (bound + 1) c c') (hhere : c.peek? = some x) :
    Corresponds (ReadAlike lag bound) (readBlock folded parent c)
      (readBlock folded parent c') := by
  rw [readBlock_eq, readBlock_eq]
  refine Corresponds.bind (corresponds_readIndicators (h.pass hx hhere)) ?_
  rintro ⟨_, d⟩ ⟨⟨chomping, increment⟩, d'⟩ ⟨rfl, hd⟩
  refine Corresponds.bind (corresponds_endOfLine hd) ?_
  intro e e' he
  have hhead := scanAlike_blockHead parent increment he
  dsimp only
  revert hhead
  rcases blockHead parent increment e with ⟨_, _, f⟩
  rcases blockHead parent increment e' with ⟨breaks, indent, f'⟩
  rintro ⟨rfl, rfl, hf⟩
  have hle := hf.length_le
  dsimp only at hf hle ⊢
  have hlines : ReadAlike lag bound
      (blockLines folded indent (f.rest.length + 1) [] [] breaks f)
      (blockLines folded indent (f'.rest.length + 1) [] [] breaks f') :=
    readAlike_blockLines folded indent (by omega) (by omega) hf
  revert hlines
  rcases blockLines folded indent (f.rest.length + 1) [] [] breaks f with ⟨_, g⟩
  rcases blockLines folded indent (f'.rest.length + 1) [] [] breaks f' with
    ⟨⟨read, lineEnd, more⟩, g'⟩
  rintro ⟨rfl, hg⟩
  exact .ok ⟨rfl, hg⟩

/-! ## Plain scalars -/

theorem endsPlain_of_isBreak
    {x : Char} (hx : isBreak x = true) (flow : Bool) (following : Option Char) :
    endsPlain flow x following = true := by
  simp [endsPlain, isGap, hx]

theorem endsPlain_map
    (flow : Bool) (x : Char) (following : Option Char) :
    endsPlain flow x (following.map unifyChar) = endsPlain flow x following := by
  unfold endsPlain
  rw [isGap_map, any_map_unifyChar (isInner_of (by decide))]

theorem plainRun_unifyLineEnds
    (flow : Bool) (text : List Char) :
    plainRun flow (unifyLineEnds text) = plainRun flow text := by
  induction text with
  | nil => rfl
  | cons x rest ih =>
      by_cases hx : isBreak x = true
      · obtain ⟨y, more, hy, hmore⟩ := exists_unifyLineEnds_of_isBreak hx rest
        rw [hmore, plainRun, plainRun, endsPlain_of_isBreak hx, endsPlain_of_isBreak hy,
          if_pos rfl, if_pos rfl]
      · rw [unifyLineEnds_of_not_isBreak (eq_false_of_ne_true hx), plainRun, plainRun,
          head?_unifyLineEnds, endsPlain_map, ih]

theorem plainRun_isPrefix
    (flow : Bool) (text : List Char) :
    plainRun flow text <+: text := by
  induction text with
  | nil => exact List.nil_prefix
  | cons x rest ih =>
      rw [plainRun]
      split
      · exact List.nil_prefix
      · exact (List.prefix_cons_inj x).mpr ih

theorem not_isBreak_of_mem_plainRun
    {flow : Bool} {text : List Char} :
    ∀ x ∈ plainRun flow text, isBreak x = false := by
  induction text with
  | nil => nofun
  | cons y rest ih =>
      rw [plainRun]
      split
      · nofun
      · next hends =>
          rw [List.forall_mem_cons]
          refine ⟨?_, ih⟩
          by_contra hy
          exact hends (endsPlain_of_isBreak (eq_true_of_ne_false hy) flow _)

theorem readAlike_plainBreaks
    (hfuel : c'.rest.length < fuel) (hfuel' : c'.rest.length < fuel')
    (h : Alike lag bound c c') :
    ReadAlike lag bound (plainBreaks fuel c) (plainBreaks fuel' c') := by
  induction fuel generalizing fuel' c c' with
  | zero => exact absurd hfuel (Nat.not_lt_zero _)
  | succ fuel ih =>
      obtain ⟨fuel', rfl⟩ := Nat.exists_eq_add_one_of_ne_zero (Nat.ne_zero_of_lt hfuel')
      have hplace := h.skipSpaces
      unfold plainBreaks
      dsimp only
      rcases hplace.takeBreak with hgoes | ⟨x, d, d', hends⟩
      · rw [hgoes.here, hgoes.there]
        exact ⟨rfl, hplace⟩
      · have hshorter := hends.shorter
        have hle := length_skipWhile_le (· == ' ') c'
        rw [Cursor.skipSpaces] at hshorter
        rw [hends.here, hends.there]
        dsimp only
        rw [hends.alike.atSeparator_eq]
        split
        · exact ⟨rfl, hends.alike⟩
        · have hmore : ReadAlike lag bound (plainBreaks fuel d) (plainBreaks fuel' d') :=
            ih (by omega) (by omega) hends.alike
          exact ⟨congrArg (Option.map ([x] ++ ·)) hmore.value, hmore.alike⟩

theorem scanAlike_plainSpaces
    (h : Alike lag bound c c') :
    ScanAlike lag bound (plainSpaces c) (plainSpaces c') := by
  have hspace : IsInner (· == ' ') := isInner_of (by decide)
  obtain ⟨spaces, d, d', hspaces⟩ := h.takes hspace
  unfold plainSpaces
  rw [hspaces.here, hspaces.there]
  dsimp only
  rcases hspaces.alike.takeBreak with hgoes | ⟨x, e, e', hends⟩
  · rw [hgoes.here, hgoes.there]
    exact ⟨rfl, rfl, hspaces.alike⟩
  · have hle := hends.alike.length_le
    rw [hends.here, hends.there]
    dsimp only
    rw [hends.alike.atSeparator_eq]
    split
    · exact ⟨rfl, rfl, hends.alike⟩
    · have hbreaks : ReadAlike lag bound (plainBreaks (e.rest.length + 1) e)
          (plainBreaks (e'.rest.length + 1) e') :=
        readAlike_plainBreaks (by omega) (by omega) hends.alike
      revert hbreaks
      rcases plainBreaks (e.rest.length + 1) e with ⟨_, f⟩
      rcases plainBreaks (e'.rest.length + 1) e' with ⟨breaks, f'⟩
      rintro ⟨rfl, hf⟩
      cases breaks with
      | none => exact ⟨rfl, rfl, hf⟩
      | some breaks => exact ⟨rfl, rfl, hf⟩

/-- Both places move on by the characters of a run. -/
theorem Cursor.Alike.advanceRun
    (flow : Bool) (h : Alike lag bound c c') :
    Alike lag bound (c.advance (plainRun flow c.rest).length)
      (c'.advance (plainRun flow c.rest).length) := by
  apply h.advance
  intro x hx
  rw [← List.prefix_iff_eq_take.mp (plainRun_isPrefix flow c.rest)] at hx
  exact not_isBreak_of_mem_plainRun x hx

theorem length_advanceRun_lt
    {flow : Bool} (h : Alike lag bound c c') (hrun : plainRun flow c.rest ≠ []) :
    (c'.advance (plainRun flow c.rest).length).rest.length < c'.rest.length := by
  have hpositive := List.length_pos_iff.mpr hrun
  have hle := (plainRun_isPrefix flow c'.rest).length_le
  rw [h.rest, plainRun_unifyLineEnds, ← h.rest] at hle
  rw [rest_advance, List.length_drop]
  omega

section

variable {flow ended : Bool} {indent : Int} {read spaces : List Char}

/-- Plain scalars are read alike from here on, with `fuel` turns left and any other number that is
large enough. -/
def PlainAlike (lag : Nat → Nat) (flow : Bool) (indent : Int) (fuel : Nat) : Prop :=
  ∀ {bound fuel' : Nat} {c c' : Cursor} {read spaces : List Char} {ended : Bool},
    c'.rest.length < fuel → c'.rest.length < fuel' → Alike lag bound c c' →
    ScanAlike lag bound (plainText flow indent fuel read spaces ended c)
      (plainText flow indent fuel' read spaces ended c')

/-- Where a run of a plain scalar starts, some character is taken. -/
theorem scanAlike_plainText_run
    (ih : PlainAlike lag flow indent fuel) (hfuel : c'.rest.length < fuel + 1)
    (hfuel' : c'.rest.length < fuel' + 1) (h : Alike lag (bound + 1) c c')
    (hcomment : c.at? '#' = false) (hrun : plainRun flow c.rest ≠ []) :
    ScanAlike lag bound (plainText flow indent (fuel + 1) read spaces ended c)
      (plainText flow indent (fuel' + 1) read spaces ended c') := by
  have hbound := h.bounded
  have hshorter := length_advanceRun_lt h hrun
  have hempty : (plainRun flow c.rest).isEmpty = false := by simpa using hrun
  have hspaces := scanAlike_plainSpaces ((h.advanceRun flow).weaken (Nat.le_refl _))
  unfold plainText
  rw [h.at?_eq (by decide), hcomment, if_neg Bool.false_ne_true, if_neg Bool.false_ne_true]
  dsimp only
  rw [h.rest, plainRun_unifyLineEnds, hempty, if_neg Bool.false_ne_true,
    if_neg Bool.false_ne_true]
  revert hspaces
  rcases plainSpaces (c.advance (plainRun flow c.rest).length) with ⟨_, _, d⟩
  rcases plainSpaces (c'.advance (plainRun flow c.rest).length) with ⟨gap, lineEnded, d'⟩
  rintro ⟨rfl, rfl, hd⟩
  have hle := hd.bounded
  dsimp only at hd hle ⊢
  rw [hd.at?_eq (by decide), hd.column]
  split
  · exact ⟨rfl, rfl, hd.weaken (by omega)⟩
  · exact ih (by omega) (by omega) (hd.weaken (by omega))

theorem scanAlike_plainText
    (flow : Bool) (indent : Int) (fuel : Nat) :
    PlainAlike lag flow indent fuel := by
  induction fuel with
  | zero =>
      intro bound fuel' c c' read spaces ended hfuel
      exact absurd hfuel (Nat.not_lt_zero _)
  | succ fuel ih =>
      intro bound fuel' c c' read spaces ended hfuel hfuel' h
      obtain ⟨fuel', rfl⟩ := Nat.exists_eq_add_one_of_ne_zero (Nat.ne_zero_of_lt hfuel')
      by_cases hcomment : c.at? '#' = true
      · have hcomment' : c'.at? '#' = true := by rwa [h.at?_eq (by decide)]
        rw [plainText, plainText, if_pos hcomment, if_pos hcomment']
        exact ⟨rfl, rfl, h⟩
      · by_cases hrun : plainRun flow c.rest = []
        · have hrun' : plainRun flow c'.rest = [] := by rw [h.rest, plainRun_unifyLineEnds, hrun]
          have hcomment' : ¬ c'.at? '#' = true := by rwa [h.at?_eq (by decide)]
          rw [plainText, plainText, if_neg hcomment, if_neg hcomment', hrun, hrun']
          exact ⟨rfl, rfl, h⟩
        · have hnext : Alike lag (bound + 1) c c' := h.weaken (Nat.le_succ_of_le h.bounded)
          have hnone := eq_false_of_ne_true hcomment
          exact scanAlike_plainText_run ih hfuel hfuel' hnext hnone hrun

end

end RingTape.Yaml
