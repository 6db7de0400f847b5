import RingTape.Proofs.Yaml.LineEnds.Cursor
import RingTape.Yaml.Token.Property

/-!
# Directives, anchors and tags with other line ends

The readers of directives, anchors and tags stay within a line.  So they take the same at a place of
a text and at its counterpart, and go on at counterparts.
-/

namespace RingTape.Yaml

open Text Cursor

/-! ## Escapes -/

theorem hexValue?_of_isBreak
    {x : Char} (h : isBreak x = true) :
    hexValue? x = none := by
  rcases eq_of_isBreak h with rfl | rfl | rfl | rfl | rfl <;> rfl

theorem hexNumber?_unifyLineEnds
    (count n : Nat) (text : List Char) :
    hexNumber? count n (unifyLineEnds text) = hexNumber? count n text := by
  induction count generalizing n text with
  | zero => cases text <;> rfl
  | succ count ih =>
      cases text with
      | nil => rfl
      | cons x rest =>
          by_cases hx : isBreak x = true
          · obtain ⟨y, more, hy, hmore⟩ := exists_unifyLineEnds_of_isBreak hx rest
            rw [hmore, hexNumber?, hexNumber?, hexValue?_of_isBreak hx, hexValue?_of_isBreak hy]
          · rw [unifyLineEnds_of_not_isBreak (eq_false_of_ne_true hx), hexNumber?, hexNumber?]
            cases hexValue? x with
            | none => rfl
            | some d => exact ih _ _

/-- No line ends among the digits of a number. -/
theorem not_isBreak_of_hexNumber?
    {count n m : Nat} {text : List Char} (h : hexNumber? count n text = some m) :
    ∀ x ∈ text.take count, isBreak x = false := by
  induction count generalizing n text with
  | zero => simp
  | succ count ih =>
      cases text with
      | nil => simp
      | cons x rest =>
          rw [hexNumber?] at h
          cases hx : hexValue? x with
          | none =>
              rw [hx] at h
              cases h
          | some d =>
              rw [hx] at h
              rw [List.take_succ_cons, List.forall_mem_cons]
              refine ⟨?_, ih h⟩
              by_contra hbreak
              rw [hexValue?_of_isBreak (by simpa using hbreak)] at hx
              cases hx

theorem escapedBytes_percent
    (rest : List Char) :
    escapedBytes ('%' :: rest) =
      (hexNumber? 2 0 rest).bind fun n =>
        (escapedBytes (rest.drop 2)).map (UInt8.ofNat n :: ·) := by
  match rest with
  | [] => rfl
  | [a] =>
      simp only [escapedBytes, hexNumber?]
      cases hexValue? a <;> rfl
  | a :: b :: rest =>
      simp only [escapedBytes, hexNumber?, List.drop_succ_cons, List.drop_zero]
      cases hexValue? a with
      | none => rfl
      | some n =>
          cases hexValue? b with
          | none => rfl
          | some m => cases escapedBytes rest <;> rfl

theorem escapedBytes_of_head?_ne
    {text : List Char} (h : text.head? ≠ some '%') :
    escapedBytes text = some [] := by
  unfold escapedBytes
  split
  · exact absurd rfl h
  · exact absurd rfl h
  · rfl

theorem escapedBytes_unifyLineEnds
    (text : List Char) :
    escapedBytes (unifyLineEnds text) = escapedBytes text := by
  induction hlength : text.length using Nat.strong_induction_on generalizing text with
  | _ length ih =>
      by_cases hhead : text.head? = some '%'
      · obtain ⟨rest, rfl⟩ := List.head?_eq_some_iff.mp hhead
        rw [unifyLineEnds_of_not_isBreak (by decide), escapedBytes_percent, escapedBytes_percent,
          hexNumber?_unifyLineEnds]
        cases hn : hexNumber? 2 0 rest with
        | none => rfl
        | some n =>
            have hshorter : (rest.drop 2).length < length := by
              rw [← hlength, List.length_drop, List.length_cons]
              omega
            rw [drop_unifyLineEnds (not_isBreak_of_hexNumber? hn), ih _ hshorter _ rfl]
      · rw [escapedBytes_of_head?_ne hhead]
        apply escapedBytes_of_head?_ne
        rwa [head?_unifyLineEnds, Ne, map_unifyChar_eq_some_iff (by decide)]

/-- No line ends among escapes. -/
theorem not_isBreak_of_escapedBytes
    {text : List Char} {bytes : List UInt8} (h : escapedBytes text = some bytes) :
    ∀ x ∈ text.take (3 * bytes.length), isBreak x = false := by
  induction bytes generalizing text with
  | nil => simp
  | cons byte bytes ih =>
      by_cases hhead : text.head? = some '%'
      · obtain ⟨rest, rfl⟩ := List.head?_eq_some_iff.mp hhead
        rw [escapedBytes_percent, Option.bind_eq_some_iff] at h
        obtain ⟨n, hn, hrest⟩ := h
        rw [Option.map_eq_some_iff] at hrest
        obtain ⟨more, hmore, heq⟩ := hrest
        cases heq
        rw [List.length_cons, Nat.mul_succ, List.take_succ_cons, List.forall_mem_cons,
          Nat.add_comm, List.take_add, List.forall_mem_append]
        exact ⟨by decide, not_isBreak_of_hexNumber? hn, ih hmore⟩
      · rw [escapedBytes_of_head?_ne hhead] at h
        cases h

theorem escapedBytes_ne_nil
    {text : List Char} {bytes : List UInt8} (hhead : text.head? = some '%')
    (h : escapedBytes text = some bytes) :
    bytes ≠ [] := by
  obtain ⟨rest, rfl⟩ := List.head?_eq_some_iff.mp hhead
  rw [escapedBytes_percent, Option.bind_eq_some_iff] at h
  obtain ⟨n, -, hrest⟩ := h
  rw [Option.map_eq_some_iff] at hrest
  obtain ⟨more, -, rfl⟩ := hrest
  nofun

/-! ## Tags -/

variable {lag : Nat → Nat} {bound : Nat} {c c' : Cursor}

theorem isInner_isTagChar :
    IsInner isTagChar :=
  isInner_of (by decide)

theorem isInner_isNameChar :
    IsInner isNameChar :=
  isInner_of (by decide)

theorem tagText_of_ne
    {x : Char} (fuel : Nat) (h : c.peek? = some x) (hx : x ≠ '%') :
    tagText (fuel + 1) c =
      if isTagChar x then do
        let (run, d) := c.takeWhile isTagChar
        let (more, d) ← tagText fuel d
        return (run ++ more, d)
      else .ok ([], c) := by
  rw [tagText, h]
  split
  · next heq =>
      cases heq
      exact absurd rfl hx
  · next heq =>
      cases heq
      rfl
  · next heq => cases heq

theorem corresponds_tagText
    {fuel fuel' : Nat} (hfuel : c'.rest.length < fuel) (hfuel' : c'.rest.length < fuel')
    (h : Alike lag bound c c') :
    Corresponds (ReadAlike lag bound) (tagText fuel c) (tagText fuel' c') := by
  induction fuel generalizing fuel' c c' with
  | zero => exact absurd hfuel (Nat.not_lt_zero _)
  | succ fuel ih =>
      obtain ⟨fuel', rfl⟩ := Nat.exists_eq_add_one_of_ne_zero (Nat.ne_zero_of_lt hfuel')
      cases h.sees with
      | nothing here there =>
          rw [tagText, tagText, here, there]
          exact .ok ⟨rfl, h⟩
      | lineEnd x x' hx hx' here there =>
          have hne : ∀ y, isBreak y = true → y ≠ '%' := fun y => ne_of_isBreak (by decide)
          rw [tagText_of_ne fuel here (hne x hx), tagText_of_ne fuel' there (hne x' hx'),
            isInner_isTagChar x hx, isInner_isTagChar x' hx']
          exact .ok ⟨rfl, h⟩
      | inner x hx here there next shorter =>
          by_cases hpercent : x = '%'
          · subst hpercent
            rw [tagText, tagText, here, there]
            dsimp only
            rw [h.rest, escapedBytes_unifyLineEnds]
            cases hbytes : escapedBytes c.rest with
            | none => exact .error _
            | some bytes =>
                dsimp only
                cases decodeFrom 0 bytes with
                | error fault => exact .error _
                | ok decoded =>
                    have hplace := h.advance (not_isBreak_of_escapedBytes hbytes)
                    have hshorter : (c'.advance (3 * bytes.length)).rest.length <
                        c'.rest.length := by
                      have hbytes := List.length_pos_iff.mpr (escapedBytes_ne_nil here hbytes)
                      rw [rest_advance, List.length_drop]
                      omega
                    refine Corresponds.bind (ih (by omega) (by omega) hplace) ?_
                    rintro ⟨_, d⟩ ⟨more, d'⟩ ⟨rfl, hd⟩
                    exact .ok ⟨rfl, hd⟩
          · rw [tagText_of_ne fuel here hpercent, tagText_of_ne fuel' there hpercent]
            by_cases htag : isTagChar x = true
            · rw [if_pos htag, if_pos htag]
              obtain ⟨run, d, d', hrun⟩ := h.takes isInner_isTagChar
              have hshorter := hrun.shorter (hrun.ne_nil here htag)
              rw [hrun.here, hrun.there]
              refine Corresponds.bind (ih (by omega) (by omega) hrun.alike) ?_
              rintro ⟨_, e⟩ ⟨more, e'⟩ ⟨rfl, he⟩
              exact .ok ⟨rfl, he⟩
            · rw [if_neg htag, if_neg htag]
              exact .ok ⟨rfl, h⟩

theorem any_map_unifyChar
    {p : Char → Bool} (hp : IsInner p) (x : Option Char) :
    (x.map unifyChar).any p = x.any p := by
  apply apply_map_unifyChar (f := Option.any p)
  rw [Option.any_some, Option.any_some, hp '\n' (by decide), hp '\r' (by decide)]

theorem corresponds_readTagText
    (h : Alike lag bound c c') :
    Corresponds (ReadAlike lag bound) (readTagText c) (readTagText c') := by
  unfold readTagText
  rw [h.peek?_eq, any_map_unifyChar (isInner_of (by decide))]
  split
  · have hshorter := h.length_le
    exact corresponds_tagText (by omega) (by omega) h
  · exact .error _

theorem corresponds_readHandle
    (h : Alike lag (bound + 1) c c') :
    Corresponds (ReadAlike lag bound) (readHandle c) (readHandle c') := by
  unfold readHandle
  rw [h.at?_eq (by decide)]
  by_cases hmark : c.at? '!' = true
  · rw [if_pos hmark, if_pos hmark]
    have hnext := h.pass_at? (by decide) hmark
    dsimp only
    rw [hnext.at?_eq (by decide)]
    split
    · exact .ok ⟨rfl, hnext⟩
    · obtain ⟨name, d, d', hname⟩ := hnext.takes isInner_isNameChar
      rw [hname.here, hname.there]
      dsimp only
      rw [hname.alike.at?_eq (by decide)]
      by_cases hend : d.at? '!' = true
      · rw [if_pos hend, if_pos hend]
        exact .ok ⟨rfl, hname.alike.next_at? (by decide) hend⟩
      · rw [if_neg hend, if_neg hend]
        exact .error _
  · rw [if_neg hmark, if_neg hmark]
    exact .error _

/-- The end of a word, after something that is read. -/
def endOfWord {α : Type} (p : α × Cursor) : Except Fault (α × Cursor) :=
  if isSpaceOrEnd p.2.peek? then .ok p else .error .malformed

theorem corresponds_endOfWord
    {α : Type} (value : α) (h : Alike lag bound c c') :
    Corresponds (ReadAlike lag bound) (endOfWord (value, c)) (endOfWord (value, c')) := by
  unfold endOfWord
  dsimp only
  rw [h.peek?_eq, isSpaceOrEnd_map]
  split
  · exact .ok ⟨rfl, h⟩
  · exact .error _

/-- The handle of a tag, the primary one if none is written. -/
def tagHandle : Reader (List Char) := fun c =>
  let word := c.next.rest.takeWhile fun x => !isSpaceOrEnd (some x)
  if word.contains '!' then readHandle c else .ok (['!'], c.next)

theorem readTag_of_bracket
    (h : c.peekAt? 1 = some '<') :
    readTag c = (do
      let (suffix, d) ← readTagText (c.advance 2)
      if d.at? '>' then endOfWord (Token.tag none suffix, d.next) else .error .malformed) := by
  unfold readTag
  rw [h]
  dsimp only
  refine bind_congr fun p => ?_
  split <;> rfl

theorem readTag_of_ne
    (h : c.peekAt? 1 ≠ some '<') :
    readTag c =
      if isGap (c.peekAt? 1) then endOfWord (Token.tag none ['!'], c.next)
      else (do
        let (handle, d) ← tagHandle c
        let (suffix, e) ← readTagText d
        endOfWord (Token.tag (some handle) suffix, e)) := by
  unfold readTag tagHandle
  dsimp only
  split
  · next heq => exact absurd heq h
  · split
    · rfl
    · split <;> rfl

theorem corresponds_tagHandle
    (h : Alike lag (bound + 1) c c') (hmark : c.peek? = some '!') :
    Corresponds (ReadAlike lag bound) (tagHandle c) (tagHandle c') := by
  have hnext := h.pass (by decide) hmark
  have hword : IsInner fun x => !isSpaceOrEnd (some x) := by
    intro x hx
    simp [isSpaceOrEnd, hx]
  unfold tagHandle
  rw [hnext.rest, takeWhile_unifyLineEnds hword]
  dsimp only
  split
  · exact corresponds_readHandle h
  · exact .ok ⟨rfl, hnext⟩

theorem corresponds_readTag
    (h : Alike lag (bound + 1) c c') (hmark : c.peek? = some '!') :
    Corresponds (ReadAlike lag bound) (readTag c) (readTag c') := by
  have hnext := h.pass (by decide) hmark
  have hfollowing : c'.peekAt? 1 = (c.peekAt? 1).map unifyChar := h.peekAt?_one hmark (by decide)
  by_cases hbracket : c.peekAt? 1 = some '<'
  · have hbracket' : c'.peekAt? 1 = some '<' := by
      rwa [hfollowing, map_unifyChar_eq_some_iff (by decide)]
    have hplace : Alike lag bound (c.advance 2) (c'.advance 2) :=
      hnext.next_at? (by decide) (beq_iff_eq.mpr (c.peek?_next.trans hbracket))
    rw [readTag_of_bracket hbracket, readTag_of_bracket hbracket']
    refine Corresponds.bind (corresponds_readTagText hplace) ?_
    rintro ⟨_, d⟩ ⟨suffix, d'⟩ ⟨rfl, hd⟩
    dsimp only
    rw [hd.at?_eq (by decide)]
    by_cases hend : d.at? '>' = true
    · rw [if_pos hend, if_pos hend]
      exact corresponds_endOfWord _ (hd.next_at? (by decide) hend)
    · rw [if_neg hend, if_neg hend]
      exact .error _
  · have hbracket' : c'.peekAt? 1 ≠ some '<' := by
      rwa [hfollowing, Ne, map_unifyChar_eq_some_iff (by decide)]
    rw [readTag_of_ne hbracket, readTag_of_ne hbracket', hfollowing, isGap_map]
    split
    · exact corresponds_endOfWord _ hnext
    · refine Corresponds.bind (corresponds_tagHandle h hmark) ?_
      rintro ⟨_, d⟩ ⟨handle, d'⟩ ⟨rfl, hd⟩
      refine Corresponds.bind (corresponds_readTagText hd) ?_
      rintro ⟨_, e⟩ ⟨suffix, e'⟩ ⟨rfl, he⟩
      exact corresponds_endOfWord _ he

/-! ## Anchors -/

theorem corresponds_readAnchorName
    {x : Char} (h : Alike lag (bound + 1) c c') (hx : isBreak x = false)
    (hmark : c.peek? = some x) :
    Corresponds (ReadAlike lag bound) (readAnchorName c) (readAnchorName c') := by
  obtain ⟨name, d, d', hname⟩ := (h.pass hx hmark).takes isInner_isNameChar
  unfold readAnchorName
  rw [hname.here, hname.there]
  dsimp only
  rw [hname.alike.peek?_eq, isGap_map, any_map_unifyChar (isInner_of (by decide))]
  split
  · exact .error _
  · exact .ok ⟨rfl, hname.alike⟩

/-! ## Directives -/

theorem corresponds_readVersionNumber
    (h : Alike lag bound c c') :
    Corresponds (ReadAlike lag bound) (readVersionNumber c) (readVersionNumber c') := by
  obtain ⟨digits, d, d', hdigits⟩ := h.takes (isInner_of (p := Char.isDigit) (by decide))
  unfold readVersionNumber
  rw [hdigits.here, hdigits.there]
  dsimp only
  split
  · exact .error _
  · split
    · exact .error _
    · exact .ok ⟨rfl, hdigits.alike⟩

theorem corresponds_readVersion
    (h : Alike lag bound c c') :
    Corresponds (ReadAlike lag bound) (readVersion c) (readVersion c') := by
  refine Corresponds.bind (corresponds_readVersionNumber h.skipSpaces) ?_
  rintro ⟨_, d⟩ ⟨major, d'⟩ ⟨rfl, hd⟩
  dsimp only at hd ⊢
  rw [hd.at?_eq (by decide)]
  by_cases hpoint : d.at? '.' = true
  · rw [if_pos hpoint, if_pos hpoint]
    refine Corresponds.bind (corresponds_readVersionNumber (hd.next_at? (by decide) hpoint)) ?_
    rintro ⟨_, e⟩ ⟨minor, e'⟩ ⟨rfl, he⟩
    exact corresponds_endOfWord (Token.version major) he
  · rw [if_neg hpoint, if_neg hpoint]
    exact .error _

theorem corresponds_readHandleMeaning
    (h : Alike lag bound c c') :
    Corresponds (ReadAlike lag bound) (readHandleMeaning c) (readHandleMeaning c') := by
  have hplace := h.skipSpaces
  refine Corresponds.bind
    (corresponds_readHandle (hplace.weaken (Nat.le_succ_of_le hplace.bounded))) ?_
  rintro ⟨_, d⟩ ⟨name, d'⟩ ⟨rfl, hd⟩
  dsimp only at hd ⊢
  rw [hd.at?_eq (by decide)]
  split
  · refine Corresponds.bind (corresponds_readTagText hd.skipSpaces) ?_
    rintro ⟨_, e⟩ ⟨meaning, e'⟩ ⟨rfl, he⟩
    exact corresponds_endOfWord (Token.handle name meaning) he
  · exact .error _

/-- What follows the name of a directive. -/
def directiveBody (name : List Char) : Reader Token := fun c =>
  if name = ['Y', 'A', 'M', 'L'] then readVersion c
  else if name = ['T', 'A', 'G'] then readHandleMeaning c
  else .ok (Token.reserved, c.skipWhile (!isBreak ·))

theorem corresponds_directiveBody
    (name : List Char) (h : Alike lag bound c c') :
    Corresponds (ReadAlike lag bound) (directiveBody name c) (directiveBody name c') := by
  unfold directiveBody
  split
  · exact corresponds_readVersion h
  · split
    · exact corresponds_readHandleMeaning h
    · exact .ok ⟨rfl, h.skipWhile fun x hx => by simp [hx]⟩

theorem readDirective_eq
    {name : List Char} {d : Cursor} (h : c.next.takeWhile isNameChar = (name, d)) :
    readDirective c =
      if (name.isEmpty || !isSpaceOrEnd d.peek?) = true then .error .malformed
      else (do
        let (token, e) ← directiveBody name d
        return (token, ← endOfLine e)) := by
  unfold readDirective directiveBody
  rw [h]
  dsimp only
  split
  · rfl
  · split
    · rfl
    · split <;> rfl

theorem corresponds_readDirective
    (h : Alike lag (bound + 1) c c') (hmark : c.peek? = some '%') :
    Corresponds (ReadAlike lag bound) (readDirective c) (readDirective c') := by
  obtain ⟨name, d, d', hname⟩ := (h.pass (by decide) hmark).takes isInner_isNameChar
  rw [readDirective_eq hname.here, readDirective_eq hname.there, hname.alike.peek?_eq,
    isSpaceOrEnd_map]
  split
  · exact .error _
  · refine Corresponds.bind (corresponds_directiveBody name hname.alike) ?_
    rintro ⟨_, e⟩ ⟨token, e'⟩ ⟨rfl, he⟩
    refine Corresponds.bind (corresponds_endOfLine he) ?_
    intro f f' hf
    exact .ok ⟨rfl, hf⟩

end RingTape.Yaml
