import RingTape.Launch.Load
import RingTape.Proofs.Checked
import RingTape.Proofs.Table.Quoting
import RingTape.Proofs.Text.Utf8
import RingTape.Proofs.Yaml.LineEnds.Lexer
import RingTape.Yaml.Value

/-!
# Tables in files

The line ends of a file are unified before its table is read, and those of a text are left as they
are.  A document is the same either way.  The groups are not: they are looked for at the starts of
lines before there is a document, and there a carriage return is a blank like others unless a line
feed follows it.

So a text is first compared with itself where groups are looked for after carriage returns too.
This is what unifying its line ends comes to, and it makes no difference to a text in which no
carriage return stands alone before a group, within one, or between one and its colon.
-/

namespace RingTape

namespace Table

open Text Yaml

/-! ## Groups after carriage returns -/

/-- A text with the group of each of its lines between double quotes, where lines end at carriage
returns too. -/
def quoteAllGroups (text : List Char) : List Char :=
  mapPieces '\n' (mapPieces '\r' quoteGroup) text

/-- A text in which no line ends. -/
def IsOneLine (word : List Char) : Prop :=
  '\n' ∉ word ∧ '\r' ∉ word

theorem isOneLine_quoteGroup
    {word : List Char} (h : IsOneLine word) :
    IsOneLine (quoteGroup word) := by
  constructor
  · intro hmem
    rcases mem_quoteGroup hmem with hquote | hmem
    · exact absurd hquote (by decide)
    · exact h.1 hmem
  · intro hmem
    rcases mem_quoteGroup hmem with hquote | hmem
    · exact absurd hquote (by decide)
    · exact h.2 hmem

theorem quoteAllGroups_of_isOneLine
    {word : List Char} (h : IsOneLine word) :
    quoteAllGroups word = quoteGroup word := by
  rw [quoteAllGroups, mapPieces_of_not_mem h.1, mapPieces_of_not_mem h.2]

theorem quoteAllGroups_feed
    {word : List Char} (h : IsOneLine word) (rest : List Char) :
    quoteAllGroups (word ++ '\n' :: rest) = quoteGroup word ++ '\n' :: quoteAllGroups rest := by
  rw [quoteAllGroups, mapPieces_append_cons h.1, mapPieces_of_not_mem h.2, quoteAllGroups]

theorem quoteAllGroups_return
    {word : List Char} (h : IsOneLine word) (rest : List Char) :
    quoteAllGroups (word ++ '\r' :: rest) = quoteGroup word ++ '\r' :: quoteAllGroups rest := by
  have hstart {more : List Char} (hmore : '\n' ∉ more) : '\n' ∉ word ++ '\r' :: more := by
    simp [h.1, hmore]
  by_cases hrest : '\n' ∈ rest
  · obtain ⟨line, others, rfl, hline⟩ := List.eq_append_cons_of_mem hrest
    have hsplit : word ++ '\r' :: (line ++ '\n' :: others) =
        word ++ '\r' :: line ++ '\n' :: others := by
      simp
    rw [hsplit, quoteAllGroups, mapPieces_append_cons (hstart hline), mapPieces_append_cons h.2,
      quoteAllGroups, mapPieces_append_cons hline, List.append_assoc, List.cons_append]
  · rw [quoteAllGroups, mapPieces_of_not_mem (hstart hrest), mapPieces_append_cons h.2,
      quoteAllGroups, mapPieces_of_not_mem hrest]

theorem quoteGroups_feed
    {word : List Char} (h : IsOneLine word) (rest : List Char) :
    quoteGroups (word ++ '\n' :: rest) = quoteGroup word ++ '\n' :: quoteGroups rest :=
  mapPieces_append_cons h.1 rest

/-- A text is one line, or a line ends in it. -/
theorem isOneLine_or_exists
    (text : List Char) :
    IsOneLine text ∨ ∃ word rest, IsOneLine word ∧
      (text = word ++ '\n' :: rest ∨ text = word ++ '\r' :: rest) := by
  induction text with
  | nil => exact .inl ⟨List.not_mem_nil, List.not_mem_nil⟩
  | cons x text ih =>
      by_cases hfeed : x = '\n'
      · exact .inr ⟨[], text, ⟨List.not_mem_nil, List.not_mem_nil⟩, .inl (by rw [hfeed]; rfl)⟩
      · by_cases hreturn : x = '\r'
        · exact .inr ⟨[], text, ⟨List.not_mem_nil, List.not_mem_nil⟩, .inr (by rw [hreturn]; rfl)⟩
        · have hcons {word : List Char} (hword : IsOneLine word) : IsOneLine (x :: word) :=
            ⟨List.not_mem_cons_of_ne_of_not_mem (Ne.symm hfeed) hword.1,
              List.not_mem_cons_of_ne_of_not_mem (Ne.symm hreturn) hword.2⟩
          rcases ih with hall | ⟨word, rest, hword, hends⟩
          · exact .inl (hcons hall)
          · right
            refine ⟨x :: word, rest, hcons hword, ?_⟩
            rcases hends with rfl | rfl
            · exact .inl rfl
            · exact .inr rfl

theorem IsOneLine.head?_append_ne
    {word more : List Char} (h : IsOneLine word) (hmore : word = [] → more.head? ≠ some '\n') :
    (word ++ more).head? ≠ some '\n' := by
  cases word with
  | nil => exact hmore rfl
  | cons x word =>
      intro hhead
      exact h.1 (List.mem_of_mem_head? hhead)

theorem head?_quoteAllGroups_ne
    {text : List Char} (h : text.head? ≠ some '\n') :
    (quoteAllGroups text).head? ≠ some '\n' := by
  rcases isOneLine_or_exists text with hall | ⟨word, rest, hword, rfl | rfl⟩
  · rw [quoteAllGroups_of_isOneLine hall, ← List.append_nil (quoteGroup text)]
    exact (isOneLine_quoteGroup hall).head?_append_ne fun _ => nofun
  · rw [quoteAllGroups_feed hword]
    apply (isOneLine_quoteGroup hword).head?_append_ne
    intro hnil
    rw [eq_nil_of_quoteGroup_eq_nil hnil] at h
    exact absurd rfl h
  · rw [quoteAllGroups_return hword]
    exact (isOneLine_quoteGroup hword).head?_append_ne fun _ => by simp

/-- Where the line ends are unified, the groups after carriage returns are found. -/
theorem unifyLineEnds_quoteAllGroups
    (text : List Char) :
    unifyLineEnds (quoteAllGroups text) = quoteGroups (unifyLineEnds text) := by
  rcases isOneLine_or_exists text with hall | ⟨word, rest, hword, rfl | rfl⟩
  · have hunified : unifyLineEnds text = text := by
      simpa [unifyLineEnds] using unifyLineEnds_append hall.2 []
    have hquoted : unifyLineEnds (quoteGroup text) = quoteGroup text := by
      simpa [unifyLineEnds] using unifyLineEnds_append (isOneLine_quoteGroup hall).2 []
    rw [quoteAllGroups_of_isOneLine hall, hquoted, hunified]
    exact (mapPieces_of_not_mem hall.1).symm
  · have hfeed (more : List Char) : unifyLineEnds ('\n' :: more) = '\n' :: unifyLineEnds more :=
      unifyLineEnds_of_ne_return (by decide) more
    rw [quoteAllGroups_feed hword, unifyLineEnds_append (isOneLine_quoteGroup hword).2,
      unifyLineEnds_append hword.2, hfeed, hfeed, quoteGroups_feed hword,
      unifyLineEnds_quoteAllGroups rest]
  · rw [quoteAllGroups_return hword, unifyLineEnds_append (isOneLine_quoteGroup hword).2,
      unifyLineEnds_append hword.2]
    by_cases hpair : rest.head? = some '\n'
    · -- between the two there is an empty line until they are unified
      obtain ⟨more, rfl⟩ := List.head?_eq_some_iff.mp hpair
      have hfeed : quoteAllGroups ('\n' :: more) = '\n' :: quoteAllGroups more :=
        quoteAllGroups_feed ⟨List.not_mem_nil, List.not_mem_nil⟩ more
      rw [hfeed, unifyLineEnds_pair, unifyLineEnds_pair, quoteGroups_feed hword,
        unifyLineEnds_quoteAllGroups more]
    · rw [unifyLineEnds_of_single fun _ => hpair,
        unifyLineEnds_of_single fun _ => head?_quoteAllGroups_ne hpair,
        unifyLineEnds_quoteAllGroups rest]
      exact (quoteGroups_feed hword _).symm
termination_by text.length

/-! ## Texts whose groups stay the same -/

/-- Cut at its carriage returns, a line starts with a group in its first piece that is not blank or
not at all, and no other piece starts with one. -/
def GroupsWithin (line : List Char) : Prop :=
  match (splitWhere (· == '\r') line).dropWhile (·.all isBlank) with
  | [] => True
  | piece :: later => (IsGroupLine line → IsGroupLine piece) ∧ ∀ other ∈ later, ¬IsGroupLine other

instance (line : List Char) : Decidable (GroupsWithin line) := by
  unfold GroupsWithin
  split <;> infer_instance

theorem joinWith_map_quoteGroup_cons
    {piece : List Char} {later : List (List Char)}
    (hpiece : IsGroupLine (joinWith ['\r'] (piece :: later)) → IsGroupLine piece)
    (hlater : ∀ other ∈ later, ¬IsGroupLine other) :
    joinWith ['\r'] ((piece :: later).map quoteGroup) =
      quoteGroup (joinWith ['\r'] (piece :: later)) := by
  have hsame : later.map quoteGroup = later := by
    conv_rhs => rw [← List.map_id later]
    apply List.map_congr_left
    exact fun other hother => quoteGroup_of_not_isGroupLine (hlater other hother)
  obtain ⟨more, hmore⟩ : ∃ more, ∀ first, joinWith ['\r'] (first :: later) = first ++ more := by
    cases later with
    | nil => exact ⟨[], fun first => (List.append_nil first).symm⟩
    | cons next others => exact ⟨_, fun first => List.append_assoc first _ _⟩
  rw [List.map_cons, hsame, hmore, hmore]
  rw [hmore] at hpiece
  by_cases hgroup : IsGroupLine piece
  · exact (quoteGroup_append hgroup more).symm
  · rw [quoteGroup_of_not_isGroupLine hgroup, quoteGroup_of_not_isGroupLine (mt hpiece hgroup)]

/-- Blank pieces before the first one that is not blank make no difference. -/
theorem joinWith_map_quoteGroup
    {pieces : List (List Char)}
    (h : ∀ piece later, pieces.dropWhile (·.all isBlank) = piece :: later →
      (IsGroupLine (joinWith ['\r'] pieces) → IsGroupLine piece) ∧
        ∀ other ∈ later, ¬IsGroupLine other) :
    joinWith ['\r'] (pieces.map quoteGroup) = quoteGroup (joinWith ['\r'] pieces) := by
  induction pieces with
  | nil => rfl
  | cons first rest ih =>
      by_cases hblank : first.all isBlank = true
      · have hfirst : ∀ c ∈ first, isBlank c = true := List.all_eq_true.mp hblank
        have hsame : quoteGroup first = first :=
          quoteGroup_of_not_isGroupLine (not_isGroupLine_of_blank hfirst)
        have hdrop : (first :: rest).dropWhile (·.all isBlank) = rest.dropWhile (·.all isBlank) :=
          List.dropWhile_cons_of_pos hblank
        rw [hdrop] at h
        cases rest with
        | nil => rfl
        | cons next others =>
            -- the piece and its carriage return are blanks before the rest of the line
            have hblanks : ∀ c ∈ first ++ ['\r'], isBlank c = true :=
              List.forall_mem_append.mpr ⟨hfirst, List.forall_mem_singleton.mpr (by decide)⟩
            have hjoin : joinWith ['\r'] (first :: next :: others) =
                (first ++ ['\r']) ++ joinWith ['\r'] (next :: others) := rfl
            rw [hjoin, isGroupLine_blank_append hblanks] at h
            rw [hjoin, quoteGroup_blank_append hblanks, ← ih h, List.map_cons, hsame]
            rfl
      · obtain ⟨hpiece, hlater⟩ := h first rest (List.dropWhile_cons_of_neg hblank)
        exact joinWith_map_quoteGroup_cons hpiece hlater

theorem mapPieces_quoteGroup
    {line : List Char} (h : GroupsWithin line) :
    mapPieces '\r' quoteGroup line = quoteGroup line := by
  rw [mapPieces]
  conv_rhs => rw [← joinWith_splitWhere '\r' line]
  apply joinWith_map_quoteGroup
  intro piece later hpieces
  rw [GroupsWithin, hpieces] at h
  rwa [joinWith_splitWhere]

theorem quoteAllGroups_eq
    {text : List Char} (h : ∀ line ∈ splitWhere (· == '\n') text, GroupsWithin line) :
    quoteAllGroups text = quoteGroups text := by
  apply congrArg (joinWith ['\n'])
  exact List.map_congr_left fun line hline => mapPieces_quoteGroup (h line hline)

/-! ## Reading -/

/-- A loader makes no difference between the line ends of a text. -/
def IgnoresLineEnds (loader : Loader) : Prop :=
  ∀ text, loader (unifyLineEnds text) = loader text

theorem ignoresLineEnds_load :
    IgnoresLineEnds load := by
  intro text
  rw [load, load, tokens_unifyLineEnds]

theorem parse_unifyLineEnds
    {loader : Loader} (hloader : IgnoresLineEnds loader) (size : Datum) {text : List Char}
    (h : ∀ line ∈ splitWhere (· == '\n') text, GroupsWithin line) :
    parse loader size (unifyLineEnds text) = parse loader size text := by
  rw [parse, parse, ← unifyLineEnds_quoteAllGroups, hloader, quoteAllGroups_eq h]

theorem ofFile_of_decodeFile
    {bytes : List UInt8} {text : List Char} (h : decodeFile bytes = .ok (unifyLineEnds text))
    (loader : Loader) (size : Datum) :
    ofFile loader size bytes = (parse loader size (unifyLineEnds text)).mapError .table := by
  rw [ofFile, h]
  rfl

/-- A byte order mark makes no difference to a file, whose lines are read as if all of them ended
with line feeds.  If the loader ignores line ends, the file of a text is read as the text is, with
the same ruleset or the same fault, unless a carriage return alone stands before a group, within
one, or between one and its colon. -/
theorem ofFile_eq_parse
    (loader : Loader) (size : Datum) {text : List Char} (hmark : text.head? ≠ some '\uFEFF') :
    ofFile loader size (Text.byteOrderMark ++ encodeUtf8 text) =
        ofFile loader size (encodeUtf8 text) ∧
      ofFile loader size (encodeUtf8 text) =
        (parse loader size (unifyLineEnds text)).mapError .table ∧
      (IgnoresLineEnds loader → (∀ line ∈ splitWhere (· == '\n') text, GroupsWithin line) →
        ofFile loader size (encodeUtf8 text) = (parse loader size text).mapError .table) := by
  have hplain := ofFile_of_decodeFile (decodeFile_encodeUtf8 hmark) loader size
  have hmarked := ofFile_of_decodeFile (decodeFile_byteOrderMark_append text) loader size
  refine ⟨hmarked.trans hplain.symm, hplain, ?_⟩
  intro hloader hgroups
  rw [hplain, parse_unifyLineEnds hloader size hgroups]

/-- Lines that end in all three ways, and a group after a carriage return and a line feed. -/
theorem ofFile_eq_parse_of_mixed_ends :
    let text := "table:\r  a:\r\n    [0,1]: R\n    2: L\r\n".toList
    ∃ r, parse load (.int 3) text = .ok r ∧ ofFile load (.int 3) (encodeUtf8 text) = .ok r ∧
      ofFile load (.int 3) (Text.byteOrderMark ++ encodeUtf8 text) = .ok r := by
  intro text
  have hgroups : ∀ line ∈ splitWhere (· == '\n') text, GroupsWithin line := by decide +kernel
  have hmark : text.head? ≠ some '\uFEFF' := by decide
  obtain ⟨hmarked, -, hplain⟩ := ofFile_eq_parse load (.int 3) hmark
  have hfile := hplain ignoresLineEnds_load hgroups
  have haccepted : (parse load (.int 3) text).toOption.isSome = true := by decide +kernel
  obtain ⟨r, hr⟩ := Option.isSome_iff_exists.mp haccepted
  rw [toOption_eq_some_iff.mp hr] at hfile
  exact ⟨r, toOption_eq_some_iff.mp hr, hfile, hmarked.trans hfile⟩

/-- Carriage returns alone hide a group from the text, and not from the file. -/
theorem exists_ofFile_ne_parse :
    let text := "table:\r  a:\r    [0,1]: R\r".toList
    ∃ r, parse load (.int 3) text = .error (.document .malformed) ∧
      ofFile load (.int 3) (encodeUtf8 text) = .ok r ∧
      ofFile load (.int 3) (Text.byteOrderMark ++ encodeUtf8 text) = .ok r := by
  intro text
  have hsize : RingTape.tapeSize (.int 3) = .ok 3 := rfl
  have hrefused : parse load (.int 3) text = .error (.document .malformed) := by
    have hload : (match load (quoteGroups text) with
      | .error .malformed => true
      | _ => false) = true := by decide +kernel
    rw [parse, hsize]
    split at hload
    · next hmalformed => rw [hmalformed]
    · cases hload
  have haccepted : (parse load (.int 3) (unifyLineEnds text)).toOption.isSome = true := by
    decide +kernel
  obtain ⟨r, hr⟩ := Option.isSome_iff_exists.mp haccepted
  have hfile {bytes : List UInt8} (hbytes : decodeFile bytes = .ok (unifyLineEnds text)) :
      ofFile load (.int 3) bytes = .ok r := by
    rw [ofFile_of_decodeFile hbytes, toOption_eq_some_iff.mp hr]
    rfl
  exact ⟨r, hrefused, hfile (decodeFile_encodeUtf8 (by decide)),
    hfile (decodeFile_byteOrderMark_append text)⟩

end Table

end RingTape
