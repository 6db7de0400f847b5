import RingTape.Proofs.Table.EntryLines
import RingTape.Proofs.Yaml.Document

/-!
# Entries in block style

In a document in block style the lines of a state are entries of its mapping, for the loader of the
program.  So is a group between double quotes, and so are its symbols on lines of their own, each as
the scalar that it is resolved to.
-/

namespace RingTape

namespace Table

open Text Yaml

/-! ## Tables in writing -/

/-- A value on the line of its key, and the end of the line. -/
structure LineEnd where
  value : Inline
  tail : Pad

/-- A value and an end of a line that can be read. -/
@[mk_iff] structure LineEnd.Legible (e : LineEnd) : Prop where
  value : e.value.Legible
  tail : e.tail.Legible
  apart : e.tail.Apart

instance (e : LineEnd) : Decidable e.Legible :=
  decidable_of_iff' _ (LineEnd.legible_iff e)

/-- A table in writing with a gap among the entries of one of its states. -/
structure TextFrame where
  /-- The lines before the table, and those after it. -/
  fields : Block × Block
  table : Heading
  /-- The lines of the table before the state, and those after it. -/
  states : Block × Block
  state : Heading
  /-- The lines of the state before the gap, and those after it. -/
  entries : Block × Block
  /-- Lines without an entry right before the gap. -/
  above : List Pad
  /-- Lines without an entry at the end of the text. -/
  pads : List Pad

/-- A heading that can be read in the given column. -/
@[mk_iff] structure HeadingLegible (column : Nat) (h : Heading) : Prop where
  pads : ∀ p ∈ h.pads, p.Legible
  key : h.key.IsKey column
  tail : h.tail.Legible
  apart : h.tail.Apart
  deeper : column < h.column

instance (column : Nat) (h : Heading) : Decidable (HeadingLegible column h) :=
  decidable_of_iff' _ (headingLegible_iff column h)

namespace TextFrame

/-- The lines of the table with lines for these keys in the gap. -/
def block (t : TextFrame) (e : LineEnd) (keys : List Written) : Block :=
  t.table.block t.fields (t.state.block t.states
    (t.entries.1.append ((Block.lines t.above e.value e.tail keys).append t.entries.2)))

/-- The text of the table with lines for these keys in the gap. -/
def text (t : TextFrame) (e : LineEnd) (keys : List Written) : List Char :=
  (t.block e keys).chars 0 ++ Pad.charsOf t.pads

/-- A table that can be read, but for the gap. -/
structure Legible (t : TextFrame) : Prop where
  fields : t.fields.1.Legible 0 ∧ t.fields.2.Legible 0
  table : HeadingLegible 0 t.table
  isTable : t.table.key.leaf.key = .ok (.text "table")
  states : t.states.1.Legible t.table.column ∧
    t.states.2.Legible t.table.column
  state : HeadingLegible t.table.column t.state
  entries : t.entries.1.Legible t.state.column ∧
    t.entries.2.Legible t.state.column
  above : ∀ p ∈ t.above, p.Legible
  pads : ∀ p ∈ t.pads, p.Legible

end TextFrame

theorem legible_append
    {a b : Block} {column : Nat} (ha : a.Legible column) (hb : b.Legible column) :
    (a.append b).Legible column := by
  induction a with
  | nil => exact hb
  | row pads key value tail more ih =>
      exact ⟨ha.1, ha.2.1, ha.2.2.1, ha.2.2.2.1, ih ha.2.2.2.2⟩
  | nest pads key tail inside inner more _ ih =>
      exact ⟨ha.1, ha.2.1, ha.2.2.1, ha.2.2.2.1, ih ha.2.2.2.2⟩

theorem isNil_append
    (a b : Block) :
    (a.append b).isNil = (a.isNil && b.isNil) := by
  cases a <;> rfl

theorem isNil_heading
    (h : Heading) (around : Block × Block) (inner : Block) :
    (h.block around inner).isNil = false :=
  (isNil_append around.1 _).trans (Bool.and_false _)

theorem HeadingLegible.block
    {h : Heading} {column : Nat} (hh : HeadingLegible column h) {around : Block × Block}
    (haround : around.1.Legible column ∧ around.2.Legible column) {inner : Block}
    (hinner : inner.Legible h.column) (hnil : inner.isNil = false) :
    (h.block around inner).Legible column :=
  legible_append haround.1
    ⟨hh.pads, hh.key, ⟨hh.tail, hh.apart⟩, ⟨hh.deeper, hnil, hinner⟩, haround.2⟩

theorem legible_lines
    {pads : List Pad} (hpads : ∀ p ∈ pads, p.Legible) {e : LineEnd} (he : e.Legible) {column : Nat}
    {keys : List Written} (hkeys : ∀ key ∈ keys, key.IsKey column) :
    (Block.lines pads e.value e.tail keys).Legible column := by
  induction keys generalizing pads with
  | nil => trivial
  | cons key keys ih =>
      rw [List.forall_mem_cons] at hkeys
      exact ⟨hpads, hkeys.1, he.value, ⟨he.tail, he.apart⟩, ih nofun hkeys.2⟩

theorem TextFrame.Legible.block
    {t : TextFrame} (ht : t.Legible) {e : LineEnd} (he : e.Legible) {keys : List Written}
    (hne : keys ≠ []) (hkeys : ∀ key ∈ keys, key.IsKey t.state.column) :
    (t.block e keys).Legible 0 := by
  let lines : Block := Block.lines t.above e.value e.tail keys
  have hlines : (t.entries.1.append (lines.append t.entries.2)).Legible t.state.column :=
    legible_append ht.entries.1 (legible_append (legible_lines ht.above he hkeys) ht.entries.2)
  have hsome : (t.entries.1.append (lines.append t.entries.2)).isNil = false := by
    obtain ⟨key, rest, rfl⟩ := List.exists_cons_of_ne_nil hne
    rw [isNil_append, isNil_append]
    exact Bool.and_false _
  exact ht.table.block ht.fields (ht.state.block ht.states hlines hsome) (isNil_heading _ _ _)

/-! ## Their lines -/

/-- The end of a line, without the line feed. -/
def remark (p : Pad) : List Char :=
  spaces p.width ++ p.comment.elim [] ('#' :: ·)

theorem chars_eq_remark
    (p : Pad) :
    p.chars = remark p ++ ['\n'] := by
  rw [Pad.chars, remark, List.append_assoc]

theorem isInline_remark
    {p : Pad} (hp : p.Legible) :
    IsInline (remark p) := by
  refine isInline_append.mpr ⟨isInline_spaces _, ?_⟩
  cases hcomment : p.comment with
  | none => nofun
  | some comment => exact isInline_cons.mpr ⟨by decide, hp comment hcomment⟩

theorem not_mem_of_isInline
    {line : List Char} (h : IsInline line) :
    '\n' ∉ line :=
  fun hmem => absurd (h '\n' hmem) (by decide)

theorem chars_append
    (a b : Block) (column : Nat) :
    (a.append b).chars column = a.chars column ++ b.chars column := by
  induction a with
  | nil => rfl
  | row pads key value tail more ih => simp [Block.append, Block.chars, ih]
  | nest pads key tail inside inner more _ ih => simp [Block.append, Block.chars, ih]

/-- A text of whole lines. -/
def EndsLine (text : List Char) : Prop :=
  text = [] ∨ ∃ start, text = start ++ ['\n']

theorem EndsLine.append
    {text more : List Char} (h : EndsLine text) (hmore : EndsLine more) :
    EndsLine (text ++ more) := by
  rcases hmore with rfl | ⟨start, rfl⟩
  · rwa [List.append_nil]
  · exact .inr ⟨text ++ start, (List.append_assoc _ _ _).symm⟩

theorem endsLine_charsOf
    (pads : List Pad) :
    EndsLine (Pad.charsOf pads) := by
  induction pads with
  | nil => exact .inl rfl
  | cons p pads ih =>
      rw [Pad.charsOf_cons, chars_eq_remark]
      exact EndsLine.append (.inr ⟨_, rfl⟩) ih

theorem EndsLine.line
    {text : List Char} (h : EndsLine text) (start : List Char) (p : Pad) :
    EndsLine (start ++ (p.chars ++ text)) := by
  have hline : EndsLine (start ++ p.chars) := by
    rw [chars_eq_remark]
    exact .inr ⟨start ++ remark p, (List.append_assoc _ _ _).symm⟩
  rw [← List.append_assoc]
  exact hline.append h

theorem endsLine_chars
    (b : Block) (column : Nat) :
    EndsLine (b.chars column) := by
  induction b generalizing column with
  | nil => exact .inl rfl
  | row pads key value tail more ih =>
      have hline := (ih column).line (spaces column ++ (key.chars ++ ':' :: value.chars)) tail
      simpa [Block.chars] using (endsLine_charsOf pads).append hline
  | nest pads key tail inside inner more ihinner ihmore =>
      have hline := ((ihinner inside).append (ihmore column)).line
        (spaces column ++ (key.chars ++ [':'])) tail
      simpa [Block.chars] using (endsLine_charsOf pads).append hline

/-- The lines of a text of whole lines. -/
def wholeLines (text : List Char) : List (List Char) :=
  (feedLines text).dropLast

theorem not_mem_feedLines
    {text line : List Char} (h : line ∈ feedLines text) :
    '\n' ∉ line :=
  fun hmem => absurd (not_of_mem_splitWhere h '\n' hmem).1 (by decide)

/-- Whole lines before other lines are the text of these lines. -/
theorem joinWith_wholeLines
    {text : List Char} (h : EndsLine text) {more : List (List Char)} (hmore : more ≠ []) :
    joinWith ['\n'] (wholeLines text ++ more) = text ++ joinWith ['\n'] more := by
  rcases h with rfl | ⟨start, rfl⟩
  · rfl
  · have hsome : feedLines start ≠ [] := splitWhere_ne_nil _ start
    have hstart : joinWith ['\n'] (feedLines start) = start := joinWith_splitWhere '\n' start
    have hpieces : ∀ line ∈ feedLines start ++ [[]], '\n' ∉ line :=
      List.forall_mem_append.mpr
        ⟨fun line hline => not_mem_feedLines hline, List.forall_mem_singleton.mpr List.not_mem_nil⟩
    have hjoined : joinWith ['\n'] (feedLines start ++ [[]]) = start ++ ['\n'] := by
      rw [joinWith_append hsome (List.cons_ne_nil _ _), hstart, joinWith, List.append_nil]
    have hlines : feedLines (start ++ ['\n']) = feedLines start ++ [[]] := by
      rw [← hjoined]
      exact splitWhere_joinWith (by simp) hpieces
    rw [wholeLines, hlines, List.dropLast_concat, joinWith_append hsome hmore, hstart]

/-! ## The place of the gap -/

/-- What stands on a line after the colon. -/
def LineEnd.rest (e : LineEnd) : List Char :=
  e.value.chars ++ remark e.tail

/-- The line of a key in the given column. -/
def keyLine (column : Nat) (e : LineEnd) (key : Written) : List Char :=
  spaces column ++ (key.chars ++ ':' :: e.rest)

theorem chars_lines
    (pads : List Pad) (e : LineEnd) (column : Nat) {keys : List Written} (hne : keys ≠ []) :
    (Block.lines pads e.value e.tail keys).chars column =
      Pad.charsOf pads ++ keys.flatMap fun key => keyLine column e key ++ ['\n'] := by
  have hrest (others : List Written) :
      (Block.lines [] e.value e.tail others).chars column =
        others.flatMap fun key => keyLine column e key ++ ['\n'] := by
    induction others with
    | nil => rfl
    | cons key others ih =>
        rw [Block.lines, Block.chars, ih, List.flatMap_cons, chars_eq_remark]
        simp [Pad.charsOf, keyLine, LineEnd.rest]
  obtain ⟨key, others, rfl⟩ := List.exists_cons_of_ne_nil hne
  rw [Block.lines, Block.chars, hrest, List.flatMap_cons, chars_eq_remark]
  simp [keyLine, LineEnd.rest]

/-- Lines before other lines. -/
theorem joinWith_lines
    (lines : List (List Char)) {more : List (List Char)} (hmore : more ≠ []) :
    joinWith ['\n'] (lines ++ more) =
      lines.flatMap (· ++ ['\n']) ++ joinWith ['\n'] more := by
  induction lines with
  | nil => rfl
  | cons line lines ih =>
      have hsome : lines ++ more ≠ [] := by simp [hmore]
      calc
        joinWith ['\n'] ([line] ++ (lines ++ more)) =
            joinWith ['\n'] [line] ++ ['\n'] ++ joinWith ['\n'] (lines ++ more) :=
          joinWith_append (List.cons_ne_nil line []) hsome
        _ = (line :: lines).flatMap (· ++ ['\n']) ++ joinWith ['\n'] more := by
          rw [ih, joinWith, List.flatMap_cons, List.append_assoc (line ++ ['\n'])]

/-- The characters of a heading in the given column. -/
def Heading.chars (h : Heading) (column : Nat) : List Char :=
  Pad.charsOf h.pads ++ (spaces column ++ (h.key.chars ++ ':' :: h.tail.chars))

theorem chars_block
    (h : Heading) (around : Block × Block) (inner : Block) (column : Nat) :
    (h.block around inner).chars column =
      around.1.chars column ++
        (Heading.chars h column ++ (inner.chars h.column ++ around.2.chars column)) := by
  simp [Heading.block, Heading.chars, chars_append, Block.chars]

namespace TextFrame

/-- What stands before the gap. -/
def charsBefore (t : TextFrame) : List Char :=
  t.fields.1.chars 0 ++ (Heading.chars t.table 0 ++ (t.states.1.chars t.table.column ++
    (Heading.chars t.state t.table.column ++ (t.entries.1.chars t.state.column ++
      Pad.charsOf t.above))))

/-- What stands after the gap. -/
def charsAfter (t : TextFrame) : List Char :=
  t.entries.2.chars t.state.column ++ (t.states.2.chars t.table.column ++
    (t.fields.2.chars 0 ++ Pad.charsOf t.pads))

theorem endsLine_heading
    (h : Heading) (column : Nat) :
    EndsLine (Heading.chars h column) := by
  have hline := EndsLine.line (.inl rfl) (spaces column ++ (h.key.chars ++ [':'])) h.tail
  simpa [Heading.chars] using (endsLine_charsOf h.pads).append hline

theorem endsLine_charsBefore
    (t : TextFrame) :
    EndsLine t.charsBefore :=
  (endsLine_chars _ _).append ((endsLine_heading _ _).append ((endsLine_chars _ _).append
    ((endsLine_heading _ _).append ((endsLine_chars _ _).append (endsLine_charsOf _)))))

/-- The gap as a place for lines. -/
def place (t : TextFrame) (e : LineEnd) (he : e.Legible) : LinePlace where
  before := wholeLines t.charsBefore
  indent := spaces t.state.column
  rest := e.rest
  after := feedLines t.charsAfter
  before_oneLine := fun _ hline => not_mem_feedLines (List.dropLast_subset _ hline)
  isBlank_indent := fun c hc => by
    rw [List.eq_of_mem_replicate hc]
    decide
  indent_oneLine := not_mem_of_isInline (isInline_spaces _)
  rest_oneLine := not_mem_of_isInline
    (isInline_append.mpr ⟨isInline_inline he.value, isInline_remark he.tail⟩)
  after_oneLine := fun _ hline => not_mem_feedLines hline

theorem text_place
    (t : TextFrame) {e : LineEnd} (he : e.Legible) {keys : List Written} (hne : keys ≠ []) :
    (t.place e he).text (keys.map Written.chars) = t.text e keys := by
  have hafter : feedLines t.charsAfter ≠ [] := splitWhere_ne_nil _ t.charsAfter
  have hlines : (keys.map Written.chars).map (t.place e he).line =
      keys.map (keyLine t.state.column e) :=
    List.map_map
  have htext : t.text e keys = t.charsBefore ++
      ((keys.flatMap fun key => keyLine t.state.column e key ++ ['\n']) ++ t.charsAfter) := by
    simp [text, block, chars_block, chars_append, chars_lines _ _ _ hne, charsBefore, charsAfter]
  calc
    (t.place e he).text (keys.map Written.chars) =
        joinWith ['\n'] (wholeLines t.charsBefore ++
          (keys.map (keyLine t.state.column e) ++ feedLines t.charsAfter)) := by
      rw [LinePlace.text, hlines, List.append_assoc]
      rfl
    _ = t.charsBefore ++
        ((keys.map (keyLine t.state.column e)).flatMap (· ++ ['\n']) ++ t.charsAfter) := by
      rw [joinWith_wholeLines t.endsLine_charsBefore (by simp [hafter]), joinWith_lines _ hafter,
        feedLines, joinWith_splitWhere]
    _ = t.text e keys := by rw [htext, List.flatMap_map]

end TextFrame

/-! ## What is read -/

namespace TextFrame

/-- What is read of a table in writing around the gap, and on the lines in the gap after the
colon. -/
def found (t : TextFrame) (e : LineEnd) : Except Fault (Frame × Datum) := do
  let fieldsBefore ← t.fields.1.rows.written
  let statesBefore ← t.states.1.rows.written
  let state ← t.state.key.leaf.key
  let before ← t.entries.1.rows.written
  let value ← e.value.value
  let after ← t.entries.2.rows.written
  let statesAfter ← t.states.2.rows.written
  let fieldsAfter ← t.fields.2.rows.written
  let others := fun entry : Datum × Datum => (entry.1, Slot.fixed entry.2)
  return (⟨(fieldsBefore, fieldsAfter),
    statesBefore.map others ++ (state, .around before after) :: statesAfter.map others⟩, value)

theorem isTree_of_found
    {t : TextFrame} {e : LineEnd} {f : Frame} {value : Datum} (h : t.found e = .ok (f, value)) :
    f.IsTree ∧ value.isTree = true := by
  obtain ⟨fieldsBefore, hfieldsBefore, h⟩ := bind_eq_ok_iff.mp h
  obtain ⟨statesBefore, hstatesBefore, h⟩ := bind_eq_ok_iff.mp h
  obtain ⟨state, -, h⟩ := bind_eq_ok_iff.mp h
  obtain ⟨before, hbefore, h⟩ := bind_eq_ok_iff.mp h
  obtain ⟨value', hvalue, h⟩ := bind_eq_ok_iff.mp h
  obtain ⟨after, hafter, h⟩ := bind_eq_ok_iff.mp h
  obtain ⟨statesAfter, hstatesAfter, h⟩ := bind_eq_ok_iff.mp h
  obtain ⟨fieldsAfter, hfieldsAfter, h⟩ := bind_eq_ok_iff.mp h
  cases h
  refine ⟨⟨?fields, ?states⟩, isTree_of_value hvalue⟩
  case fields =>
    exact List.forall_mem_append.mpr
      ⟨isTree_of_mem_written hfieldsBefore, isTree_of_mem_written hfieldsAfter⟩
  case states =>
    rw [List.forall_mem_append, List.forall_mem_cons, List.forall_mem_map, List.forall_mem_map]
    refine ⟨isTree_of_mem_written hstatesBefore, ?_, isTree_of_mem_written hstatesAfter⟩
    exact List.forall_mem_append.mpr
      ⟨isTree_of_mem_written hbefore, isTree_of_mem_written hafter⟩

theorem written_heading
    (h : Heading) (around : Block × Block) (inner : Block) :
    (h.block around inner).rows.written = do
      let before ← around.1.rows.written
      let key ← h.key.leaf.key
      let inside ← inner.rows.written
      let after ← around.2.rows.written
      return before ++ (key, .mapping 0 (Datum.entriesOf inside)) :: after := by
  simp [Heading.block, Block.rows_append, Rows.written_append, Block.rows, Rows.written]

theorem value_block
    {t : TextFrame} (ht : t.Legible) (e : LineEnd) {keys : List Written} (hne : keys ≠ [])
    {data : List Datum} (hdata : List.Forall₂ (fun key d => key.leaf.key = .ok d) keys data) :
    (t.block e keys).rows.value =
      (fun found : Frame × Datum => found.1.document (data.map (·, found.2))) <$> t.found e := by
  have hlines : (Block.lines t.above e.value e.tail keys).rows.written =
      (fun d => data.map (·, d)) <$> e.value.value :=
    written_lines hne hdata t.above e.tail
  have htable : t.table.key.leaf.key = pure (.text "table") := ht.isTable
  simp [Rows.value, block, written_heading, Block.rows_append, Rows.written_append, hlines,
    htable, found, Frame.document, Frame.table, Slot.fill, Function.comp_def]

/-- A table in block style is one in which the loader enters the lines in the gap. -/
theorem enters_load
    {t : TextFrame} (ht : t.Legible) {e : LineEnd} (he : e.Legible) {known : List (Written × Datum)}
    (hknown : ∀ key ∈ known, key.1.IsKey t.state.column ∧ key.1.leaf.key = .ok key.2) :
    Enters load (t.place e he) (known.map fun key => ⟨key.1.chars, key.2⟩)
      (t.found e).toOption where
  isTree f value hfound := isTree_of_found (toOption_eq_some_iff.mp hfound)
  loads keys hne hkeys := by
    obtain ⟨chosen, hchosen, rfl⟩ := exists_map_eq_of_subset hkeys
    have hsome : chosen.map (·.1) ≠ [] := by simpa using hne
    have hdata : List.Forall₂ (fun key d => key.leaf.key = .ok d) (chosen.map (·.1))
        (chosen.map (·.2)) := by
      rw [List.forall₂_map_left_iff, List.forall₂_map_right_iff, List.forall₂_same]
      exact fun key hkey => (hknown key (hchosen hkey)).2
    have hlegible : (t.block e (chosen.map (·.1))).Legible 0 := by
      refine ht.block he hsome ?_
      rw [List.forall_mem_map]
      exact fun key hkey => (hknown key (hchosen hkey)).1
    have htext : (chosen.map fun key => ReadKey.mk key.1.chars key.2).map (·.text) =
        (chosen.map (·.1)).map Written.chars := by
      simp
    rw [htext, text_place t he hsome, text, load_block hlegible (isNil_heading _ _ _) ht.pads,
      value_block ht e hsome hdata]
    cases t.found e with
    | error fault => rfl
    | ok found =>
        change some (found.1.document ((chosen.map (·.2)).map (·, found.2))) =
          some (found.1.document ((chosen.map _).map _))
        rw [List.map_map, List.map_map]
        rfl

end TextFrame

end Table

end RingTape
