import RingTape.Proofs.Table.Quoting
import RingTape.Proofs.Table.Shorthand

/-!
# Lines of entries

Lines one below the other may differ in their keys only.  A loader for which such lines are entries
of a table finds the same around them whatever the keys are, and the value on the lines under each
of the keys.  Groups in the lines around them are put between quotes before the loader sees the
text.
-/

namespace RingTape

namespace Table

open Text Yaml

/-! ## Places -/

/-- A place for lines in a text: the lines around them, and what they have in common. -/
structure LinePlace where
  before : List (List Char)
  indent : List Char
  /-- What stands on each of the lines after the colon. -/
  rest : List Char
  after : List (List Char)
  before_oneLine : ∀ line ∈ before, '\n' ∉ line
  isBlank_indent : ∀ c ∈ indent, isBlank c = true
  indent_oneLine : '\n' ∉ indent
  rest_oneLine : '\n' ∉ rest
  after_oneLine : ∀ line ∈ after, '\n' ∉ line

theorem not_mem_quoteGroup
    {line : List Char} (h : '\n' ∉ line) :
    '\n' ∉ quoteGroup line := by
  intro hmem
  rcases mem_quoteGroup hmem with hquote | hmem
  · exact absurd hquote (by decide)
  · exact h hmem

namespace LinePlace

/-- The line with this key. -/
def line (p : LinePlace) (key : List Char) : List Char :=
  p.indent ++ (key ++ ':' :: p.rest)

/-- The text with lines for these keys. -/
def text (p : LinePlace) (keys : List (List Char)) : List Char :=
  joinWith ['\n'] (p.before ++ keys.map p.line ++ p.after)

/-- The place where the groups in the lines around it are between quotes. -/
def quoted (p : LinePlace) : LinePlace :=
  { p with
    before := p.before.map quoteGroup
    after := p.after.map quoteGroup
    before_oneLine :=
      List.forall_mem_map.mpr fun line hline => not_mem_quoteGroup (p.before_oneLine line hline)
    after_oneLine :=
      List.forall_mem_map.mpr fun line hline => not_mem_quoteGroup (p.after_oneLine line hline) }

theorem quoted_eq_self
    {p : LinePlace} (h : ∀ line ∈ p.before ++ p.after, ¬IsGroupLine line) :
    p.quoted = p := by
  have hsame {lines : List (List Char)} (hlines : ∀ line ∈ lines, ¬IsGroupLine line) :
      lines.map quoteGroup = lines :=
    (List.map_congr_left fun line hline => quoteGroup_of_not_isGroupLine (hlines line hline)).trans
      (List.map_id lines)
  rw [List.forall_mem_append] at h
  obtain ⟨before, indent, rest, after, _, _, _, _, _⟩ := p
  simp only [quoted, hsame h.1, hsame h.2]

theorem not_mem_line
    {p : LinePlace} {key : List Char} (h : '\n' ∉ key) :
    '\n' ∉ p.line key := by
  simp [line, p.indent_oneLine, h, p.rest_oneLine]

/-- Where the line of each key becomes the line of another key, the text becomes the text with the
lines of these keys. -/
theorem quoteGroups_text
    {p : LinePlace} {keys keys' : List (List Char)} (hne : keys ≠ [])
    (hkeys : ∀ key ∈ keys, '\n' ∉ key)
    (h : List.Forall₂ (fun key key' => quoteGroup (p.line key) = p.line key') keys keys') :
    quoteGroups (p.text keys) = p.quoted.text keys' := by
  have hlines : ∀ line ∈ p.before ++ keys.map p.line ++ p.after, '\n' ∉ line := by
    rw [List.forall_mem_append, List.forall_mem_append, List.forall_mem_map]
    exact ⟨⟨p.before_oneLine, fun key hkey => not_mem_line (hkeys key hkey)⟩, p.after_oneLine⟩
  have hsome : p.before ++ keys.map p.line ++ p.after ≠ [] := by simp [hne]
  have hmap : (keys.map p.line).map quoteGroup = keys'.map p.line := by
    rw [List.map_map]
    exact map_eq_map_of_forall₂ h
  change joinWith ['\n'] ((feedLines (p.text keys)).map quoteGroup) = _
  rw [text, feedLines, splitWhere_joinWith hsome hlines, List.map_append, List.map_append, hmap]
  rfl

end LinePlace

/-! ## What a loader makes of the lines -/

/-- A key as it is written, and as it is read. -/
structure ReadKey where
  text : List Char
  datum : Datum

/-- The lines at a place are entries of a table.  Whichever of the known keys they have, the loader
finds them in the table, with the same value and with the same around them; or it finds a fault,
whichever keys they have. -/
structure Enters (loader : Loader) (p : LinePlace) (known : List ReadKey)
    (found : Option (Frame × Datum)) : Prop where
  isTree : ∀ f value, found = some (f, value) → f.IsTree ∧ value.isTree = true
  loads : ∀ keys : List ReadKey, keys ≠ [] → keys ⊆ known →
    Datum.unlabeled <$> (loader (p.text (keys.map (·.text)))).toOption =
      found.map fun (f, value) => f.document (keys.map fun key => (key.datum, value))

/-- What is imported of the lines at a place. -/
theorem toOption_parse_of_enters
    {loader : Loader} {p : LinePlace} {known : List ReadKey} {found : Option (Frame × Datum)}
    (hfound : Enters loader p.quoted known found) {keys : List ReadKey} (hne : keys ≠ [])
    (hknown : keys ⊆ known) {written : List (List Char)}
    (hwritten : quoteGroups (p.text written) = p.quoted.text (keys.map (·.text))) (size : Datum) :
    (parse loader size (p.text written)).toOption =
      (RingTape.tapeSize size).toOption.bind fun n =>
        found.bind fun (f, value) =>
          (ofDatum n (f.document (keys.map fun key => (key.datum, value)))).toOption := by
  have hloads := hfound.loads keys hne hknown
  rw [parse, hwritten]
  cases hsize : RingTape.tapeSize size with
  | error fault => rfl
  | ok n =>
      cases hdocument : loader (p.quoted.text (keys.map (·.text))) with
      | error fault =>
          rw [hdocument] at hloads
          obtain rfl : found = none := Option.map_eq_none_iff.mp hloads.symm
          rfl
      | ok document =>
          rw [hdocument] at hloads
          obtain ⟨⟨f, value⟩, rfl, hf⟩ := Option.map_eq_some_iff.mp hloads.symm
          obtain ⟨htree, hvalue⟩ := hfound.isTree f value rfl
          have htrees : document.isTree = true := by
            rw [← Datum.isTree_unlabeled, ← hf]
            exact Frame.isTree_document htree hvalue (by simp)
          change (ofDatum n document).toOption = (ofDatum n (f.document _)).toOption
          rw [← ofDatum_unlabeled htrees, ← hf]

end Table

end RingTape
