import RingTape.Proofs.Launch.Load
import RingTape.Proofs.Program.Line
import RingTape.Proofs.Table.RoundTrip
import RingTape.Proofs.Text.Lines
import RingTape.Proofs.Text.Utf8

/-!
# Program files

A file is read like the text that its bytes stand for.  The line ends of a file are unified before
it is cut into lines, and those of a text are not; the lines are the same.

A ruleset is saved as the bytes of its lines.  Reading them back is more than reading the lines,
since the lines must be found again: none of them may hold a break, and the first of them must not
begin with a byte order mark.
-/

namespace RingTape

open Text

/-! ## Files and texts -/

theorem Program.ofFile_of_decodeFile
    {bytes : List UInt8} {text : List Char} (h : decodeFile bytes = .ok (unifyLineEnds text))
    (size : Datum) :
    ofFile size bytes = (parseText size text).mapError .program := by
  rw [ofFile, h, parseText, ← lines_unifyLineEnds]
  rfl

/-- The file of a text is read as the text is, with the same ruleset or the same fault.  A byte
order mark makes no difference, but a text that begins with one needs another one before it. -/
theorem Program.ofFile_eq_parseText
    (size : Datum) (text : List Char) :
    ofFile size (byteOrderMark ++ encodeUtf8 text) = (parseText size text).mapError .program ∧
      (text.head? ≠ some '\uFEFF' →
        ofFile size (encodeUtf8 text) = (parseText size text).mapError .program) := by
  refine ⟨ofFile_of_decodeFile (decodeFile_byteOrderMark_append text) size, ?_⟩
  intro hmark
  exact ofFile_of_decodeFile (decodeFile_encodeUtf8 hmark) size

/-- Line ends of four kinds, and the fault of the fifth line. -/
theorem Program.ofFile_eq_parseText_of_mixed_ends :
    let text := "~s\r\n\r;\u2028\n#\r".toList
    let fault := ProgramFault.line 5 "#".toList .noTerminal
    parseText (.int 3) text = .error fault ∧
      ofFile (.int 3) (encodeUtf8 text) = .error (.program fault) ∧
      ofFile (.int 3) (byteOrderMark ++ encodeUtf8 text) = .error (.program fault) := by
  intro text fault
  have hparse : parseText (.int 3) text = .error fault := by rfl
  obtain ⟨hmarked, hplain⟩ := ofFile_eq_parseText (.int 3) text
  rw [hparse] at hmarked hplain
  exact ⟨hparse, hplain (by decide), hmarked⟩

/-! ## Printed lines -/

theorem Program.isUnbroken_body
    {line : List Char} (h : IsUnbroken line) :
    IsUnbroken (body line) := by
  intro c hc
  have hbefore : c ∈ beforeComment line.tail := (trim_isInfix _).subset hc
  have htail : c ∈ line.tail := (List.takeWhile_prefix _).subset hbefore
  exact h c (List.mem_of_mem_tail htail)

theorem Item.eq_body_of_saidBy
    {line : List Char} {name : String}
    (h : SaidBy line (.terminal name) ∨ SaidBy line (.initial name)) :
    Program.body line = name.toList := by
  rcases h with h | h
  all_goals
    cases h
    rw [String.toList_ofList]

theorem Item.isUnbroken_print
    {i : Item} (h : i.Printable)
    (hnames : ∀ name, i = .terminal name ∨ i = .initial name → IsUnbroken name.toList) :
    IsUnbroken i.print := by
  cases i with
  | remark => simp [IsUnbroken, print]
  | terminal name => exact isUnbroken_cons.mpr ⟨by decide, hnames name (.inl rfl)⟩
  | initial name => exact isUnbroken_cons.mpr ⟨by decide, hnames name (.inr rfl)⟩
  | filler symbols =>
      exact isUnbroken_cons.mpr ⟨by decide, isUnbroken_joinWith (isWord_of_mem_filler h)⟩
  | rule r => exact isUnbroken_joinWith (h.2.isWord_of_mem_pieces fun s hs => (h.1 s hs).1)

namespace Ruleset

/-- A ruleset, for a tape of the given size, that is not broken by its lines. -/
structure Storable (size : Datum) (r : Ruleset) : Prop where
  printable : r.Printable
  tapeSize : RingTape.tapeSize size = .ok r.tapeSize
  terminals : ∀ name ∈ r.terminalStates.named, IsUnbroken name.toList
  initial : ∀ name ∈ r.initialState, IsUnbroken name.toList

theorem Printable.ne_nil_of_mem_written
    {r : Ruleset} (h : r.Printable) :
    ∀ line ∈ r.written, line ≠ [] := by
  rw [written, List.forall_mem_map]
  intro i hi
  have hprintable := h.items i hi
  rcases mem_items.mp hi with ⟨_, _, rfl⟩ | ⟨_, _, rfl⟩ | ⟨_, _, rfl⟩ | ⟨rule, _, rfl⟩
  · exact List.cons_ne_nil _ _
  · exact List.cons_ne_nil _ _
  · exact List.cons_ne_nil _ _
  · have hwords := hprintable.2.isWord_of_mem_pieces fun s hs => (hprintable.1 s hs).1
    exact joinWith_ne_nil (by simp [Rule.pieces, Rule.names]) hwords

/-- The first line of a ruleset begins with the mark of its kind.  When it is the line of a rule,
the ruleset starts in no state, and the mark is that of the missing state of the rule. -/
theorem Printable.exists_written_eq_cons
    {r : Ruleset} (h : r.Printable) :
    ∃ mark ∈ ['~', '#', '@', '!'], ∃ text rest, r.written = (mark :: text) :: rest := by
  unfold written Ruleset.items
  cases hinitial : r.initialState with
  | some name => exact ⟨'~', by decide, _, _, rfl⟩
  | none =>
      cases r.terminalStates.named.toList with
      | cons name names => exact ⟨'#', by decide, _, _, rfl⟩
      | nil =>
          cases r.filler with
          | some symbols => exact ⟨'@', by decide, _, _, rfl⟩
          | none =>
              obtain ⟨rule, hrule, hcurrent⟩ := Option.map_eq_some_iff.mp (h.initial hinitial)
              obtain ⟨rules, hrules⟩ := List.head?_eq_some_iff.mp hrule
              obtain ⟨text, htext⟩ : ∃ text, rule.written = '!' :: text := by
                rw [Rule.written, Rule.pieces, Rule.names, hcurrent]
                exact ⟨_, rfl⟩
              refine ⟨'!', by decide, text, (rules.map Item.rule).map Item.print, ?_⟩
              rw [hrules, ← htext]
              rfl

namespace Storable

variable {size : Datum} {r : Ruleset}

theorem isUnbroken_of_mem_written
    (h : Storable size r) :
    ∀ line ∈ r.written, IsUnbroken line := by
  rw [written, List.forall_mem_map]
  intro i hi
  apply Item.isUnbroken_print (h.printable.items i hi)
  rintro name (rfl | rfl)
  · rcases mem_items.mp hi with ⟨_, _, heq⟩ | ⟨_, hname, heq⟩ | ⟨_, _, heq⟩ | ⟨_, _, heq⟩
    all_goals cases heq
    exact h.terminals name hname
  · rcases mem_items.mp hi with ⟨_, hname, heq⟩ | ⟨_, _, heq⟩ | ⟨_, _, heq⟩ | ⟨_, _, heq⟩
    all_goals cases heq
    exact h.initial name hname

/-- The text of a ruleset is not mistaken for a text after a byte order mark. -/
theorem head?_joinWith_written
    (h : Storable size r) :
    (joinWith ['\n'] r.written).head? ≠ some '\uFEFF' := by
  obtain ⟨mark, hmark, text, rest, hwritten⟩ := h.printable.exists_written_eq_cons
  rw [hwritten, head?_joinWith_cons (List.cons_ne_nil _ _), List.head?_cons]
  intro heq
  rw [Option.some.inj heq] at hmark
  exact absurd hmark (by decide)

/-- A ruleset without misleading rules is read back from the file of its lines. -/
theorem ofFile_written
    (h : Storable size r) (hmarks : ∀ rule ∈ r.rules, ¬ StartsWithMark rule.currentState) :
    Program.ofFile size (encodeUtf8 (joinWith ['\n'] r.written)) = .ok r := by
  have hdecode := decodeFile_encodeUtf8 h.head?_joinWith_written
  have hlines := lines_joinWith h.printable.ne_nil_of_mem_written h.isUnbroken_of_mem_written
  rw [Program.ofFile_of_decodeFile hdecode, Program.parseText, hlines,
    h.printable.parse_written h.tapeSize hmarks]
  rfl

end Storable

end Ruleset

/-! ## Saving and loading -/

/-- A ruleset that is read from lines without breaks has names without breaks. -/
theorem Program.storable_of_parse
    {size : Datum} {lines : List (List Char)} (hlines : ∀ line ∈ lines, IsUnbroken line)
    {r : Ruleset} (h : parse size lines = .ok r) :
    r.Storable size := by
  obtain ⟨hprintable, hsize⟩ := printable_of_parse h
  obtain ⟨n, found, -, hsays, hassemble⟩ := parse_eq_ok_iff.mp h
  obtain ⟨hstate, hrules, hterminals, -⟩ := assemble_eq_ok_iff.mp hassemble
  have hdropped : ∀ line ∈ lines, IsUnbroken (dropLineEnd line) := by
    intro line hline c hc
    exact hlines line hline c ((dropWhileEnd_isPrefix _ _).subset hc)
  refine ⟨hprintable, hsize, ?_, ?_⟩
  · intro name hname
    rw [hterminals, TerminalStates.ofNames, NameSet.mem_ofList] at hname
    obtain ⟨line, hline, hsaid⟩ := exists_of_mem_right hsays (mem_terminals.mp hname)
    have hbody := Item.eq_body_of_saidBy (.inl (Item.saidBy_of_ofLine hsaid))
    exact hbody ▸ isUnbroken_body (hdropped line hline)
  · intro name hname
    rw [hname, initialState?] at hstate
    split at hstate
    · next declared hdeclared =>
        cases hstate
        obtain ⟨line, hline, hsaid⟩ := exists_of_mem_right hsays (mem_of_initial? hdeclared)
        have hbody := Item.eq_body_of_saidBy (.inr (Item.saidBy_of_ofLine hsaid))
        exact hbody ▸ isUnbroken_body (hdropped line hline)
    · -- the state of a rule is a word
      obtain ⟨rule, hrule, hcurrent⟩ := Option.map_eq_some_iff.mp hstate
      have hmade := hsays.printable _ (mem_rules.mp (List.mem_of_mem_head? hrule))
      have hword := (hmade.1 _ List.mem_cons_self).1.1
      rw [hcurrent] at hword
      exact hword.isUnbroken

/-- A ruleset that is imported from a table has words for names. -/
theorem Table.storable_of_parse
    {loader : Yaml.Loader} {size : Datum} {text : List Char} {r : Ruleset}
    (h : parse loader size text = .ok r) :
    r.Storable size := by
  obtain ⟨n, document, hsize, hdocument⟩ := exists_ofDatum_of_parse h
  have himported := imported_of_ofDatum hdocument
  have hlegible := himported.legible (Machine.size_pos_of_tapeSize hsize)
  have haccepted : ∀ name, Accepted .state name → IsUnbroken name.toList := by
    intro name hname
    have hplain := isField_iff.mp hname.isField
    exact hplain.1.1.isUnbroken
  refine ⟨hlegible.printable himported.directed, himported.tapeSize ▸ hsize, ?_, ?_⟩
  · intro name hname
    exact haccepted name (himported.accepted_of_mem_named hname)
  · rw [himported.initialState]
    rintro _ ⟨⟩
    exact haccepted _ himported.start

/-- The ruleset is read, from a text or a file, from a program or a table, whatever loads the
table. -/
inductive ReadFrom (size : Datum) (r : Ruleset) : Prop
  | programText (text : List Char) : Program.parseText size text = .ok r → ReadFrom size r
  | programFile (bytes : List UInt8) : Program.ofFile size bytes = .ok r → ReadFrom size r
  | tableText (loader : Yaml.Loader) (text : List Char) :
      Table.parse loader size text = .ok r → ReadFrom size r
  | tableFile (loader : Yaml.Loader) (bytes : List UInt8) :
      Table.ofFile loader size bytes = .ok r → ReadFrom size r

theorem ReadFrom.storable
    {size : Datum} {r : Ruleset} (h : ReadFrom size r) :
    r.Storable size := by
  have hprogram {text : List Char} (hparse : Program.parseText size text = .ok r) :
      r.Storable size :=
    Program.storable_of_parse (fun _ => isUnbroken_of_mem_lines) hparse
  cases h with
  | programText text hparse => exact hprogram hparse
  | programFile bytes hfile =>
      obtain ⟨text, hparse⟩ := Program.exists_parseText_of_ofFile hfile
      exact hprogram hparse
  | tableText loader text hparse => exact Table.storable_of_parse hparse
  | tableFile loader bytes hfile =>
      obtain ⟨text, hparse⟩ := Table.exists_parse_of_ofFile hfile
      exact Table.storable_of_parse hparse

/-- Whatever is read can be saved as the file of its lines and loaded again, unless one of its rules
has a line that begins like a line of another kind. -/
theorem ReadFrom.ofFile_encodeUtf8_print
    {size : Datum} {r : Ruleset} (h : ReadFrom size r)
    (hmarks : ∀ rule ∈ r.rules, ¬ StartsWithMark rule.currentState) :
    ∃ printed, r.print = some printed ∧
      Program.ofFile size (encodeUtf8 (joinWith ['\n'] printed)) = .ok r :=
  ⟨_, h.storable.printable.directed.print_eq, h.storable.ofFile_written hmarks⟩

/-- A program whose text begins with a byte order mark, which is then part of its first state, and a
program that starts in no state. -/
theorem ReadFrom.ofFile_encodeUtf8_print_of_byteOrderMark :
    let r : Ruleset :=
      ⟨[⟨some "\uFEFFs", some "b", none, some "c", .toward .right⟩], some "\uFEFFs",
        .ofNames ["u\xa0v"], some [some "x", none], 5⟩
    let r' : Ruleset :=
      ⟨[⟨none, none, some "\uFEFF", none, .toward .stay⟩], none, .ofNames [], none, 5⟩
    (∃ printed, r.print = some printed ∧
        Program.ofFile (.int 5) (encodeUtf8 (joinWith ['\n'] printed)) = .ok r) ∧
      ∃ printed, r'.print = some printed ∧
        Program.ofFile (.int 5) (encodeUtf8 (joinWith ['\n'] printed)) = .ok r' := by
  intro r r'
  have hread : ReadFrom (.int 5) r :=
    .programText "\uFEFFs b ! c R\r\n#u\xa0v ;\u2028@x !".toList rfl
  have hread' : ReadFrom (.int 5) r' := .programText "! ! \uFEFF ! N\n".toList rfl
  exact ⟨hread.ofFile_encodeUtf8_print (by decide), hread'.ofFile_encodeUtf8_print (by decide)⟩

end RingTape
