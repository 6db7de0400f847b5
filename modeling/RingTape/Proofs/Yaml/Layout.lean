import RingTape.Proofs.Yaml.Braces
import RingTape.Proofs.Yaml.Characters

/-!
# The tokens of a text in block style

The lexer reads a text in block style line by line.  Between two lines it knows only the columns of
the mappings that are open, and what it finds next is decided by the column of the next token.
-/

namespace RingTape.Yaml

open Cursor

namespace LexState

variable {index line column : Nat} {rest : List Char}
variable {c : Cursor} {allowed : Bool} {indent : Int} {outer : List Int} {tokens : List Token}
  {count : Nat}

theorem toToken_between
    (h : Reaches allowed c column rest) :
    ∃ index line, ∀ indent outer tokens count,
      (between c allowed indent outer tokens count).toToken =
        between ⟨rest, index, line, column⟩ true indent outer tokens count := by
  obtain ⟨broken, index, line, hfinds, hallowed⟩ := h.finds
  refine ⟨index, line, fun indent outer tokens count => ?_⟩
  have hcursor : (between c allowed indent outer tokens count).cursor = c := rfl
  rw [toToken, hcursor, h.unmarked, Bool.and_false]
  dsimp only
  rw [if_neg Bool.false_ne_true, hfinds]
  simp only [between]
  simp [hallowed]

/-- The columns of the open mappings when an entry is read in the given column. -/
def enter (column : Nat) (indent : Int) (outer : List Int) : List Int :=
  if indent < column then indent :: outer else outer

/-- The token before an entry that is the first of its mapping. -/
def opening (column : Nat) (indent : Int) : List Token :=
  if indent < column then [.blockMappingStart] else []

/-- The colon after a key. -/
theorem valueMark_key
    {k : KeyCandidate} (token : Token) (hindent : indent ≤ k.column) (hbefore : k.tokens = count) :
    valueMark ⟨c, 0, indent, outer, false, [(0, k)], token :: tokens, count + 1⟩ =
      .ok (between c.next false k.column (enter k.column indent outer)
        (.value :: token :: .key :: (opening k.column indent ++ tokens))
        (count + 3 + (opening k.column indent).length)) := by
  have hlater : count + 1 + 1 - count = 2 := by omega
  by_cases hlt : indent < k.column
  · simp [valueMark, candidate?, insert, indentTo, push, between, enter, opening, hlt, hbefore,
      hlater]
    rfl
  · have heq : indent = k.column := by omega
    simp [valueMark, candidate?, insert, indentTo, push, between, enter, opening, heq, hbefore]
    rfl

theorem reads_colon
    {k : KeyCandidate} (token : Token) (hgap : isGap rest.head? = true) (hline : k.line = line)
    (hnear : index - k.index ≤ maxKeyLength) (hcolumn : k.column ≤ column)
    (hindent : indent ≤ k.column) (hbefore : k.tokens = count) :
    Reads ⟨⟨':' :: rest, index, line, column⟩, 0, indent, outer, false, [(0, k)], token :: tokens,
        count + 1⟩
      (between ⟨rest, index + 1, line, column + 1⟩ false k.column (enter k.column indent outer)
        (.value :: token :: .key :: (opening k.column indent ++ tokens))
        (count + 3 + (opening k.column indent).length)) := by
  set s : LexState := ⟨⟨':' :: rest, index, line, column⟩, 0, indent, outer, false, [(0, k)],
    token :: tokens, count + 1⟩ with hs
  have htoToken : s.toToken = s := toToken_spaces (n := 0) rfl startsToken_colon
  have hstale : s.toToken.dropStale = .ok s := by
    rw [htoToken]
    apply dropStale_of_fresh
    intro candidate hcandidate
    rw [List.eq_of_mem_singleton hcandidate]
    exact ⟨hline, hnear⟩
  have hmark : s.atMark = true := by
    have hsecond : s.cursor.peekAt? 1 = rest.head? := by
      rw [hs, peekAt?, List.getElem?_cons_succ, List.head?_eq_getElem?]
    rw [atMark, hsecond, hgap, Bool.or_true]
  have hread : s.readToken ':' = s.valueMark := by
    simp [readToken, hmark]
  have hunwind : s.unwind s.cursor.column = s :=
    unwind_of_le fun _ => Int.le_trans hindent (Int.ofNat_le.mpr hcolumn)
  have hnext : Cursor.next ⟨':' :: rest, index, line, column⟩ =
      ⟨rest, index + 1, line, column + 1⟩ := next_of_isInline (by decide)
  refine reads_token hstale hunwind rfl ?_ (Nat.lt_succ_self _)
  rw [hread, hs, valueMark_key token hindent hbefore, hnext]

/-- A key and its colon are read at the start of a line, and the first key of a mapping opens it. -/
theorem reads_key
    {key : Written} (hkey : key.IsKey column) (hgap : isGap rest.head? = true)
    (hc : Reaches allowed c column (key.chars ++ ':' :: rest)) (hindent : indent ≤ column) :
    ∃ index line column' count', column < column' ∧
      Reads (between c allowed indent outer tokens count)
        (between ⟨rest, index, line, column'⟩ false column (enter column indent outer)
          (.value :: key.token :: .key :: (opening column indent ++ tokens)) count') := by
  obtain ⟨index, line, htoToken⟩ := toToken_between hc
  let k : KeyCandidate := ⟨count, indent == column, index, line, column⟩
  let colon : LexState := ⟨⟨':' :: rest, index + key.chars.length, line,
    column + key.chars.length⟩, 0, indent, outer, false, [(0, k)], key.token :: tokens, count + 1⟩
  have hscalar : Reads (between c allowed indent outer tokens count) colon :=
    reads_written (congrArg dropStale (htoToken indent outer tokens count)) rfl hkey.legible
      (hkey.noBorder_append rest) (fun _ => hindent) (Written.stops_colon hgap) rfl hc.shorter
  have hcolon : Reads colon (between ⟨rest, index + key.chars.length + 1, line,
      column + key.chars.length + 1⟩ false column (enter column indent outer)
      (.value :: key.token :: .key :: (opening column indent ++ tokens))
      (count + 3 + (opening column indent).length)) :=
    reads_colon key.token hgap rfl (by simpa [k] using hkey.near) (Nat.le_add_right _ _) hindent rfl
  exact ⟨_, _, _, _, by omega, hscalar.trans hcolon⟩

/-! ## Values -/

variable {text : List Char} {width : Nat} {tail : Pad}

/-- What stands on the line of a key is read, up to the next token. -/
theorem reads_inline
    {value : Inline} (hvalue : value.Legible) (htail : tail.Legible) (hapart : tail.Apart)
    (htext : Lands width rest text) {n : Nat} (hwidth : width ≤ n) (hcolumn : n < column) :
    ∃ c allowed count', Reaches allowed c width rest ∧
      Reads (between ⟨value.chars ++ (tail.chars ++ text), index, line, column⟩ false n outer tokens
          count)
        (between c allowed n outer (value.tokens.reverse ++ tokens) count') := by
  have hwidth' : (width : Int) < n + 1 := by omega
  have hindent : (n : Int) ≤ column := by omega
  cases value with
  | empty => exact ⟨_, _, _, reaches_pad htail htext false, .refl _⟩
  | scalar m value =>
      have hrest : StartsToken (value.chars ++ (tail.chars ++ text)) :=
        startsToken_written hvalue _
      have htoToken : (between ⟨spaces (m + 1) ++ (value.chars ++ (tail.chars ++ text)), index, line,
            column⟩ false n outer tokens count).toToken =
          between ⟨value.chars ++ (tail.chars ++ text), index + (m + 1), line, column + (m + 1)⟩
            false n outer tokens count := toToken_spaces rfl hrest
      obtain ⟨ended, c, hstops, hreaches⟩ : ∃ ended c,
          value.Stops false (n + 1) ⟨tail.chars ++ text, index + (m + 1) + value.chars.length, line,
            column + (m + 1) + value.chars.length⟩ ended c ∧ Reaches ended c width rest :=
        Written.stops_pad htail hapart htext hwidth'
      have hborder : column + (m + 1) = 0 → NoBorder (value.chars ++ (tail.chars ++ text)) := by
        intro hzero
        omega
      have hindent' : (n : Int) ≤ (column + (m + 1) : Nat) := by omega
      have hshorter : (value.chars ++ (tail.chars ++ text)).length ≤
          (spaces (m + 1) ++ (value.chars ++ (tail.chars ++ text))).length := by
        simp
      have hread : Reads
          (between ⟨spaces (m + 1) ++ (value.chars ++ (tail.chars ++ text)), index, line, column⟩
            false n outer tokens count)
          (between c ended n outer (value.token :: tokens) (count + 1)) :=
        reads_written (congrArg dropStale htoToken) rfl hvalue hborder (fun _ => hindent') hstops rfl
          hshorter
      refine ⟨c, ended, count + 1, hreaches, ?_⟩
      simpa [Inline.chars, Inline.tokens] using hread
  | flow m entries =>
      obtain ⟨index', column', count', hread⟩ : ∃ index' column' count', Reads
          (between ⟨spaces (m + 1) ++ '\x7b' :: (FlowEntry.charsOf entries ++
            '\x7d' :: (tail.chars ++ text)), index, line, column⟩ false n outer tokens count)
          (between ⟨tail.chars ++ text, index', line, column'⟩ false n outer
            (.flowMappingEnd :: ((FlowEntry.tokensOf entries).reverse ++ .flowMappingStart :: tokens))
            count') := reads_braces hvalue hindent
      refine ⟨⟨tail.chars ++ text, index', line, column'⟩, false, count',
        reaches_pad htail htext false, ?_⟩
      simpa [Inline.chars, Inline.tokens] using hread

/-! ## Lines -/

theorem isGap_inline
    (value : Inline) (hapart : tail.Apart) (text : List Char) :
    isGap (value.chars ++ (tail.chars ++ text)).head? = true := by
  cases value with
  | empty => exact tail.isGap_head? hapart text
  | scalar n value => rfl
  | flow n entries => rfl

theorem lands_pads
    {pads : List Pad} (hpads : ∀ p ∈ pads, p.Legible) (htext : Lands width rest text) :
    Lands width rest (Pad.charsOf pads ++ text) := by
  induction pads with
  | nil => exact htext
  | cons p pads ih =>
      rw [List.forall_mem_cons] at hpads
      rw [Pad.charsOf_cons, List.append_assoc]
      exact .pad hpads.1 (ih hpads.2)

theorem lands_key
    {key : Written} (hkey : key.IsKey column) {pads : List Pad} (hpads : ∀ p ∈ pads, p.Legible)
    (rest : List Char) :
    Lands column (key.chars ++ ':' :: rest)
      (Pad.charsOf pads ++ (spaces column ++ (key.chars ++ ':' :: rest))) :=
  lands_pads hpads (.here (startsToken_written hkey.legible _) (hkey.noBorder_append rest))

/-- The key on the first line after some others is read. -/
theorem reads_firstKey
    {key : Written} (hkey : key.IsKey column) {pads : List Pad} (hpads : ∀ p ∈ pads, p.Legible)
    {after : List Char} (hgap : isGap after.head? = true) {start : Nat} {first : List Char}
    (hfirst : Lands start first (Pad.charsOf pads ++ (spaces column ++ (key.chars ++ ':' :: after))))
    (hc : Reaches allowed c start first) (hindent : indent ≤ column) :
    ∃ index line column' count', column < column' ∧
      Reads (between c allowed indent outer tokens count)
        (between ⟨after, index, line, column'⟩ false column (enter column indent outer)
          (.value :: key.token :: .key :: (opening column indent ++ tokens)) count') := by
  obtain ⟨rfl, rfl⟩ := hfirst.unique (lands_key hkey hpads after)
  exact reads_key hkey hgap hc hindent

/-- The next token after some lines is that of the first of them, if there are any. -/
theorem exists_lands_block
    {b : Block} (hb : b.Legible column) (htext : Lands width rest text)
    (hwidth : width ≤ column) :
    ∃ width' rest', width' ≤ column ∧ Lands width' rest' (b.chars column ++ text) := by
  cases b with
  | nil => exact ⟨width, rest, hwidth, htext⟩
  | row pads key value tail more =>
      have hlands := lands_key hb.2.1 hb.1
        (value.chars ++ (tail.chars ++ (more.chars column ++ text)))
      exact ⟨column, _, le_rfl, by simpa [Block.chars] using hlands⟩
  | nest pads key tail inside inner more =>
      have hlands := lands_key hb.2.1 hb.1
        (tail.chars ++ (inner.chars inside ++ (more.chars column ++ text)))
      exact ⟨column, _, le_rfl, by simpa [Block.chars] using hlands⟩

/-- The mapping in the deepest column ends before a token in a column before it. -/
theorem reads_blockEnd
    (hc : Reaches allowed c width rest) (hwidth : width < indent) (parent : Int) :
    Reads (between c allowed indent (parent :: outer) tokens count)
      (between c allowed parent outer (.blockEnd :: tokens) (count + 1)) := by
  obtain ⟨index, line, htoToken⟩ := toToken_between hc
  refine reads_of_next_eq ?_ le_rfl
  have hunwind : (between ⟨rest, index, line, width⟩ true indent (parent :: outer) tokens
        count).unwind width =
      (between ⟨rest, index, line, width⟩ true parent outer (.blockEnd :: tokens)
        (count + 1)).unwind width := by
    simp [unwind, between, unwind.go, hwidth, push]
  have hstale (indent : Int) (outer : List Int) (tokens : List Token) (count : Nat) :
      (between c allowed indent outer tokens count).toToken.dropStale =
        .ok (between ⟨rest, index, line, width⟩ true indent outer tokens count) :=
    congrArg dropStale (htoToken indent outer tokens count)
  rw [next, next, hstale, hstale]
  dsimp only [bind, Except.bind]
  rw [show (between ⟨rest, index, line, width⟩ true indent (parent :: outer) tokens
        count).unwind (between ⟨rest, index, line, width⟩ true indent (parent :: outer) tokens
        count).cursor.column = _ from hunwind]
  rfl

theorem enter_self
    (column : Nat) (outer : List Int) :
    enter column column outer = outer :=
  if_neg (Int.lt_irrefl _)

theorem opening_self
    (column : Nat) :
    opening column column = [] :=
  if_neg (Int.lt_irrefl _)

/-- The lines of a mapping are read, up to the next token. -/
theorem reads_block
    {b : Block} (hb : b.Legible column) (hnil : b.isNil = true → indent = column)
    (hindent : indent ≤ column) (htext : Lands width rest text) (hwidth : width ≤ column)
    {start : Nat} {first : List Char}
    (hfirst : Lands start first (b.chars column ++ text))
    (hc : Reaches allowed c start first) :
    ∃ c' allowed' count', Reaches allowed' c' width rest ∧
      Reads (between c allowed indent outer tokens count)
        (between c' allowed' column (enter column indent outer)
          (b.tokens.reverse ++ (opening column indent ++ tokens)) count') := by
  induction b generalizing column indent outer tokens count text width rest start first c allowed with
  | nil =>
      obtain ⟨rfl, rfl⟩ := hfirst.unique htext
      rw [hnil rfl, enter_self, opening_self]
      exact ⟨c, allowed, count, hc, .refl _⟩
  | row pads key value tail more ih =>
      obtain ⟨hpads, hkey, hvalue, ⟨htail, hapart⟩, hmore⟩ := hb
      obtain ⟨width', rest', hwidth', hlands⟩ := exists_lands_block hmore htext hwidth
      let after : List Char := value.chars ++ (tail.chars ++ (more.chars column ++ text))
      obtain ⟨index, line, column', count', hcolumn', hkeyed⟩ : ∃ index line column' count',
          column < column' ∧ Reads (between c allowed indent outer tokens count)
            (between ⟨after, index, line, column'⟩ false column (enter column indent outer)
              (.value :: key.token :: .key :: (opening column indent ++ tokens)) count') :=
        reads_firstKey hkey hpads (isGap_inline value hapart _)
          (by simpa [Block.chars, after] using hfirst) hc hindent
      obtain ⟨c₁, allowed₁, count₁, hreaches, hvalued⟩ :=
        reads_inline hvalue htail hapart hlands hwidth' hcolumn'
      obtain ⟨c₂, allowed₂, count₂, hreaches', hread⟩ :=
        ih hmore (fun _ => rfl) (Int.le_refl _) htext hwidth hlands hreaches
      refine ⟨c₂, allowed₂, count₂, hreaches', ?_⟩
      rw [enter_self, opening_self] at hread
      simpa [Block.tokens] using (hkeyed.trans hvalued).trans hread
  | nest pads key tail inside inner more ihinner ihmore =>
      obtain ⟨hpads, hkey, ⟨htail, hapart⟩, ⟨hinside, hne, hinner⟩, hmore⟩ := hb
      obtain ⟨width', rest', hwidth', hlands⟩ := exists_lands_block hmore htext hwidth
      let after : List Char :=
        tail.chars ++ (inner.chars inside ++ (more.chars column ++ text))
      have hdeeper : (column : Int) < inside := Int.ofNat_lt.mpr hinside
      have hwidth'' : width' < inside := hwidth'.trans_lt hinside
      obtain ⟨index, line, column', count', -, hkeyed⟩ : ∃ index line column' count',
          column < column' ∧ Reads (between c allowed indent outer tokens count)
            (between ⟨after, index, line, column'⟩ false column (enter column indent outer)
              (.value :: key.token :: .key :: (opening column indent ++ tokens)) count') :=
        reads_firstKey hkey hpads (tail.isGap_head? hapart _)
          (by simpa [Block.chars, after] using hfirst) hc hindent
      obtain ⟨start', first', -, hlands'⟩ := exists_lands_block hinner hlands hwidth''.le
      have hreaches : Reaches false ⟨after, index, line, column'⟩ start' first' :=
        reaches_pad htail hlands' false
      obtain ⟨c₁, allowed₁, count₁, hreaches₁, hread₁⟩ :=
        ihinner hinner (by simp [hne]) (Int.le_of_lt hdeeper) hlands hwidth''.le hlands' hreaches
      rw [enter, if_pos hdeeper, opening, if_pos hdeeper] at hread₁
      obtain ⟨c₂, allowed₂, count₂, hreaches₂, hread₂⟩ :=
        ihmore hmore (fun _ => rfl) (Int.le_refl _) htext hwidth hlands hreaches₁
      rw [enter_self, opening_self] at hread₂
      have hread := (hkeyed.trans hread₁).trans
        (reads_blockEnd hreaches₁ (Int.ofNat_lt.mpr hwidth'') column)
      refine ⟨c₂, allowed₂, count₂, hreaches₂, ?_⟩
      simpa [Block.tokens] using hread.trans hread₂

/-- At the end of the text the outermost mapping ends. -/
theorem finishes_of_end
    (hc : Reaches allowed c 0 []) :
    Finishes (between c allowed 0 [-1] tokens count) (.blockEnd :: tokens).reverse := by
  obtain ⟨index, line, htoToken⟩ := toToken_between hc
  let ended : LexState :=
    between ⟨[], index, line, 0⟩ true (-1) [] (.blockEnd :: tokens) (count + 1)
  have hnext : (between c allowed 0 [-1] tokens count).next = .ok (ended, true) := by
    rw [next, htoToken]
    rfl
  exact .done hnext

end LexState

/-! ## The whole text -/

open LexState

/-- The tokens of a text in block style. -/
theorem tokens_block
    {b : Block} (hb : b.Legible 0) (hnil : b.isNil = false) {pads : List Pad}
    (hpads : ∀ p ∈ pads, p.Legible) :
    tokens (b.chars 0 ++ Pad.charsOf pads) =
      .blockMappingStart :: (b.tokens ++ [.blockEnd]) := by
  set text : List Char := b.chars 0 ++ Pad.charsOf pads with htext
  have hallowed : text.all isAllowed = true := by
    rw [List.all_eq_true]
    exact isAllowed_append.mpr ⟨isAllowed_block hb, isAllowed_pads hpads⟩
  have hend : Lands 0 [] (Pad.charsOf pads) := by
    have hlands : Lands 0 [] (Pad.charsOf pads ++ (spaces 0 ++ [])) :=
      lands_pads hpads (.here nofun fun _ => by constructor <;> nofun)
    simpa [spaces] using hlands
  obtain ⟨start, first, -, hfirst⟩ := exists_lands_block hb hend le_rfl
  obtain ⟨c, allowed, count, hreaches, hread⟩ : ∃ c allowed count, Reaches allowed c 0 [] ∧
      Reads (between ⟨text, 0, 0, 0⟩ true (-1) [] [] 0)
        (between c allowed 0 [-1] (b.tokens.reverse ++ [.blockMappingStart]) count) :=
    reads_block hb (by simp [hnil]) (by decide) hend le_rfl hfirst (reaches_lands hfirst)
  have hfinishes : Finishes (LexState.start text)
      (.blockEnd :: (b.tokens.reverse ++ [.blockMappingStart])).reverse :=
    hread _ (finishes_of_end hreaches)
  rw [tokens, if_pos hallowed, hfinishes.finish_eq (by simp [LexState.start, Cursor.start])]
  simp

end RingTape.Yaml
