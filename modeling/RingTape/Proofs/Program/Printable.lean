import RingTape.Program.Parse
import RingTape.Proofs.Program.Line

/-!
# Printed items

Every line of a printed program says one item.  This module tells which items can be printed so that
their line says the same item again, and shows that reading never gives any other.  What a line says
depends on its first character alone; a rule can therefore be read back only if its first state does
not begin like a line of another kind.  That condition is kept apart from the others, because
reading does not ensure it: a rule may be written behind blanks, and the blanks are not printed.
-/

namespace RingTape

open Text

/-- A symbol or state that one word of a rule can stand for. -/
def IsToken (s : Option String) : Prop :=
  IsWord (toToken s) ∧ s ≠ some "!"

/-- A token that is not taken for a comment, in whole or in part. -/
def IsPlainToken (s : Option String) : Prop :=
  IsToken s ∧ ';' ∉ toToken s

theorem ofToken_toToken
    {s : Option String} (h : s ≠ some "!") :
    ofToken (toToken s) = s := by
  cases s with
  | none => rfl
  | some name =>
      have hne : name.toList ≠ nullToken := by
        intro hnull
        apply h
        rw [String.toList_inj.mp (hnull.trans (by rfl : nullToken = "!".toList))]
      rw [toToken, ofToken, if_neg hne, String.ofList_toList]

theorem isToken_ofToken
    {token : List Char} (h : IsWord token) :
    IsToken (ofToken token) := by
  refine ⟨by rwa [toToken_ofToken], ?_⟩
  unfold ofToken
  split
  · simp
  · next hne =>
      intro heq
      apply hne
      rw [← String.toList_ofList (l := token), Option.some.inj heq]
      rfl

theorem ne_empty_iff
    {name : String} :
    name ≠ "" ↔ name.toList ≠ [] := by
  rw [ne_eq, ne_eq, String.toList_eq_nil_iff]

/-- A token is nothing, or a word other than that for nothing. -/
theorem isToken_iff
    {s : Option String} :
    IsToken s ↔ ∀ name ∈ s, name ≠ "" ∧ name ≠ "!" ∧ ∀ c ∈ name.toList, isBlank c = false := by
  cases s with
  | none =>
      have hword : IsWord nullToken := by
        refine ⟨by decide, fun c hc => ?_⟩
        rw [List.mem_singleton.mp hc]
        rfl
      exact ⟨fun _ => nofun, fun _ => ⟨hword, nofun⟩⟩
  | some name =>
      constructor
      · rintro ⟨⟨hnil, hblank⟩, hmark⟩ other hother
        obtain rfl : name = other := Option.some.inj hother
        exact ⟨ne_empty_iff.mpr hnil, fun heq => hmark (congrArg some heq), hblank⟩
      · intro h
        obtain ⟨hempty, hmark, hblank⟩ := h name rfl
        exact ⟨⟨ne_empty_iff.mp hempty, hblank⟩, fun heq => hmark (Option.some.inj heq)⟩

theorem isPlainToken_ofToken
    {token : List Char} (h : IsWord token) (hsemi : ';' ∉ token) :
    IsPlainToken (ofToken token) :=
  ⟨isToken_ofToken h, by rwa [toToken_ofToken]⟩

/-- A named state that is a plain token can also stand alone on a line. -/
theorem IsPlainToken.isPhrase
    {name : String} (h : IsPlainToken (some name)) :
    IsPhrase name.toList :=
  h.1.1.isPhrase h.2

/-! ## Rules -/

namespace Rule

/-- The states and values of a rule in the order of its line. -/
def names (r : Rule) : List (Option String) :=
  [r.currentState, r.nextState, r.currentValue, r.nextValue]

/-- The letter of the direction, if the rule has one. -/
def letters (r : Rule) : List (List Char) :=
  match r.move with
  | .toward direction => [[direction.code]]
  | .undefined _ => []

/-- The pieces that the line of a rule is joined from. -/
def pieces (r : Rule) : List (List Char) :=
  r.names.map toToken ++ r.letters

/-- The line that a rule has if its move is a direction. -/
def written (r : Rule) : List Char :=
  joinWith [' '] r.pieces

theorem Directed.print_eq
    {r : Rule} (h : r.Directed) :
    r.print = some r.written := by
  obtain ⟨direction, hmove⟩ := h
  rw [print, written, pieces, letters, hmove]
  rfl

theorem Directed.isWord_of_mem_pieces
    {r : Rule} (h : r.Directed) (hnames : ∀ s ∈ r.names, IsToken s) :
    ∀ piece ∈ r.pieces, IsWord piece := by
  obtain ⟨direction, hmove⟩ := h
  intro piece hpiece
  rcases List.mem_append.mp hpiece with hpiece | hpiece
  · obtain ⟨s, hs, rfl⟩ := List.mem_map.mp hpiece
    exact (hnames s hs).1
  · rw [letters, hmove, List.mem_singleton] at hpiece
    rw [hpiece]
    cases direction <;> exact ⟨by simp, by simp [Direction.code]; decide⟩

/-- A rule of tokens is what its line says. -/
theorem Directed.parse_written
    {r : Rule} (h : r.Directed) (hnames : ∀ s ∈ r.names, IsToken s) :
    Rule.parse r.written = .ok r := by
  have hwords := h.isWord_of_mem_pieces hnames
  obtain ⟨direction, hmove⟩ := h
  have hpieces : r.pieces = r.names.map toToken ++ [[direction.code]] := by
    rw [pieces, letters, hmove]
  rw [hpieces] at hwords
  simp only [names, List.forall_mem_cons] at hnames
  obtain ⟨hstate, hnext, hvalue, hwritten, -⟩ := hnames
  rw [Rule.parse, written, hpieces, trim_joinWith hwords, fieldsUpTo_joinWith (by rfl) hwords]
  simp only [names, List.map_cons, List.map_nil, List.cons_append, List.nil_append,
    Direction.parse, Direction.parse?_code, ofToken_toToken hstate.2,
    ofToken_toToken hnext.2, ofToken_toToken hvalue.2, ofToken_toToken hwritten.2]
  change Except.ok (Rule.mk r.currentState r.nextState r.currentValue r.nextValue
    (.toward direction)) = .ok r
  rw [← hmove]

/-- The names in a rule that is read are words of the text, and its move is a direction. -/
theorem names_of_parse
    {text : List Char} {r : Rule} (h : Rule.parse text = .ok r) :
    r.Directed ∧ ∀ s ∈ r.names, ∃ token, s = ofToken token ∧ IsWord token ∧
      ∀ c ∈ token, c ∈ text := by
  rw [Rule.parse] at h
  split at h
  · next state next value written last hfields =>
      cases hdirection : Direction.parse last with
      | error fault =>
          rw [hdirection] at h
          cases h
      | ok direction =>
          rw [hdirection] at h
          cases h
          refine ⟨⟨direction, rfl⟩, ?_⟩
          have hwords : ∀ token ∈ [state, next, value, written],
              IsWord token ∧ ∀ c ∈ token, c ∈ text := by
            intro token htoken
            have hmem : token ∈ (fieldsUpTo 4 (trim text)).take 4 := by rwa [hfields]
            obtain ⟨hword, hsub⟩ := isWord_of_mem_take_fieldsUpTo hmem
            exact ⟨hword, fun c hc => (trim_isInfix text).subset (hsub c hc)⟩
          simp only [List.forall_mem_cons] at hwords
          simp only [names, List.forall_mem_cons]
          exact ⟨⟨state, rfl, hwords.1⟩, ⟨next, rfl, hwords.2.1⟩, ⟨value, rfl, hwords.2.2.1⟩,
            ⟨written, rfl, hwords.2.2.2.1⟩, by simp⟩
  · cases h

end Rule

/-! ## Items -/

/-- The characters at whose sight a line is no rule, the semicolon of a comment aside. -/
def itemMarks : List Char := ['#', '~', '@']

/-- A text that begins with one of these characters. -/
def IsMarked (line : List Char) : Prop :=
  ∃ c ∈ itemMarks, line.head? = some c

instance (line : List Char) : Decidable (IsMarked line) :=
  List.decidableBEx (line.head? = some ·) itemMarks

@[simp] theorem isMarked_cons
    {c : Char} {rest : List Char} :
    IsMarked (c :: rest) ↔ c ∈ itemMarks := by
  simp [IsMarked]

/-- A state whose token begins like a line that is no rule. -/
def StartsWithMark (s : State) : Prop :=
  IsMarked (toToken s)

instance (s : State) : Decidable (StartsWithMark s) :=
  inferInstanceAs (Decidable (IsMarked (toToken s)))

namespace Item

/-- The line of an item. -/
def print : Item → List Char
  | .remark => []
  | .terminal name => '#' :: name.toList
  | .initial name => '~' :: name.toList
  | .filler symbols => '@' :: joinWith [' '] (symbols.map toToken)
  | .rule r => r.written

/-- An item whose names and symbols keep their shape in its line. -/
def Printable : Item → Prop
  | .remark => True
  | .terminal name => IsPhrase name.toList
  | .initial name => IsPhrase name.toList
  | .filler symbols => symbols ≠ [] ∧ ∀ s ∈ symbols, IsPlainToken s
  | .rule r => (∀ s ∈ r.names, IsPlainToken s) ∧ r.Directed

/-- An item whose line begins like that of another kind. -/
def Misleading : Item → Prop
  | .rule r => StartsWithMark r.currentState
  | _ => False

theorem beforeComment_eq_self
    {line : List Char} (h : ';' ∉ line) :
    beforeComment line = line := by
  rw [beforeComment, List.takeWhile_eq_self_iff]
  intro c hc
  simp only [bne_iff_ne, ne_eq]
  rintro rfl
  exact h hc

theorem semicolon_notMem_beforeComment
    (line : List Char) :
    ';' ∉ beforeComment line := by
  intro hmem
  simpa using List.mem_takeWhile_imp hmem

/-- A line that ends in no blank has no line end to drop. -/
theorem dropLineEnd_eq_self
    {line : List Char} (h : ∀ c, line.getLast? = some c → isBlank c = false) :
    dropLineEnd line = line := by
  rw [dropLineEnd, dropWhileEnd_eq_self_iff]
  intro c hc
  by_contra hend
  rw [Bool.not_eq_false, isReturnOrFeed, Bool.or_eq_true, beq_iff_eq, beq_iff_eq] at hend
  have hblank := h c hc
  rcases hend with rfl | rfl <;> exact absurd hblank (by decide)

theorem getLast?_mark_cons
    {mark : Char} {body : List Char} (hne : body ≠ [])
    (h : ∀ c, body.getLast? = some c → isBlank c = false) :
    ∀ c, (mark :: body).getLast? = some c → isBlank c = false := by
  intro c hc
  rw [List.getLast?_cons_of_ne_nil hne] at hc
  exact h c hc

theorem isWord_of_mem_filler
    {symbols : List Symbol} (h : (Item.filler symbols).Printable) :
    ∀ piece ∈ symbols.map toToken, IsWord piece := by
  rw [List.forall_mem_map]
  exact fun s hs => (h.2 s hs).1.1

/-- The line of an item ends in no blank. -/
theorem getLast?_print
    {i : Item} (h : i.Printable) :
    ∀ c, i.print.getLast? = some c → isBlank c = false := by
  cases i with
  | remark => simp [print]
  | terminal name =>
      rw [print]
      exact getLast?_mark_cons h.1 fun c hc => getLast?_trim (h.2.1.symm ▸ hc)
  | initial name =>
      rw [print]
      exact getLast?_mark_cons h.1 fun c hc => getLast?_trim (h.2.1.symm ▸ hc)
  | filler symbols =>
      have hwords := isWord_of_mem_filler h
      rw [print]
      exact getLast?_mark_cons (joinWith_ne_nil (by simpa using h.1) hwords)
        fun c hc => getLast?_joinWith hwords hc
  | rule r =>
      have hwords := h.2.isWord_of_mem_pieces fun s hs => (h.1 s hs).1
      exact fun c hc => getLast?_joinWith hwords hc

/-- What follows a mark is read without its comment and its blanks. -/
theorem trim_mark_ne_nil
    {mark : Char} (hmark : isBlank mark = false) (body : List Char) :
    (trim (mark :: body)).isEmpty = false := by
  simpa using trim_ne_nil_of_mem List.mem_cons_self hmark

theorem ofLine_terminal
    {body : List Char} (h : IsPhrase body) :
    ofLine ('#' :: body) = .ok (.terminal (String.ofList body)) := by
  have hbody : body.isEmpty = false := by simpa using h.1
  simp [ofLine, trim_mark_ne_nil (by decide : isBlank '#' = false), beforeComment_eq_self h.2.2,
    h.2.1, hbody]

theorem ofLine_initial
    {body : List Char} (h : IsPhrase body) :
    ofLine ('~' :: body) = .ok (.initial (String.ofList body)) := by
  have hbody : body.isEmpty = false := by simpa using h.1
  simp [ofLine, trim_mark_ne_nil (by decide : isBlank '~' = false), beforeComment_eq_self h.2.2,
    h.2.1, hbody]

theorem ofLine_filler
    {symbols : List Symbol} (h : (Item.filler symbols).Printable) :
    ofLine ('@' :: joinWith [' '] (symbols.map toToken)) = .ok (.filler symbols) := by
  have hwords := isWord_of_mem_filler h
  have hsemi : ';' ∉ joinWith [' '] (symbols.map toToken) := by
    intro hmem
    rcases mem_joinWith hmem with hmem | ⟨piece, hpiece, hmem⟩
    · simp at hmem
    · obtain ⟨s, hs, rfl⟩ := List.mem_map.mp hpiece
      exact (h.2 s hs).2 hmem
  have hread : (symbols.map toToken).map ofToken = symbols := by
    rw [List.map_map]
    exact (List.map_congr_left fun s hs => ofToken_toToken (h.2 s hs).1.2).trans
      (List.map_id symbols)
  simp [ofLine, trim_mark_ne_nil (by decide : isBlank '@' = false), beforeComment_eq_self hsemi,
    trim_joinWith hwords, fields_joinWith hwords, hread, h.1, -List.map_map]

theorem semicolon_notMem_written
    {r : Rule} (h : (Item.rule r).Printable) :
    ';' ∉ r.written := by
  obtain ⟨hnames, direction, hmove⟩ := h
  intro hmem
  rcases mem_joinWith hmem with hmem | ⟨piece, hpiece, hmem⟩
  · simp at hmem
  · rcases List.mem_append.mp hpiece with hpiece | hpiece
    · obtain ⟨s, hs, rfl⟩ := List.mem_map.mp hpiece
      exact (hnames s hs).2 hmem
    · rw [Rule.letters, hmove, List.mem_singleton] at hpiece
      rw [hpiece] at hmem
      cases direction <;> simp [Direction.code] at hmem

/-- A rule line begins with the token of the rule's first state. -/
theorem head?_written
    {r : Rule} (h : IsToken r.currentState) :
    r.written.head? = (toToken r.currentState).head? :=
  head?_joinWith_cons h.1.1

theorem ofLine_rule
    {r : Rule} (h : (Item.rule r).Printable) (hmark : ¬ StartsWithMark r.currentState) :
    ofLine r.written = .ok (.rule r) := by
  have hnames : ∀ s ∈ r.names, IsToken s := fun s hs => (h.1 s hs).1
  have hwords := h.2.isWord_of_mem_pieces hnames
  have hne : r.written ≠ [] := joinWith_ne_nil (by simp [Rule.pieces, Rule.names]) hwords
  have htrim : trim r.written = r.written := trim_joinWith hwords
  have hsemi := semicolon_notMem_written h
  have hhead : r.written.head? = (toToken r.currentState).head? :=
    head?_written (hnames _ List.mem_cons_self)
  have hnot : ∀ c rest, r.written = c :: rest → c ∉ itemMarks := by
    intro c rest hline hc
    rw [hline] at hhead
    exact hmark ⟨c, hc, hhead.symm⟩
  unfold ofLine
  rw [htrim, if_neg (by simpa using hne)]
  split
  · next rest hline =>
      rw [hline] at hsemi
      exact absurd List.mem_cons_self hsemi
  · next rest hline => exact absurd (by decide) (hnot '#' rest hline)
  · next rest hline => exact absurd (by decide) (hnot '~' rest hline)
  · next rest hline => exact absurd (by decide) (hnot '@' rest hline)
  · simp only [beforeComment_eq_self hsemi, htrim, h.2.parse_written hnames]
    rw [if_neg (by simpa using hne)]

/-- A printable item whose line does not mislead is what its line says. -/
theorem ofLine_print
    {i : Item} (h : i.Printable) (hmislead : ¬ i.Misleading) :
    ofLine (dropLineEnd i.print) = .ok i := by
  rw [dropLineEnd_eq_self (getLast?_print h)]
  cases i with
  | remark => rfl
  | terminal name => simpa [print] using ofLine_terminal h
  | initial name => simpa [print] using ofLine_initial h
  | filler symbols => exact ofLine_filler h
  | rule r => exact ofLine_rule h hmislead

/-- Whatever a line says can be printed. -/
theorem printable_of_ofLine
    {line : List Char} {i : Item} (h : ofLine line = .ok i) :
    i.Printable := by
  have hsemi : ∀ rest, ';' ∉ Program.content rest := by
    intro rest hmem
    exact semicolon_notMem_beforeComment rest ((trim_isInfix _).subset hmem)
  have hphrase : ∀ rest, Program.content rest ≠ [] → IsPhrase (Program.content rest) := by
    intro rest hne
    exact isPhrase_trim hne (semicolon_notMem_beforeComment rest)
  cases saidBy_of_ofLine h with
  | blank _ => trivial
  | comment _ => trivial
  | indented _ _ => trivial
  | terminal _ hne =>
      rw [Printable, String.toList_ofList]
      exact hphrase line.tail hne
  | initial _ hne =>
      rw [Printable, String.toList_ofList]
      exact hphrase line.tail hne
  | filler _ hne =>
      refine ⟨hne, ?_⟩
      rw [Program.symbols, List.forall_mem_map]
      intro token htoken
      obtain ⟨hword, hsub⟩ := isWord_of_mem_fields htoken
      exact isPlainToken_ofToken hword fun hmem => hsemi line.tail (hsub _ hmem)
  | rule _ _ hparse =>
      obtain ⟨hdirected, hnames⟩ := Rule.names_of_parse hparse
      refine ⟨?_, hdirected⟩
      intro s hs
      obtain ⟨token, rfl, hword, hsub⟩ := hnames s hs
      exact isPlainToken_ofToken hword fun hmem => hsemi line (hsub _ hmem)

end Item

end RingTape
