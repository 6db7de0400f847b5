import RingTape.Proofs.Yaml.Steps

/-!
# The tokens of a mapping between braces

Inside of the braces columns decide nothing.  Each key is a candidate until its colon or the mark
after its entry is reached.
-/

namespace RingTape.Yaml

open Cursor

namespace LexState

variable {index line column : Nat} {rest : List Char}
variable {c : Cursor} {allowed : Bool} {indent : Int} {outer : List Int} {tokens : List Token}
  {count : Nat}

/-- The state inside of a mapping between braces. -/
def inFlow (c : Cursor) (allowed : Bool) (indent : Int) (outer : List Int)
    (candidates : List (Nat × KeyCandidate)) (tokens : List Token) (count : Nat) : LexState :=
  ⟨c, 1, indent, outer, allowed, candidates, tokens, count⟩

variable {candidates : List (Nat × KeyCandidate)}

/-- Candidates for keys between the braces, none of which has to become one. -/
def Loose (candidates : List (Nat × KeyCandidate)) : Prop :=
  ∀ k ∈ candidates, k.1 = 1 ∧ k.2.required = false

theorem dropStale_inFlow
    (h : Loose candidates) :
    ∃ fresh, Loose fresh ∧ (inFlow c allowed indent outer candidates tokens count).dropStale =
      .ok (inFlow c allowed indent outer fresh tokens count) := by
  let stale (k : KeyCandidate) : Bool := k.line != c.line || maxKeyLength < c.index - k.index
  have hany : ¬ (candidates.any fun k => stale k.2 && k.2.required) = true := by
    rw [List.any_eq_true]
    rintro ⟨k, hk, hstale⟩
    rw [(h k hk).2, Bool.and_false] at hstale
    cases hstale
  exact ⟨candidates.filter fun k => !stale k.2, fun k hk => h k (List.mem_of_mem_filter hk),
    if_neg hany⟩

theorem dropCandidate_inFlow
    (h : Loose candidates) :
    (inFlow c allowed indent outer candidates tokens count).dropCandidate =
      .ok (inFlow c allowed indent outer [] tokens count) := by
  have hrequired : ¬ (candidates.lookup 1).any (·.required) = true := by
    rw [Option.any_eq_true]
    rintro ⟨k, hk, hrequired⟩
    obtain ⟨before, after, hsplit, -⟩ := List.lookup_eq_some_iff.mp hk
    have hmem : (1, k) ∈ candidates := by
      rw [hsplit]
      exact List.mem_append_right before List.mem_cons_self
    rw [(h (1, k) hmem).2] at hrequired
    cases hrequired
  have hfilter : candidates.filter (·.1 != 1) = [] := by
    rw [List.filter_eq_nil_iff]
    intro k hk
    rw [(h k hk).1]
    decide
  rw [dropCandidate, candidate?, inFlow]
  dsimp only
  rw [if_neg hrequired, hfilter]
  rfl

variable {n : Nat}

/-- The opening brace. -/
theorem reads_openBrace
    (hindent : indent ≤ column) :
    Reads (between ⟨spaces n ++ '\x7b' :: rest, index, line, column⟩ false indent outer tokens count)
      (inFlow ⟨rest, index + n + 1, line, column + n + 1⟩ true indent outer []
        (.flowMappingStart :: tokens) (count + 1)) := by
  have hnext : Cursor.next ⟨'\x7b' :: rest, index + n, line, column + n⟩ =
      ⟨rest, index + n + 1, line, column + n + 1⟩ := next_of_isInline (by decide)
  refine reads_mark rfl ?_ rfl rfl (fun _ => hindent) ?_ rfl
  · intro c hc
    rw [← Option.some.inj hc]
    decide
  · simp [readToken, openFlow, saveCandidate, moveTo, between, push, hnext, inFlow]

/-- The comma after an entry. -/
theorem reads_comma
    (h : Loose candidates) :
    Reads (inFlow ⟨spaces n ++ ',' :: rest, index, line, column⟩ allowed indent outer candidates
        tokens count)
      (inFlow ⟨rest, index + n + 1, line, column + n + 1⟩ true indent outer []
        (.flowEntry :: tokens) (count + 1)) := by
  have hnext : Cursor.next ⟨',' :: rest, index + n, line, column + n⟩ =
      ⟨rest, index + n + 1, line, column + n + 1⟩ := next_of_isInline (by decide)
  obtain ⟨fresh, hfresh, hstale⟩ : ∃ fresh, Loose fresh ∧
      (inFlow ⟨',' :: rest, index + n, line, column + n⟩ allowed indent outer candidates tokens
        count).dropStale = .ok (inFlow ⟨',' :: rest, index + n, line, column + n⟩ allowed indent
          outer fresh tokens count) := dropStale_inFlow h
  refine reads_mark rfl (startsToken_flowMark rfl) hstale rfl (fun hflow => nomatch hflow) ?_ rfl
  have hread (s : LexState) : s.readToken ',' = s.flowEntry := by
    simp [readToken]
  rw [hread, flowEntry, dropCandidate_inFlow hfresh]
  dsimp only [bind, Except.bind, pure, Except.pure, inFlow, push]
  rw [hnext]

/-- The closing brace. -/
theorem reads_closeBrace
    (h : Loose candidates) :
    Reads (inFlow ⟨spaces n ++ '\x7d' :: rest, index, line, column⟩ allowed indent outer candidates
        tokens count)
      (between ⟨rest, index + n + 1, line, column + n + 1⟩ false indent outer
        (.flowMappingEnd :: tokens) (count + 1)) := by
  have hnext : Cursor.next ⟨'\x7d' :: rest, index + n, line, column + n⟩ =
      ⟨rest, index + n + 1, line, column + n + 1⟩ := next_of_isInline (by decide)
  obtain ⟨fresh, hfresh, hstale⟩ : ∃ fresh, Loose fresh ∧
      (inFlow ⟨'\x7d' :: rest, index + n, line, column + n⟩ allowed indent outer candidates tokens
        count).dropStale = .ok (inFlow ⟨'\x7d' :: rest, index + n, line, column + n⟩ allowed indent
          outer fresh tokens count) := dropStale_inFlow h
  refine reads_mark rfl (startsToken_flowMark rfl) hstale rfl (fun hflow => nomatch hflow) ?_ rfl
  have hread (s : LexState) : s.readToken '\x7d' = s.closeFlow .flowMappingEnd := by
    simp [readToken]
  rw [hread, closeFlow, dropCandidate_inFlow hfresh]
  simp [inFlow, between, push, hnext, bind, Except.bind, pure, Except.pure]

/-! ## Entries -/

theorem startsToken_written
    {flow : Bool} {w : Written} (hw : w.Legible flow) (rest : List Char) :
    StartsToken (w.chars ++ rest) := by
  obtain ⟨x, text, hchars, hx⟩ := Written.exists_cons hw
  intro c hc
  rw [hchars] at hc
  rwa [← Option.some.inj hc]

variable {w : Written}

/-- A scalar between braces is read, as a candidate for a key where one may start. -/
theorem reads_flowScalar
    (hw : w.Legible true) (hcolumn : 0 < column)
    (hstops : w.Stops true (indent + 1) ⟨rest, index + n + w.chars.length, line,
      column + n + w.chars.length⟩ false c)
    (hsave : (inFlow ⟨w.chars ++ rest, index + n, line, column + n⟩ allowed indent outer [] tokens
      count).saveCandidate = .ok (inFlow ⟨w.chars ++ rest, index + n, line, column + n⟩ allowed indent
        outer candidates tokens count)) :
    Reads (inFlow ⟨spaces n ++ (w.chars ++ rest), index, line, column⟩ allowed indent outer []
        tokens count)
      (inFlow c false indent outer candidates (w.token :: tokens) (count + 1)) := by
  have htoToken : (inFlow ⟨spaces n ++ (w.chars ++ rest), index, line, column⟩ allowed indent outer
        [] tokens count).toToken =
      inFlow ⟨w.chars ++ rest, index + n, line, column + n⟩ allowed indent outer [] tokens count :=
    toToken_spaces rfl (startsToken_written hw rest)
  have hborder : column + n = 0 → NoBorder (w.chars ++ rest) := by
    intro hzero
    omega
  have hshorter : (w.chars ++ rest).length ≤ (spaces n ++ (w.chars ++ rest)).length := by
    simp
  exact reads_written (congrArg dropStale htoToken) rfl hw hborder nofun hstops hsave hshorter

/-- The colon after a key between braces. -/
theorem reads_flowColon
    {k : KeyCandidate} (token : Token) (hline : k.line = line)
    (hnear : index - k.index ≤ maxKeyLength) (hbefore : k.tokens = count) :
    Reads (inFlow ⟨':' :: rest, index, line, column⟩ false indent outer [(1, k)] (token :: tokens)
        (count + 1))
      (inFlow ⟨rest, index + 1, line, column + 1⟩ false indent outer []
        (.value :: token :: .key :: tokens) (count + 3)) := by
  have hnext : Cursor.next ⟨':' :: rest, index, line, column⟩ =
      ⟨rest, index + 1, line, column + 1⟩ := next_of_isInline (by decide)
  have hread (s : LexState) (hflow : s.flow = 1) : s.readToken ':' = s.valueMark := by
    simp [readToken, atMark, hflow]
  refine reads_mark (n := 0) rfl startsToken_colon (dropStale_of_fresh ?_) rfl
    (fun hflow => absurd hflow Nat.one_ne_zero) ?_ rfl
  · intro candidate hcandidate
    rw [List.eq_of_mem_singleton hcandidate]
    exact ⟨hline, hnear⟩
  · rw [hread _ rfl]
    simp [valueMark, candidate?, insert, push, inFlow, moveTo, hbefore, hnext]
    rfl

/-- A key between braces and its colon. -/
theorem reads_flowKey
    (hw : w.Legible true) (hnear : w.chars.length ≤ maxKeyLength)
    (hgap : isGap rest.head? = true) (hcolumn : 0 < column) :
    ∃ index' column', 0 < column' ∧
      Reads (inFlow ⟨spaces n ++ (w.chars ++ ':' :: rest), index, line, column⟩ true indent outer []
          tokens count)
        (inFlow ⟨rest, index', line, column'⟩ false indent outer []
          (.value :: w.token :: .key :: tokens) (count + 3)) := by
  let k : KeyCandidate := ⟨count, false, index + n, line, column + n⟩
  let colon : Cursor :=
    ⟨':' :: rest, index + n + w.chars.length, line, column + n + w.chars.length⟩
  have hkey : Reads (inFlow ⟨spaces n ++ (w.chars ++ ':' :: rest), index, line, column⟩ true indent
        outer [] tokens count)
      (inFlow colon false indent outer [(1, k)] (w.token :: tokens) (count + 1)) :=
    reads_flowScalar hw hcolumn (Written.stops_colon hgap) rfl
  have hcolon : Reads (inFlow colon false indent outer [(1, k)] (w.token :: tokens) (count + 1))
      (inFlow ⟨rest, index + n + w.chars.length + 1, line, column + n + w.chars.length + 1⟩ false
        indent outer [] (.value :: w.token :: .key :: tokens) (count + 3)) := by
    refine reads_flowColon w.token rfl ?_ rfl
    rw [Nat.add_sub_cancel_left]
    exact hnear
  exact ⟨_, _, Nat.succ_pos _, hkey.trans hcolon⟩

/-- The last scalar of an entry between braces, up to the mark after the entry. -/
theorem reads_flowLast
    (hw : w.Legible true) {x : Char} (hx : isFlowMark x = true) (after : Nat) (hcolumn : 0 < column)
    (hsave : (inFlow ⟨w.chars ++ (spaces after ++ x :: rest), index + n, line, column + n⟩ allowed
        indent outer [] tokens count).saveCandidate =
      .ok (inFlow ⟨w.chars ++ (spaces after ++ x :: rest), index + n, line, column + n⟩ allowed
        indent outer candidates tokens count)) :
    ∃ m index' column', 0 < column' ∧
      Reads (inFlow ⟨spaces n ++ (w.chars ++ (spaces after ++ x :: rest)), index, line, column⟩
          allowed indent outer [] tokens count)
        (inFlow ⟨spaces m ++ x :: rest, index', line, column'⟩ false indent outer candidates
          (w.token :: tokens) (count + 1)) := by
  obtain ⟨m, index', column', hlater, hstops⟩ : ∃ m index' column',
      column + n + w.chars.length ≤ column' ∧
      w.Stops true (indent + 1) ⟨spaces after ++ x :: rest, index + n + w.chars.length, line,
          column + n + w.chars.length⟩ false
        ⟨spaces m ++ x :: rest, index', line, column'⟩ := Written.stops_flowMark hx after
  exact ⟨m, index', column', by omega, reads_flowScalar hw hcolumn hstops hsave⟩

/-- An entry is read up to the mark after it. -/
theorem reads_flowEntry
    {e : FlowEntry} (he : e.Legible) {x : Char} (hx : isFlowMark x = true) (hcolumn : 0 < column) :
    ∃ m index' column' fresh count', Loose fresh ∧ 0 < column' ∧
      Reads (inFlow ⟨e.chars ++ x :: rest, index, line, column⟩ true indent outer [] tokens count)
        (inFlow ⟨spaces m ++ x :: rest, index', line, column'⟩ false indent outer fresh
          (e.tokens.reverse ++ tokens) count') := by
  obtain ⟨before, key, value, after⟩ := e
  cases value with
  | none =>
      let k : KeyCandidate := ⟨count, false, index + before, line, column + before⟩
      have hloose : Loose [(1, k)] := by
        intro candidate hcandidate
        rw [List.eq_of_mem_singleton hcandidate]
        exact ⟨rfl, rfl⟩
      obtain ⟨m, index', column', hcolumn', hkey⟩ : ∃ m index' column', 0 < column' ∧
          Reads (inFlow ⟨spaces before ++ (key.chars ++ (spaces after ++ x :: rest)), index, line,
              column⟩ true indent outer [] tokens count)
            (inFlow ⟨spaces m ++ x :: rest, index', line, column'⟩ false indent outer [(1, k)]
              (key.token :: tokens) (count + 1)) := reads_flowLast he.key hx after hcolumn rfl
      refine ⟨m, index', column', [(1, k)], count + 1, hloose, hcolumn', ?_⟩
      simpa [FlowEntry.chars, FlowEntry.valueChars, FlowEntry.tokens] using hkey
  | some value =>
      obtain ⟨n, value⟩ := value
      obtain ⟨index', column', hcolumn', hkey⟩ : ∃ index' column', 0 < column' ∧
          Reads (inFlow ⟨spaces before ++ (key.chars ++ ':' :: (spaces (n + 1) ++ (value.chars ++
              (spaces after ++ x :: rest)))), index, line, column⟩ true indent outer [] tokens count)
            (inFlow ⟨spaces (n + 1) ++ (value.chars ++ (spaces after ++ x :: rest)), index', line,
                column'⟩ false indent outer []
              (.value :: key.token :: .key :: tokens) (count + 3)) :=
        reads_flowKey he.key he.near rfl hcolumn
      obtain ⟨m, index'', column'', hcolumn'', hvalue⟩ : ∃ m index'' column'', 0 < column'' ∧
          Reads (inFlow ⟨spaces (n + 1) ++ (value.chars ++ (spaces after ++ x :: rest)), index', line,
              column'⟩ false indent outer [] (.value :: key.token :: .key :: tokens) (count + 3))
            (inFlow ⟨spaces m ++ x :: rest, index'', line, column''⟩ false indent outer []
              (value.token :: .value :: key.token :: .key :: tokens) (count + 4)) :=
        reads_flowLast (he.value (n, value) rfl) hx after hcolumn' rfl
      refine ⟨m, index'', column'', [], count + 4, nofun, hcolumn'', ?_⟩
      simpa [FlowEntry.chars, FlowEntry.valueChars, FlowEntry.tokens] using hkey.trans hvalue

/-- After an entry stands a comma or the closing brace. -/
theorem exists_flowMark
    (es : List FlowEntry) (rest : List Char) :
    ∃ x more, (es.flatMap fun e => ',' :: e.chars) ++ '\x7d' :: rest = x :: more ∧
      isFlowMark x = true := by
  cases es with
  | nil => exact ⟨'\x7d', rest, rfl, rfl⟩
  | cons e es => exact ⟨',', _, rfl, rfl⟩

/-- The entries after the first one are read, up to the closing brace. -/
theorem reads_flowEntries
    {es : List FlowEntry} (hes : ∀ e ∈ es, e.Legible) (hloose : Loose candidates)
    (hcolumn : 0 < column) :
    ∃ index' column' count', Reads
      (inFlow ⟨spaces n ++ ((es.flatMap fun e => ',' :: e.chars) ++ '\x7d' :: rest), index, line,
        column⟩ false indent outer candidates tokens count)
      (between ⟨rest, index', line, column'⟩ false indent outer
        (.flowMappingEnd :: ((es.flatMap fun e => .flowEntry :: e.tokens).reverse ++ tokens))
        count') := by
  induction es generalizing n index column candidates tokens count with
  | nil => exact ⟨_, _, _, reads_closeBrace hloose⟩
  | cons e es ih =>
      rw [List.forall_mem_cons] at hes
      obtain ⟨x, more, hmore, hx⟩ := exists_flowMark es rest
      have hcomma : Reads
          (inFlow ⟨spaces n ++ ',' :: (e.chars ++ x :: more), index, line, column⟩ false indent outer
            candidates tokens count)
          (inFlow ⟨e.chars ++ x :: more, index + n + 1, line, column + n + 1⟩ true indent outer []
            (.flowEntry :: tokens) (count + 1)) := reads_comma hloose
      obtain ⟨m, index', column', fresh, count', hfresh, hcolumn', hentry⟩ :
          ∃ m index' column' fresh count', Loose fresh ∧ 0 < column' ∧
            Reads (inFlow ⟨e.chars ++ x :: more, index + n + 1, line, column + n + 1⟩ true indent
                outer [] (.flowEntry :: tokens) (count + 1))
              (inFlow ⟨spaces m ++ x :: more, index', line, column'⟩ false indent outer fresh
                (e.tokens.reverse ++ .flowEntry :: tokens) count') :=
        reads_flowEntry hes.1 hx (Nat.succ_pos _)
      rw [← hmore] at hcomma hentry
      obtain ⟨index'', column'', count'', hrest⟩ := ih hes.2 hfresh hcolumn'
      refine ⟨index'', column'', count'', ?_⟩
      simpa using (hcomma.trans hentry).trans hrest

/-- A mapping between braces is read after the spaces before it. -/
theorem reads_braces
    {es : List FlowEntry} (hes : ∀ e ∈ es, e.Legible) (hindent : indent ≤ column) :
    ∃ index' column' count', Reads
      (between ⟨spaces n ++ '\x7b' :: (FlowEntry.charsOf es ++ '\x7d' :: rest), index, line, column⟩
        false indent outer tokens count)
      (between ⟨rest, index', line, column'⟩ false indent outer
        (.flowMappingEnd :: ((FlowEntry.tokensOf es).reverse ++ .flowMappingStart :: tokens))
        count') := by
  have hopen (rest : List Char) : Reads
      (between ⟨spaces n ++ '\x7b' :: rest, index, line, column⟩ false indent outer tokens count)
      (inFlow ⟨rest, index + n + 1, line, column + n + 1⟩ true indent outer []
        (.flowMappingStart :: tokens) (count + 1)) := reads_openBrace hindent
  cases es with
  | nil =>
      have hclose : Reads
          (inFlow ⟨spaces 0 ++ '\x7d' :: rest, index + n + 1, line, column + n + 1⟩ true indent outer
            [] (.flowMappingStart :: tokens) (count + 1))
          (between ⟨rest, index + n + 1 + 0 + 1, line, column + n + 1 + 0 + 1⟩ false indent outer
            (.flowMappingEnd :: .flowMappingStart :: tokens) (count + 2)) := reads_closeBrace nofun
      exact ⟨_, _, _, (hopen _).trans hclose⟩
  | cons e es =>
      rw [List.forall_mem_cons] at hes
      obtain ⟨x, more, hmore, hx⟩ := exists_flowMark es rest
      obtain ⟨m, index', column', fresh, count', hfresh, hcolumn', hentry⟩ :
          ∃ m index' column' fresh count', Loose fresh ∧ 0 < column' ∧
            Reads (inFlow ⟨e.chars ++ x :: more, index + n + 1, line, column + n + 1⟩ true indent
                outer [] (.flowMappingStart :: tokens) (count + 1))
              (inFlow ⟨spaces m ++ x :: more, index', line, column'⟩ false indent outer fresh
                (e.tokens.reverse ++ .flowMappingStart :: tokens) count') :=
        reads_flowEntry hes.1 hx (Nat.succ_pos _)
      rw [← hmore] at hentry
      obtain ⟨index'', column'', count'', hrest⟩ := reads_flowEntries hes.2 hfresh hcolumn'
      refine ⟨index'', column'', count'', ?_⟩
      simpa [FlowEntry.charsOf, FlowEntry.tokensOf] using ((hopen _).trans hentry).trans hrest

end LexState

end RingTape.Yaml
