import RingTape.Proofs.Yaml.LineEnds.Scalar
import RingTape.Yaml.Token.Lexer

/-!
# Tokens of a text with other line ends

The lexer goes through a text and through the same text with its line ends unified in step: in
counterparts it has read the same tokens, and the same places may still turn out to be keys.  So the
two texts have the same tokens.
-/

namespace RingTape.Yaml

open Text Cursor

variable {lag : Nat → Nat} {bound : Nat}

/-! ## States -/

/-- Candidates for keys at a place of a text and at its counterpart. -/
structure KeyAlike (lag : Nat → Nat) (e e' : Nat × KeyCandidate) : Prop where
  depth : e'.1 = e.1
  tokens : e'.2.tokens = e.2.tokens
  required : e'.2.required = e.2.required
  line : e'.2.line = e.2.line
  column : e'.2.column = e.2.column
  index : e.2.index = e'.2.index + lag e.2.line

/-- States of the lexer at a place of a text and at its counterpart. -/
structure LexAlike (lag : Nat → Nat) (bound : Nat) (s s' : LexState) : Prop where
  cursor : Cursor.Alike lag bound s.cursor s'.cursor
  flow : s'.flow = s.flow
  indent : s'.indent = s.indent
  outer : s'.outer = s.outer
  keyAllowed : s'.keyAllowed = s.keyAllowed
  candidates : List.Forall₂ (KeyAlike lag) s.candidates s'.candidates
  tokens : s'.tokens = s.tokens
  count : s'.count = s.count

/-- States of the lexer at a place of a text and at its counterpart, the place and the depth that
the state `u` is at. -/
structure LexAlikeAt (lag : Nat → Nat) (bound : Nat) (u s s' : LexState) : Prop where
  alike : LexAlike lag bound s s'
  place : s.cursor = u.cursor
  depth : s.flow = u.flow

namespace LexState

variable {s s' : LexState}

theorem alike_start
    (text : List Char) :
    LexAlike (fun n => pairs n text) (unifyLineEnds text).length (start text)
      (start (unifyLineEnds text)) where
  cursor := Cursor.alike_start text
  flow := rfl
  indent := rfl
  outer := rfl
  keyAllowed := rfl
  candidates := .nil
  tokens := rfl
  count := rfl

theorem alike_push
    (token : Token) (h : LexAlike lag bound s s') :
    LexAlike lag bound (s.push token) (s'.push token) :=
  { h with
    tokens := congrArg (token :: ·) h.tokens
    count := congrArg (· + 1) h.count }

theorem alike_insert
    (before : Nat) (token : Token) (h : LexAlike lag bound s s') :
    LexAlike lag bound (s.insert before token) (s'.insert before token) :=
  { h with
    tokens := by
      unfold LexState.insert
      rw [h.tokens, h.count]
    count := congrArg (· + 1) h.count }

theorem dropStale_eq
    (s : LexState) :
    s.dropStale =
      if s.candidates.any fun e => s.isStale e.2 && e.2.required then .error .malformed
      else .ok { s with candidates := s.candidates.filter fun e => !s.isStale e.2 } :=
  rfl

/-- On its line a state is as far from a candidate as its counterpart is. -/
theorem isStale_eq
    {e e' : Nat × KeyCandidate} (h : LexAlike lag bound s s') (he : KeyAlike lag e e') :
    s'.isStale e'.2 = s.isStale e.2 := by
  unfold isStale
  rw [he.line, h.cursor.line]
  -- on the line of the candidate, both are off by what went missing in the lines before
  by_cases hline : e.2.line = s.cursor.line
  · have hdistance : s.cursor.index - e.2.index = s'.cursor.index - e'.2.index := by
      rw [he.index, h.cursor.index, hline, Nat.add_sub_add_right]
    rw [hdistance]
  · rw [bne_iff_ne.mpr hline, Bool.true_or, Bool.true_or]

theorem any_eq_of_forall₂
    {α : Type} {R : α → α → Prop} {p p' : α → Bool} {l l' : List α} (h : List.Forall₂ R l l')
    (hp : ∀ a a', R a a' → p' a' = p a) :
    l'.any p' = l.any p := by
  induction h with
  | nil => rfl
  | cons ha _ ih => rw [List.any_cons, List.any_cons, hp _ _ ha, ih]

theorem corresponds_dropStale
    (h : LexAlike lag bound s s') :
    Corresponds (LexAlike lag bound) s.dropStale s'.dropStale := by
  rw [dropStale_eq, dropStale_eq,
    any_eq_of_forall₂ h.candidates fun e e' he => by rw [isStale_eq h he, he.required]]
  split
  · exact .error _
  · refine .ok { h with candidates := List.rel_filter ?_ h.candidates }
    intro e e' he
    dsimp only
    rw [isStale_eq h he]

/-- The candidates that are not stale wait for the same tokens. -/
theorem foldl_min_eq_of_forall₂
    {candidates candidates' : List (Nat × KeyCandidate)}
    (h : List.Forall₂ (KeyAlike lag) candidates candidates') (n : Nat) :
    candidates'.foldl (fun n e => min n e.2.tokens) n =
      candidates.foldl (fun n e => min n e.2.tokens) n := by
  induction h generalizing n with
  | nil => rfl
  | cons he _ ih => rw [List.foldl_cons, List.foldl_cons, he.tokens, ih]

theorem settled_eq
    (h : LexAlike lag bound s s') :
    s'.settled = s.settled := by
  have hfresh : List.Forall₂ (KeyAlike lag) (s.candidates.filter fun e => !s.isStale e.2)
      (s'.candidates.filter fun e => !s'.isStale e.2) :=
    List.rel_filter (fun e e' he => by dsimp only; rw [isStale_eq h he]) h.candidates
  unfold settled
  rw [h.count]
  exact foldl_min_eq_of_forall₂ hfresh s.count

theorem broken_eq
    (fault : Fault) (h : LexAlike lag bound s s') :
    s'.broken fault = s.broken fault := by
  rw [broken, broken, h.tokens, settled_eq h]

theorem lookup_alike
    {candidates candidates' : List (Nat × KeyCandidate)}
    (h : List.Forall₂ (KeyAlike lag) candidates candidates') (depth : Nat) :
    candidates.lookup depth = none ∧ candidates'.lookup depth = none ∨
      ∃ k k', candidates.lookup depth = some k ∧ candidates'.lookup depth = some k' ∧
        KeyAlike lag (depth, k) (depth, k') := by
  induction h with
  | nil => exact .inl ⟨rfl, rfl⟩
  | @cons e e' l l' he _ ih =>
      obtain ⟨n, k⟩ := e
      obtain ⟨n', k'⟩ := e'
      obtain rfl : n' = n := he.depth
      by_cases hdepth : depth = n'
      · right
        subst hdepth
        exact ⟨k, k', by simp, by simp, he⟩
      · simpa [List.lookup_cons, beq_false_of_ne hdepth] using ih

theorem candidate?_alike
    (h : LexAlike lag bound s s') :
    s.candidate? = none ∧ s'.candidate? = none ∨
      ∃ k k', s.candidate? = some k ∧ s'.candidate? = some k' ∧
        KeyAlike lag (s.flow, k) (s.flow, k') := by
  unfold candidate?
  rw [h.flow]
  exact lookup_alike h.candidates s.flow

/-- The state without its candidate at this depth. -/
def withoutCandidate (s : LexState) : LexState :=
  { s with candidates := s.candidates.filter (·.1 != s.flow) }

theorem alike_withoutCandidate
    (h : LexAlike lag bound s s') :
    LexAlike lag bound s.withoutCandidate s'.withoutCandidate := by
  refine { h with candidates := List.rel_filter ?_ h.candidates }
  intro e e' he
  dsimp only
  rw [he.depth, h.flow]

theorem corresponds_dropCandidate
    (h : LexAlike lag bound s s') :
    Corresponds (LexAlikeAt lag bound s) s.dropCandidate s'.dropCandidate := by
  unfold dropCandidate
  rcases candidate?_alike h with ⟨hnone, hnone'⟩ | ⟨k, k', hk, hk', halike⟩
  · rw [hnone, hnone']
    exact .ok ⟨alike_withoutCandidate h, rfl, rfl⟩
  · have hrequired : k'.required = k.required := halike.required
    rw [hk, hk', Option.any_some, Option.any_some, hrequired]
    split
    · exact .error _
    · exact .ok ⟨alike_withoutCandidate h, rfl, rfl⟩

theorem corresponds_saveCandidate
    (h : LexAlike lag bound s s') :
    Corresponds (LexAlikeAt lag bound s) s.saveCandidate s'.saveCandidate := by
  unfold saveCandidate
  rw [h.keyAllowed]
  split
  · refine Corresponds.bind (corresponds_dropCandidate h) ?_
    rintro t t' ⟨ht, hplace, hdepth⟩
    refine .ok ⟨{ ht with candidates := .cons ⟨ht.flow, ht.count, ?_, ht.cursor.line,
      ht.cursor.column, ht.cursor.index⟩ ht.candidates }, hplace, hdepth⟩
    dsimp only
    rw [h.flow, h.indent, h.cursor.column]
  · exact .ok ⟨h, rfl, rfl⟩

theorem alike_unwind_go
    (column : Int) (outer : List Int) (h : LexAlike lag bound s s') :
    LexAlike lag bound (unwind.go column outer s) (unwind.go column outer s') := by
  induction outer generalizing s s' with
  | nil => exact h
  | cons indent outer ih =>
      unfold unwind.go
      rw [h.indent]
      split
      · exact ih (alike_push .blockEnd { h with indent := rfl, outer := rfl })
      · exact h

theorem alike_unwind
    (column : Int) (h : LexAlike lag bound s s') :
    LexAlike lag bound (s.unwind column) (s'.unwind column) := by
  unfold unwind
  rw [h.flow, h.outer]
  split
  · exact alike_unwind_go column s.outer h
  · exact h

theorem alike_indentTo
    (column : Int) (h : LexAlike lag bound s s') :
    (s'.indentTo column).1 = (s.indentTo column).1 ∧
      LexAlike lag bound (s.indentTo column).2 (s'.indentTo column).2 := by
  unfold indentTo
  rw [h.indent]
  split
  · exact ⟨rfl, { h with indent := rfl, outer := congrArg (s.indent :: ·) h.outer }⟩
  · exact ⟨rfl, h⟩

theorem indentTo_place
    (column : Int) (s : LexState) :
    (s.indentTo column).2.cursor = s.cursor ∧ (s.indentTo column).2.flow = s.flow := by
  unfold indentTo
  split <;> exact ⟨rfl, rfl⟩

theorem corresponds_openBlock
    (token : Token) (h : LexAlike lag bound s s') :
    Corresponds (LexAlikeAt lag bound s) (s.openBlock token) (s'.openBlock token) := by
  unfold openBlock
  rw [h.flow, h.keyAllowed]
  split
  · exact .ok ⟨h, rfl, rfl⟩
  · split
    · exact .error _
    · have hindent := alike_indentTo s.cursor.column h
      obtain ⟨hplace, hdepth⟩ := indentTo_place s.cursor.column s
      rw [h.cursor.column]
      dsimp only
      rw [hindent.1]
      split
      · exact .ok ⟨alike_push token hindent.2, hplace, hdepth⟩
      · exact .ok ⟨hindent.2, hplace, hdepth⟩

/-! ## Between tokens -/

theorem readAlike_skipToToken
    {fuel fuel' : Nat} {c c' : Cursor} (hfuel : c'.rest.length < fuel)
    (hfuel' : c'.rest.length < fuel') (h : Cursor.Alike lag bound c c') :
    ReadAlike lag bound (skipToToken fuel c) (skipToToken fuel' c') := by
  induction fuel generalizing fuel' c c' with
  | zero => exact absurd hfuel (Nat.not_lt_zero _)
  | succ fuel ih =>
      obtain ⟨fuel', rfl⟩ := Nat.exists_eq_add_one_of_ne_zero (Nat.ne_zero_of_lt hfuel')
      have hplace := h.skipSpaces.skipComment
      have hle : c'.skipSpaces.skipComment.rest.length ≤ c'.rest.length :=
        (h.weaken (Nat.le_refl _)).skipSpaces.skipComment.bounded
      unfold skipToToken
      dsimp only
      rcases hplace.takeBreak with hgoes | ⟨x, d, d', hends⟩
      · rw [hgoes.here, hgoes.there]
        exact ⟨rfl, hplace⟩
      · have hshorter := hends.shorter
        have hmore : ReadAlike lag bound (skipToToken fuel d) (skipToToken fuel' d') :=
          ih (by omega) (by omega) hends.alike
        rw [hends.here, hends.there]
        exact ⟨rfl, hmore.alike⟩

/-- The place after a byte order mark at the very start of the text. -/
def behindMark (c : Cursor) : Cursor :=
  if c.index == 0 && c.at? byteOrderMark then c.next else c

theorem alike_behindMark
    {c c' : Cursor} (h : Cursor.Alike lag bound c c') :
    Cursor.Alike lag bound (behindMark c) (behindMark c') := by
  have hindex : (c'.index == 0) = (c.index == 0) := by
    rw [Bool.eq_iff_iff, beq_iff_eq, beq_iff_eq]
    refine ⟨h.first, fun hzero => ?_⟩
    have hindex := h.index
    omega
  unfold behindMark
  rw [hindex, h.at?_eq (by decide)]
  by_cases hmark : (c.index == 0 && c.at? byteOrderMark) = true
  · rw [if_pos hmark, if_pos hmark]
    rw [Bool.and_eq_true] at hmark
    exact h.next_at? (by decide) hmark.2
  · rw [if_neg hmark, if_neg hmark]
    exact h

theorem alike_toToken
    (h : LexAlike lag bound s s') :
    LexAlike lag bound s.toToken s'.toToken := by
  have hplace := alike_behindMark h.cursor
  have hle := hplace.length_le
  have hskip : ReadAlike lag bound
      (skipToToken ((behindMark s.cursor).rest.length + 1) (behindMark s.cursor))
      (skipToToken ((behindMark s'.cursor).rest.length + 1) (behindMark s'.cursor)) :=
    readAlike_skipToToken (by omega) (by omega) hplace
  refine { h with cursor := hskip.alike, keyAllowed := ?_ }
  have hended := hskip.value
  unfold behindMark at hended
  simp only [toToken, h.keyAllowed, h.flow, hended]

/-! ## One token -/

theorem corresponds_separate
    (token : Token) {after after' : Cursor} {bound' : Nat} (h : LexAlike lag bound s s')
    (hafter : Cursor.Alike lag bound' after after') :
    Corresponds (LexAlike lag bound') (s.separate token after) (s'.separate token after') := by
  refine Corresponds.bind (corresponds_dropCandidate (alike_unwind (-1) h)) ?_
  rintro t t' ⟨ht, -⟩
  exact .ok (alike_push token { ht with cursor := hafter, keyAllowed := rfl })

/-- The state in which a candidate has become a key. -/
def claimKey (k : KeyCandidate) (s : LexState) : LexState :=
  let s := s.withoutCandidate.insert k.tokens .key
  let (starts, s) := if s.flow == 0 then s.indentTo k.column else (false, s)
  if starts then s.insert k.tokens .blockMappingStart else s

theorem alike_claimKey
    {k k' : KeyCandidate} (htokens : k'.tokens = k.tokens) (hcolumn : k'.column = k.column)
    (h : LexAlike lag bound s s') :
    LexAlikeAt lag bound s (s.claimKey k) (s'.claimKey k') := by
  have hkey := alike_insert k.tokens .key (alike_withoutCandidate h)
  unfold claimKey
  rw [htokens, hcolumn]
  dsimp only
  rw [hkey.flow]
  by_cases hflow : ((s.withoutCandidate.insert k.tokens .key).flow == 0) = true
  · have hindent := alike_indentTo k.column hkey
    have hplace := indentTo_place k.column (s.withoutCandidate.insert k.tokens .key)
    rw [if_pos hflow, if_pos hflow]
    revert hindent hplace
    rcases (s.withoutCandidate.insert k.tokens .key).indentTo k.column with ⟨_, t⟩
    rcases (s'.withoutCandidate.insert k.tokens .key).indentTo k.column with ⟨starts, t'⟩
    rintro ⟨rfl, ht⟩ hplace
    dsimp only at ht hplace ⊢
    split
    · exact ⟨alike_insert k.tokens .blockMappingStart ht, hplace.1, hplace.2⟩
    · exact ⟨ht, hplace.1, hplace.2⟩
  · rw [if_neg hflow, if_neg hflow]
    exact ⟨hkey, rfl, rfl⟩

theorem valueMark_of_candidate
    {k : KeyCandidate} (hk : s.candidate? = some k) :
    s.valueMark = .ok (({ s.claimKey k with
      keyAllowed := false, cursor := (s.claimKey k).cursor.next }).push .value) := by
  rw [valueMark, hk]
  rfl

section

variable {u : LexState} {x : Char} (hx : isBreak x = false) (hhere : u.cursor.peek? = some x)

include hx hhere

/-- Both states pass the character that stands there. -/
theorem alike_next
    (h : LexAlikeAt lag (bound + 1) u s s') :
    Cursor.Alike lag bound s.cursor.next s'.cursor.next := by
  apply h.alike.cursor.pass hx
  rwa [h.place]

/-- Both states drop their candidates at this depth and pass the character that stands there, with a
token for it. -/
theorem corresponds_mark
    (token : Token) (allowed : Nat → Bool) (h : LexAlikeAt lag (bound + 1) u s s') :
    Corresponds (LexAlike lag bound)
      (do
        let t ← s.dropCandidate
        return ({ t with keyAllowed := allowed t.flow, cursor := t.cursor.next }).push token)
      (do
        let t ← s'.dropCandidate
        return ({ t with keyAllowed := allowed t.flow, cursor := t.cursor.next }).push token) := by
  refine Corresponds.bind (corresponds_dropCandidate h.alike) ?_
  intro t t' ht
  rw [← h.place] at hhere
  have hnext := alike_next hx hhere ht
  obtain ⟨ht, -⟩ := ht
  exact .ok (alike_push token
    { ht with cursor := hnext, keyAllowed := congrArg allowed ht.flow })

end

section

variable {x : Char} (hx : isBreak x = false) (hhere : s.cursor.peek? = some x)
  (h : LexAlike lag (bound + 1) s s')

include hx hhere h

theorem corresponds_openFlow
    (token : Token) :
    Corresponds (LexAlike lag bound) (s.openFlow token) (s'.openFlow token) := by
  refine Corresponds.bind (corresponds_saveCandidate h) ?_
  intro t t' ht
  have hnext := alike_next hx hhere ht
  obtain ⟨ht, -⟩ := ht
  exact .ok (alike_push token
    { ht with cursor := hnext, keyAllowed := rfl, flow := congrArg (· + 1) ht.flow })

theorem corresponds_closeFlow
    (token : Token) :
    Corresponds (LexAlike lag bound) (s.closeFlow token) (s'.closeFlow token) := by
  refine Corresponds.bind (corresponds_dropCandidate h) ?_
  intro t t' ht
  have hnext := alike_next hx hhere ht
  obtain ⟨ht, -⟩ := ht
  dsimp only
  rw [ht.flow]
  split
  · exact .error _
  · exact .ok (alike_push token { ht with cursor := hnext, keyAllowed := rfl, flow := rfl })

theorem corresponds_flowEntry :
    Corresponds (LexAlike lag bound) s.flowEntry s'.flowEntry :=
  corresponds_mark hx hhere .flowEntry (fun _ => true) ⟨h, rfl, rfl⟩

theorem corresponds_blockEntry :
    Corresponds (LexAlike lag bound) s.blockEntry s'.blockEntry := by
  refine Corresponds.bind (corresponds_openBlock .blockSequenceStart h) ?_
  intro t t' ht
  exact corresponds_mark hx hhere .blockEntry (fun _ => true) ht

theorem corresponds_explicitKey :
    Corresponds (LexAlike lag bound) s.explicitKey s'.explicitKey := by
  refine Corresponds.bind (corresponds_openBlock .blockMappingStart h) ?_
  intro t t' ht
  exact corresponds_mark hx hhere .key (fun flow => flow == 0) ht

theorem corresponds_valueMark :
    Corresponds (LexAlike lag bound) s.valueMark s'.valueMark := by
  rcases candidate?_alike h with ⟨hnone, hnone'⟩ | ⟨k, k', hk, hk', halike⟩
  · unfold valueMark
    rw [hnone, hnone']
    refine Corresponds.bind (corresponds_openBlock .blockMappingStart h) ?_
    intro t t' ht
    exact corresponds_mark hx hhere .value (fun flow => flow == 0) ht
  · have hkey := alike_claimKey halike.tokens halike.column h
    have hnext := alike_next hx hhere hkey
    obtain ⟨hkey, -⟩ := hkey
    rw [valueMark_of_candidate hk, valueMark_of_candidate hk']
    exact .ok (alike_push .value { hkey with cursor := hnext, keyAllowed := rfl })

end

/-- A token that may belong to a key, where its reader takes some character. -/
theorem corresponds_keyPart
    {reader : Reader Token} (h : LexAlike lag (bound + 1) s s')
    (hreader : ∀ c', Cursor.Alike lag (bound + 1) s.cursor c' →
      Corresponds (ReadAlike lag bound) (reader s.cursor) (reader c')) :
    Corresponds (LexAlike lag bound) (s.keyPart reader) (s'.keyPart reader) := by
  refine Corresponds.bind (corresponds_saveCandidate h) ?_
  rintro t t' ⟨ht, hplace, -⟩
  have hcursor := ht.cursor
  rw [hplace] at hcursor
  have hread := hreader t'.cursor hcursor
  rw [← hplace] at hread
  refine Corresponds.bind hread ?_
  rintro ⟨_, c⟩ ⟨token, c'⟩ ⟨rfl, hc⟩
  exact .ok (alike_push token { ht with cursor := hc, keyAllowed := rfl })

theorem corresponds_blockScalar
    {x : Char} (hx : isBreak x = false) (hhere : s.cursor.peek? = some x)
    (h : LexAlike lag (bound + 1) s s') (folded : Bool) :
    Corresponds (LexAlike lag bound) (s.blockScalar folded) (s'.blockScalar folded) := by
  refine Corresponds.bind (corresponds_dropCandidate h) ?_
  rintro t t' ⟨ht, hplace, -⟩
  have hread : Corresponds (ReadAlike lag bound) (readBlock folded t.indent t.cursor)
      (readBlock folded t'.indent t'.cursor) := by
    rw [← hplace] at hhere
    rw [ht.indent]
    exact corresponds_readBlock folded t.indent hx ht.cursor hhere
  refine Corresponds.bind hread ?_
  rintro ⟨_, c⟩ ⟨token, c'⟩ ⟨rfl, hc⟩
  exact .ok (alike_push token { ht with cursor := hc, keyAllowed := rfl })

/-- Whether a plain scalar starts with a character, by what follows it. -/
theorem startsPlain_eq
    {x : Char} (hx : isBreak x = false) (hhere : s.cursor.peek? = some x)
    (h : LexAlike lag bound s s') :
    s'.startsPlain x = s.startsPlain x := by
  unfold startsPlain
  rw [h.cursor.peekAt?_one hhere hx, isGap_map, h.flow]

theorem atMark_eq
    {x : Char} (hx : isBreak x = false) (hhere : s.cursor.peek? = some x)
    (h : LexAlike lag bound s s') :
    s'.atMark = s.atMark := by
  unfold atMark
  rw [h.cursor.peekAt?_one hhere hx, isGap_map, h.flow]

/-- A character that starts a plain scalar does not end it. -/
theorem endsPlain_of_startsPlain
    {x : Char} (hstarts : s.startsPlain x = true) :
    endsPlain (s.flow != 0) x (s.cursor.peekAt? 1) = false ∧ x ≠ '#' := by
  simp only [startsPlain, Bool.or_eq_true, Bool.and_eq_true, Bool.not_eq_true', beq_iff_eq,
    List.contains_eq_mem, decide_eq_false_iff_not] at hstarts
  rcases hstarts with ⟨hgap, hindicator⟩ | ⟨hgap, rfl | ⟨hflow, rfl | rfl⟩⟩
  · have hsubset : ",?[]\x7b\x7d".toList ⊆ "-?:,[]\x7b\x7d#&*!|>'\"%@`".toList := by decide
    have hflow : x ∉ ",?[]\x7b\x7d".toList := fun hx => hindicator (hsubset hx)
    have hcolon : x ≠ ':' := by
      rintro rfl
      exact hindicator (by decide)
    have hcomment : x ≠ '#' := by
      rintro rfl
      exact hindicator (by decide)
    refine ⟨?_, hcomment⟩
    rw [endsPlain, hgap, beq_false_of_ne hcolon, List.contains_eq_mem, decide_eq_false hflow]
    simp
  · exact ⟨by simp [endsPlain, isGap, isBreak], by decide⟩
  · exact ⟨by simp [endsPlain, isGap, isBreak, hflow], by decide⟩
  · have hcolon : isGap (some ':') = false := by decide
    exact ⟨by simp [endsPlain, hgap, hcolon, hflow], by decide⟩

/-- A plain scalar that starts has a run of characters. -/
theorem plainRun_ne_nil
    {x : Char} (hhere : s.cursor.peek? = some x) (hstarts : s.startsPlain x = true) :
    s.cursor.at? '#' = false ∧ plainRun (s.flow != 0) s.cursor.rest ≠ [] := by
  obtain ⟨hends, hcomment⟩ := endsPlain_of_startsPlain hstarts
  obtain ⟨rest, hrest⟩ := List.head?_eq_some_iff.mp hhere
  have hnext : s.cursor.peekAt? 1 = rest.head? := by
    rw [Cursor.peekAt?, hrest, List.head?_eq_getElem?]
    rfl
  constructor
  · rw [Cursor.at?, hhere]
    exact beq_false_of_ne fun heq => hcomment (Option.some.inj heq)
  · rw [hrest, plainRun, ← hnext, hends]
    exact List.cons_ne_nil _ _

theorem corresponds_plainScalar
    {x : Char} (hhere : s.cursor.peek? = some x)
    (h : LexAlike lag (bound + 1) s s') (hstarts : s.startsPlain x = true) :
    Corresponds (LexAlike lag bound) s.plainScalar s'.plainScalar := by
  obtain ⟨hcomment, hrun⟩ := plainRun_ne_nil hhere hstarts
  refine Corresponds.bind (corresponds_saveCandidate h) ?_
  rintro t t' ⟨ht, hplace, hdepth⟩
  have hle := ht.cursor.length_le
  rw [← hplace] at hcomment hrun
  rw [← hdepth] at hrun
  have htext : ScanAlike lag bound
      (plainText (t.flow != 0) (t.indent + 1) (t.cursor.rest.length + 1) [] [] false t.cursor)
      (plainText (t'.flow != 0) (t'.indent + 1) (t'.cursor.rest.length + 1) [] [] false
        t'.cursor) := by
    rw [ht.flow, ht.indent]
    exact scanAlike_plainText_run (scanAlike_plainText _ _ _) (by omega) (by omega) ht.cursor
      hcomment hrun
  revert htext
  rcases plainText _ _ _ _ _ _ t.cursor with ⟨_, _, c⟩
  rcases plainText _ _ _ _ _ _ t'.cursor with ⟨text, ended, c'⟩
  rintro ⟨rfl, rfl, hc⟩
  exact .ok (alike_push (.scalar true text) { ht with cursor := hc, keyAllowed := rfl })

/-- No line ends in a line that separates documents. -/
theorem not_isBreak_of_atSeparator
    {c : Cursor} (h : c.atSeparator = true) :
    ∀ x ∈ c.rest.take 3, isBreak x = false := by
  rw [Cursor.atSeparator, Bool.and_eq_true, Bool.or_eq_true, beq_iff_eq, beq_iff_eq] at h
  rcases h.1 with hdashes | hpoints
  · rw [hdashes]
    simp [isBreak]
  · rw [hpoints]
    simp [isBreak]

theorem corresponds_border
    {x : Char} (token : Token) (hx : isBreak x = false) (hhere : s.cursor.peek? = some x)
    (h : LexAlike lag (bound + 1) s s') (hseparator : s.cursor.atSeparator = true) :
    Corresponds (LexAlike lag bound) (s.separate token (s.cursor.advance 3))
      (s'.separate token (s'.cursor.advance 3)) := by
  apply corresponds_separate token h
  obtain ⟨rest, hrest⟩ := List.head?_eq_some_iff.mp hhere
  apply (h.cursor.pass hx hhere).advance (n := 2)
  intro y hy
  apply not_isBreak_of_atSeparator hseparator
  rw [rest_next, hrest] at hy
  rw [hrest]
  exact List.mem_cons_of_mem x hy

theorem readToken_of_isBreak
    {x : Char} (hx : isBreak x = true) (s : LexState) :
    s.readToken x = .error .malformed := by
  rcases eq_of_isBreak hx with rfl | rfl | rfl | rfl | rfl <;>
    simp [readToken, startsPlain, isGap, isBreak]

theorem corresponds_readToken
    {x : Char} (hx : isBreak x = false) (hhere : s.cursor.peek? = some x)
    (h : LexAlike lag (bound + 1) s s') :
    Corresponds (LexAlike lag bound) (s.readToken x) (s'.readToken x) := by
  have hgap : isGap (s'.cursor.peekAt? 1) = isGap (s.cursor.peekAt? 1) := by
    rw [h.cursor.peekAt?_one hhere hx, isGap_map]
  unfold readToken
  dsimp only
  rw [h.cursor.column, h.cursor.atSeparator_eq, hgap, atMark_eq hx hhere h,
    startsPlain_eq hx hhere h, h.flow]
  refine .ite (fun hdirective => ?_) fun _ => ?_
  · rw [Bool.and_eq_true, beq_iff_eq] at hdirective
    obtain ⟨rfl, -⟩ := hdirective
    refine Corresponds.bind (corresponds_readDirective h.cursor hhere) ?_
    rintro ⟨_, c⟩ ⟨token, c'⟩ ⟨rfl, hc⟩
    exact corresponds_separate token h hc
  refine .ite (fun hborder => ?_) fun _ => ?_
  · simp only [Bool.and_eq_true] at hborder
    exact corresponds_border .documentStart hx hhere h hborder.2.2
  refine .ite (fun hborder => ?_) fun _ => ?_
  · simp only [Bool.and_eq_true] at hborder
    exact corresponds_border .documentEnd hx hhere h hborder.2.2
  refine .ite (fun _ => corresponds_openFlow hx hhere h .flowSequenceStart) fun _ => ?_
  refine .ite (fun _ => corresponds_openFlow hx hhere h .flowMappingStart) fun _ => ?_
  refine .ite (fun _ => corresponds_closeFlow hx hhere h .flowSequenceEnd) fun _ => ?_
  refine .ite (fun _ => corresponds_closeFlow hx hhere h .flowMappingEnd) fun _ => ?_
  refine .ite (fun _ => corresponds_flowEntry hx hhere h) fun _ => ?_
  refine .ite (fun _ => corresponds_blockEntry hx hhere h) fun _ => ?_
  refine .ite (fun _ => corresponds_explicitKey hx hhere h) fun _ => ?_
  refine .ite (fun _ => corresponds_valueMark hx hhere h) fun _ => ?_
  refine .ite (fun _ => corresponds_keyPart h fun c' hc => ?_) fun _ => ?_
  · refine Corresponds.bind (corresponds_readAnchorName hc hx hhere) ?_
    rintro ⟨_, d⟩ ⟨name, d'⟩ ⟨rfl, hd⟩
    exact .ok ⟨rfl, hd⟩
  refine .ite (fun _ => corresponds_keyPart h fun c' hc => ?_) fun _ => ?_
  · refine Corresponds.bind (corresponds_readAnchorName hc hx hhere) ?_
    rintro ⟨_, d⟩ ⟨name, d'⟩ ⟨rfl, hd⟩
    exact .ok ⟨rfl, hd⟩
  refine .ite (fun htag => corresponds_keyPart h fun c' hc => ?_) fun _ => ?_
  · rw [beq_iff_eq.mp htag] at hhere
    exact corresponds_readTag hc hhere
  refine .ite (fun _ => corresponds_blockScalar hx hhere h false) fun _ => ?_
  refine .ite (fun _ => corresponds_blockScalar hx hhere h true) fun _ => ?_
  refine .ite (fun _ => corresponds_keyPart h fun c' hc => ?_) fun _ => ?_
  · exact corresponds_readQuoted hx hc hhere
  exact .ite (fun hstarts => corresponds_plainScalar hhere h hstarts) fun _ => .error _

/-! ## All tokens -/

/-- What is reached at a place of a text and at its counterpart after one more token: the end of
both, with the same tokens, or states that are alike again. -/
inductive StepAlike (lag : Nat → Nat) (bound : Nat) : LexState × Bool → LexState × Bool → Prop
  | ended {t t' : LexState} (tokens : t'.tokens = t.tokens) :
    StepAlike lag bound (t, true) (t', true)
  | goesOn {t t' : LexState} {n : Nat} (shorter : n < bound) (alike : LexAlike lag n t t') :
    StepAlike lag bound (t, false) (t', false)

theorem corresponds_next
    (h : LexAlike lag bound s s') :
    Corresponds (StepAlike lag bound) s.next s'.next := by
  refine Corresponds.bind (corresponds_dropStale (alike_toToken h)) ?_
  intro t t' ht
  have hunwound := alike_unwind t.cursor.column ht
  rw [ht.cursor.column]
  dsimp only
  cases hunwound.cursor.sees with
  | nothing here there =>
      rw [here, there]
      refine Corresponds.bind (corresponds_dropCandidate (alike_unwind (-1) hunwound)) ?_
      rintro u u' ⟨hu, -⟩
      exact .ok (.ended hu.tokens)
  | lineEnd x x' hx hx' here there =>
      rw [here, there]
      dsimp only
      rw [readToken_of_isBreak hx, readToken_of_isBreak hx']
      exact .error _
  | inner x hx here there next shorter =>
      obtain ⟨m, hm⟩ := exists_length_eq there
      have hbound := hunwound.cursor.bounded
      have hstrict : LexAlike lag (m + 1) (t.unwind t.cursor.column) (t'.unwind t.cursor.column) :=
        { hunwound with cursor := hunwound.cursor.weaken hm.le }
      rw [here, there]
      refine Corresponds.bind (corresponds_readToken hx here hstrict) ?_
      intro u u' hu
      exact .ok (.goesOn (by omega) hu)

theorem finish_eq
    {fuel fuel' : Nat} (hfuel : bound < fuel) (hfuel' : bound < fuel')
    (h : LexAlike lag bound s s') :
    s'.finish fuel' = s.finish fuel := by
  induction fuel generalizing fuel' bound s s' with
  | zero => exact absurd hfuel (Nat.not_lt_zero _)
  | succ fuel ih =>
      obtain ⟨fuel', rfl⟩ := Nat.exists_eq_add_one_of_ne_zero (Nat.ne_zero_of_lt hfuel')
      have hnext := corresponds_next h
      rw [finish, finish]
      revert hnext
      generalize s.next = r
      generalize s'.next = r'
      intro hnext
      cases hnext with
      | error fault => exact broken_eq fault h
      | ok hstep =>
          cases hstep with
          | ended htokens => exact congrArg List.reverse htokens
          | goesOn hshorter halike =>
              -- the token has taken some character, so that neither runs out of turns
              exact ih (by omega) (by omega) halike

end LexState

theorem all_unifyLineEnds
    {p : Char → Bool} (hp : p '\r' = p '\n') (text : List Char) :
    (unifyLineEnds text).all p = text.all p := by
  fun_induction unifyLineEnds text with
  | case1 => rfl
  | case2 rest ih => simp [ih, hp]
  | case3 x rest hpair ih =>
      rw [List.all_cons, List.all_cons, ih]
      by_cases hx : x = '\r'
      · subst hx
        rw [hp]
        rfl
      · rw [if_neg (by simpa using hx)]

/-- A text has the tokens of the text with its line ends unified. -/
theorem tokens_unifyLineEnds
    (text : List Char) :
    tokens (unifyLineEnds text) = tokens text := by
  have hle := length_unifyLineEnds_le text
  unfold tokens
  rw [all_unifyLineEnds (by decide)]
  split
  · exact LexState.finish_eq (by omega) (by omega) (LexState.alike_start text)
  · rfl

end RingTape.Yaml
