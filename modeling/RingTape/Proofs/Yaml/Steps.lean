import RingTape.Proofs.Yaml.Marks

/-!
# Steps of the lexer

A text is read token by token, and each token leaves less of it.  So what the lexer reads from a
state is what it reads from any state that follows.
-/

namespace RingTape.Yaml

open Cursor

namespace LexState

/-! ## Steps -/

/-- From this state the text is read to its end, with these tokens. -/
inductive Finishes : LexState → List Token → Prop where
  | done {s s' : LexState} (next : s.next = .ok (s', true)) : Finishes s s'.tokens.reverse
  | step {s s' : LexState} {tokens : List Token} (next : s.next = .ok (s', false))
      (shorter : s'.cursor.rest.length < s.cursor.rest.length) (finishes : Finishes s' tokens) :
      Finishes s tokens

theorem Finishes.finish_eq
    {s : LexState} {tokens : List Token} (h : Finishes s tokens) {fuel : Nat}
    (hfuel : s.cursor.rest.length < fuel) :
    s.finish fuel = tokens := by
  induction h generalizing fuel with
  | done next =>
      obtain ⟨fuel, rfl⟩ := Nat.exists_eq_succ_of_ne_zero (Nat.ne_zero_of_lt hfuel)
      simp only [finish, next]
  | step next shorter _ ih =>
      obtain ⟨fuel, rfl⟩ := Nat.exists_eq_succ_of_ne_zero (Nat.ne_zero_of_lt hfuel)
      simp only [finish, next]
      exact ih (Nat.lt_of_lt_of_le shorter (Nat.le_of_lt_succ hfuel))

/-- The second state is read on from the first. -/
def Reads (s s' : LexState) : Prop :=
  ∀ tokens, Finishes s' tokens → Finishes s tokens

variable {s s' s'' t u : LexState}

theorem Reads.refl
    (s : LexState) :
    Reads s s :=
  fun _ h => h

theorem Reads.trans
    (h : Reads s s') (h' : Reads s' s'') :
    Reads s s'' :=
  fun tokens hfinishes => h tokens (h' tokens hfinishes)

theorem reads_of_next_eq
    (h : s.next = s'.next) (hle : s'.cursor.rest.length ≤ s.cursor.rest.length) :
    Reads s s' := by
  intro tokens hfinishes
  cases hfinishes with
  | done next => exact .done (h.trans next)
  | step next shorter finishes => exact .step (h.trans next) (shorter.trans_le hle) finishes

/-- One token is read after the gap before it. -/
theorem reads_token
    (hstale : s.toToken.dropStale = .ok t) (hunwind : t.unwind t.cursor.column = u) {x : Char}
    (hpeek : u.cursor.peek? = some x) (hread : u.readToken x = .ok s')
    (hshorter : s'.cursor.rest.length < s.cursor.rest.length) :
    Reads s s' := by
  have hnext : s.next = .ok (s', false) := by
    rw [next, hstale]
    dsimp only [bind, Except.bind, pure, Except.pure]
    rw [hunwind, hpeek]
    dsimp only
    rw [hread]
  exact fun tokens => .step hnext hshorter

variable {index line column : Nat} {rest : List Char}

theorem toToken_spaces
    {n : Nat} (hcursor : s.cursor = ⟨spaces n ++ rest, index, line, column⟩)
    (hrest : StartsToken rest) :
    s.toToken = s.moveTo ⟨rest, index + n, line, column + n⟩ := by
  have hmark : s.cursor.at? byteOrderMark = false := by
    rw [hcursor]
    cases n with
    | zero => exact hrest.not_at_mark
    | succ n => rfl
  rw [toToken, hmark, Bool.and_false, hcursor]
  dsimp only
  rw [if_neg Bool.false_ne_true, skipToToken_spaces n hrest]
  simp [moveTo]

theorem unwind_of_le
    {n : Int} (h : s.flow = 0 → s.indent ≤ n) :
    s.unwind n = s := by
  by_cases hflow : s.flow = 0
  · have hnot : ¬ n < s.indent := Int.not_lt.mpr (h hflow)
    rw [unwind, hflow]
    cases houter : s.outer with
    | nil => rfl
    | cons indent outer => simp [unwind.go, hnot]
  · simp [unwind, hflow]

/-- A mark of one character is read after the spaces before it. -/
theorem reads_mark
    {n : Nat} {x : Char} (hcursor : s.cursor = ⟨spaces n ++ x :: rest, index, line, column⟩)
    (hx : StartsToken (x :: rest))
    (hstale : (s.moveTo ⟨x :: rest, index + n, line, column + n⟩).dropStale = .ok t)
    (htcursor : t.cursor = ⟨x :: rest, index + n, line, column + n⟩)
    (hindent : t.flow = 0 → t.indent ≤ column) (hread : t.readToken x = .ok s')
    (hs' : s'.cursor.rest = rest) :
    Reads s s' := by
  have hunwind : t.unwind t.cursor.column = t := by
    refine unwind_of_le fun hflow => ?_
    rw [htcursor]
    have := hindent hflow
    dsimp only
    omega
  have hpeek : t.cursor.peek? = some x := by
    rw [htcursor]
    rfl
  refine reads_token ?_ hunwind hpeek hread ?_
  · rw [toToken_spaces hcursor hx]
    exact hstale
  · rw [hs', hcursor, List.length_append, List.length_cons]
    omega

theorem dropStale_of_fresh
    (h : ∀ k ∈ s.candidates,
      k.2.line = s.cursor.line ∧ s.cursor.index - k.2.index ≤ maxKeyLength) :
    s.dropStale = .ok s := by
  have hfresh : ∀ k ∈ s.candidates, s.isStale k.2 = false := by
    intro k hk
    rw [isStale, (h k hk).1, decide_eq_false (Nat.not_lt.mpr (h k hk).2), bne_self_eq_false,
      Bool.or_false]
  have hany : ¬ (s.candidates.any fun k => s.isStale k.2 && k.2.required) = true := by
    rw [List.any_eq_true]
    rintro ⟨k, hk, hstale⟩
    rw [hfresh k hk, Bool.false_and] at hstale
    cases hstale
  have hfilter : (s.candidates.filter fun k => !s.isStale k.2) = s.candidates := by
    rw [List.filter_eq_self]
    intro k hk
    rw [hfresh k hk]
    rfl
  rw [dropStale]
  dsimp only
  rw [if_neg hany, hfilter]

/-- A scalar is read after the gap before it. -/
theorem reads_written
    {w : Written} {c : Cursor} {ended : Bool} (hstale : s.toToken.dropStale = .ok t)
    (hcursor : t.cursor = ⟨w.chars ++ rest, index, line, column⟩)
    (hw : w.Legible (t.flow != 0)) (hborder : column = 0 → NoBorder (w.chars ++ rest))
    (hindent : t.flow = 0 → t.indent ≤ column)
    (hstops : w.Stops (t.flow != 0) (t.indent + 1)
      ⟨rest, index + w.chars.length, line, column + w.chars.length⟩ ended c)
    (hsave : t.saveCandidate = .ok u)
    (hshorter : (w.chars ++ rest).length ≤ s.cursor.rest.length) :
    Reads s (({ u with keyAllowed := ended, cursor := c }).push w.token) := by
  obtain ⟨x, text, hchars, -⟩ := Written.exists_cons hw
  have hunwind : t.unwind t.cursor.column = t := by
    rw [hcursor]
    exact unwind_of_le hindent
  have hpeek : t.cursor.peek? = some x := by
    rw [hcursor, hchars]
    rfl
  refine reads_token hstale hunwind hpeek ?_ ?_
  · exact readToken_written hw hcursor hborder hindent hstops hsave (by rw [hchars]; rfl)
  · have hlength := hstops.length_le
    have hpositive : 0 < w.chars.length := by
      rw [hchars]
      exact Nat.succ_pos _
    rw [List.length_append] at hshorter
    calc c.rest.length ≤ rest.length := hlength
      _ < w.chars.length + rest.length := Nat.lt_add_of_pos_left hpositive
      _ ≤ s.cursor.rest.length := hshorter

/-! ## Between two lines -/

/-- The state between two lines. -/
def between (c : Cursor) (allowed : Bool) (indent : Int) (outer : List Int) (tokens : List Token)
    (count : Nat) : LexState :=
  ⟨c, 0, indent, outer, allowed, [], tokens, count⟩

end LexState

end RingTape.Yaml
