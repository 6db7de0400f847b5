import RingTape.Proofs.Checked
import RingTape.Proofs.Text.Lines
import RingTape.Proofs.Yaml.Cursor
import RingTape.Yaml.Token.Basic

/-!
# Places in a text with other line ends

A carriage return, a line feed, and the two together end a line all the same.  Where the line ends
of a text are unified, each place of the text but the one between the two has its counterpart, in
the same line and column.  Their distances from the start differ, by the number of line feeds that
went missing in the lines before.
-/

namespace RingTape.Yaml

open Text

/-! ## Unified texts -/

theorem eq_of_isBreak
    {x : Char} (h : isBreak x = true) :
    x = '\n' ∨ x = '\r' ∨ x = Char.ofNat 0x85 ∨ x = Char.ofNat 0x2028 ∨ x = Char.ofNat 0x2029 := by
  simp only [isBreak, Bool.or_eq_true, beq_iff_eq] at h
  rcases h with (((h | h) | h) | h) | h
  · exact .inl (Char.toNat_inj.mp h)
  · exact .inr (.inl (Char.toNat_inj.mp h))
  · exact .inr (.inr (.inl (Char.toNat_inj.mp h)))
  · exact .inr (.inr (.inr (.inl (Char.toNat_inj.mp h))))
  · exact .inr (.inr (.inr (.inr (Char.toNat_inj.mp h))))

/-- A class of characters none of which ends a line. -/
def IsInner (p : Char → Bool) : Prop :=
  ∀ x, isBreak x = true → p x = false

theorem isInner_of
    {p : Char → Bool}
    (h : p '\n' = false ∧ p '\r' = false ∧ p (Char.ofNat 0x85) = false ∧
      p (Char.ofNat 0x2028) = false ∧ p (Char.ofNat 0x2029) = false) :
    IsInner p := by
  intro x hx
  rcases eq_of_isBreak hx with rfl | rfl | rfl | rfl | rfl
  · exact h.1
  · exact h.2.1
  · exact h.2.2.1
  · exact h.2.2.2.1
  · exact h.2.2.2.2

theorem IsInner.not_isBreak
    {p : Char → Bool} (h : IsInner p) {x : Char} (hx : p x = true) :
    isBreak x = false := by
  by_contra hbreak
  rw [h x (by simpa using hbreak)] at hx
  cases hx

theorem ne_of_isBreak
    {x y : Char} (hx : isBreak x = false) (hy : isBreak y = true) :
    y ≠ x := by
  rintro rfl
  rw [hx] at hy
  cases hy

theorem ne_return
    {x : Char} (h : isBreak x = false) :
    x ≠ '\r' :=
  (ne_of_isBreak h (by decide)).symm

theorem unifyChar_of_not_isBreak
    {x : Char} (h : isBreak x = false) :
    unifyChar x = x :=
  if_neg (by simpa using ne_return h)

/-- What a carriage return and a line feed have in common is kept. -/
theorem apply_unifyChar
    {β : Type} {f : Char → β} (h : f '\n' = f '\r') (x : Char) :
    f (unifyChar x) = f x := by
  by_cases hx : x = '\r'
  · rw [hx]
    exact h
  · apply congrArg f
    exact if_neg (by simpa using hx)

theorem apply_map_unifyChar
    {β : Type} {f : Option Char → β} (h : f (some '\n') = f (some '\r')) (x : Option Char) :
    f (x.map unifyChar) = f x := by
  cases x with
  | none => rfl
  | some x => exact apply_unifyChar (f := fun x => f (some x)) h x

theorem isBreak_unifyChar
    (x : Char) :
    isBreak (unifyChar x) = isBreak x :=
  apply_unifyChar (by decide) x

theorem map_unifyChar_eq_some_iff
    {x : Char} (hx : isBreak x = false) {y : Option Char} :
    y.map unifyChar = some x ↔ y = some x := by
  cases y with
  | none => rfl
  | some y =>
      rw [Option.map_some, Option.some.injEq, Option.some.injEq]
      by_cases hy : isBreak y = true
      · have hunified : isBreak (unifyChar y) = true := by rwa [isBreak_unifyChar]
        exact iff_of_false (ne_of_isBreak hx hunified) (ne_of_isBreak hx hy)
      · rw [unifyChar_of_not_isBreak (eq_false_of_ne_true hy)]

theorem unifyLineEnds_of_not_isBreak
    {x : Char} (h : isBreak x = false) (rest : List Char) :
    unifyLineEnds (x :: rest) = x :: unifyLineEnds rest :=
  unifyLineEnds_of_ne_return (ne_return h) rest

/-- Where a line ends at once, a line of the unified text ends at once. -/
theorem exists_unifyLineEnds_of_isBreak
    {x : Char} (h : isBreak x = true) (rest : List Char) :
    ∃ y more, isBreak y = true ∧ unifyLineEnds (x :: rest) = y :: more := by
  have hhead : (unifyLineEnds (x :: rest)).head? = some (unifyChar x) := head?_unifyLineEnds _
  obtain ⟨more, hmore⟩ := List.head?_eq_some_iff.mp hhead
  exact ⟨unifyChar x, more, by rwa [isBreak_unifyChar], hmore⟩

/-- A run of characters within a line is left as it is. -/
theorem takeWhile_unifyLineEnds
    {p : Char → Bool} (hp : IsInner p) (text : List Char) :
    (unifyLineEnds text).takeWhile p = text.takeWhile p := by
  induction text with
  | nil => rfl
  | cons x rest ih =>
      by_cases hx : p x = true
      · rw [unifyLineEnds_of_not_isBreak (hp.not_isBreak hx), List.takeWhile_cons_of_pos hx,
          List.takeWhile_cons_of_pos hx, ih]
      · rw [List.takeWhile_cons_of_neg hx]
        by_cases hbreak : isBreak x = true
        · obtain ⟨y, more, hy, hmore⟩ := exists_unifyLineEnds_of_isBreak hbreak rest
          rw [hmore]
          apply List.takeWhile_cons_of_neg
          rw [hp y hy]
          exact Bool.false_ne_true
        · rw [unifyLineEnds_of_not_isBreak (eq_false_of_ne_true hbreak)]
          exact List.takeWhile_cons_of_neg hx

theorem drop_unifyLineEnds
    {n : Nat} {text : List Char} (h : ∀ x ∈ text.take n, isBreak x = false) :
    (unifyLineEnds text).drop n = unifyLineEnds (text.drop n) := by
  induction n generalizing text with
  | zero => rfl
  | succ n ih =>
      cases text with
      | nil => rfl
      | cons x rest =>
          rw [List.take_succ_cons, List.forall_mem_cons] at h
          rw [unifyLineEnds_of_not_isBreak h.1, List.drop_succ_cons, List.drop_succ_cons, ih h.2]

/-- A text and the unified one start with the same words. -/
theorem take_unifyLineEnds_eq_iff
    {word : List Char} (hword : ∀ x ∈ word, isBreak x = false) (text : List Char) :
    (unifyLineEnds text).take word.length = word ↔ text.take word.length = word := by
  induction word generalizing text with
  | nil => simp
  | cons y word ih =>
      rw [List.forall_mem_cons] at hword
      cases text with
      | nil => rfl
      | cons x rest =>
          by_cases hx : isBreak x = true
          · obtain ⟨z, more, hz, hmore⟩ := exists_unifyLineEnds_of_isBreak hx rest
            simp [hmore, ne_of_isBreak hword.1 hx, ne_of_isBreak hword.1 hz]
          · rw [unifyLineEnds_of_not_isBreak (by simpa using hx), List.length_cons,
              List.take_succ_cons, List.take_succ_cons, List.cons.injEq, List.cons.injEq,
              ih hword.2]

/-- How many of the first `n` lines of a text end with a carriage return and a line feed. -/
def pairs : Nat → List Char → Nat
  | 0, _ => 0
  | _ + 1, [] => 0
  | n + 1, '\r' :: '\n' :: rest => pairs n rest + 1
  | n + 1, x :: rest => if isBreak x then pairs n rest else pairs (n + 1) rest

theorem pairs_of_not_isBreak
    {x : Char} (h : isBreak x = false) (n : Nat) (rest : List Char) :
    pairs n (x :: rest) = pairs n rest := by
  cases n with
  | zero => simp [pairs]
  | succ n =>
      rw [pairs, h]
      · rfl
      · exact fun _ hx => absurd hx (ne_return h)

theorem pairs_of_single
    {x : Char} {rest : List Char} (hx : isBreak x = true)
    (h : x = '\r' → rest.head? ≠ some '\n') (n : Nat) :
    pairs (n + 1) (x :: rest) = pairs n rest := by
  rw [pairs, if_pos hx]
  rintro more hreturn rfl
  exact h hreturn rfl

/-! ## Counterparts -/

namespace Cursor

/-- A place in a text and its counterpart where the line ends are unified.  The counterpart has at
most `bound` characters left, and in the line with a number `n` it is `lag n` characters nearer to
the start. -/
structure Alike (lag : Nat → Nat) (bound : Nat) (c c' : Cursor) : Prop where
  rest : c'.rest = unifyLineEnds c.rest
  line : c'.line = c.line
  column : c'.column = c.column
  index : c.index = c'.index + lag c.line
  first : c'.index = 0 → c.index = 0
  lags : ∀ n, lag (c.line + n) = lag c.line + pairs n c.rest
  bounded : c'.rest.length ≤ bound

variable {lag : Nat → Nat} {bound n : Nat} {c c' : Cursor} {x : Char} {p : Char → Bool}

theorem alike_start
    (text : List Char) :
    Alike (fun n => pairs n text) (unifyLineEnds text).length (start text)
      (start (unifyLineEnds text)) where
  rest := rfl
  line := rfl
  column := rfl
  index := by simp [start, pairs]
  first := fun _ => rfl
  lags := fun n => by simp [start, pairs]
  bounded := Nat.le_refl _

theorem Alike.weaken
    (h : Alike lag bound c c') (hn : c'.rest.length ≤ n) :
    Alike lag n c c' :=
  { h with bounded := hn }

theorem Alike.peek?_eq
    (h : Alike lag bound c c') :
    c'.peek? = c.peek?.map unifyChar := by
  rw [peek?, h.rest, head?_unifyLineEnds, peek?]

theorem Alike.length_le
    (h : Alike lag bound c c') :
    c'.rest.length ≤ c.rest.length := by
  rw [h.rest]
  exact length_unifyLineEnds_le c.rest

theorem rest_next
    (c : Cursor) :
    c.next.rest = c.rest.tail := by
  obtain ⟨rest, index, line, column⟩ := c
  cases rest with
  | nil => rfl
  | cons x rest =>
      unfold next
      dsimp only
      split
      · rfl
      · split <;> rfl

theorem peek?_next
    (c : Cursor) :
    c.next.peek? = c.peekAt? 1 := by
  rw [peek?, rest_next, peekAt?, List.head?_tail]

theorem rest_advance
    (c : Cursor) (n : Nat) :
    (c.advance n).rest = c.rest.drop n := by
  induction n generalizing c with
  | zero => rfl
  | succ n ih => rw [advance, ih, rest_next, List.drop_tail]

theorem next_of_not_isBreak
    {rest : List Char} {index line column : Nat} (hx : isBreak x = false) :
    next ⟨x :: rest, index, line, column⟩ =
      ⟨rest, index + 1, line, if x == byteOrderMark then column else column + 1⟩ := by
  simp only [next, hx, Bool.false_and, Bool.false_eq_true, if_false]
  split <;> rfl

/-- Both places move on by a character that ends no line, or stay at the end of the text. -/
theorem Alike.next
    (h : Alike lag bound c c') (hx : ∀ x, c.peek? = some x → isBreak x = false) :
    Alike lag bound c.next c'.next := by
  obtain ⟨text, index, line, column⟩ := c
  obtain ⟨text', index', line', column'⟩ := c'
  obtain rfl : text' = unifyLineEnds text := h.rest
  obtain rfl : line' = line := h.line
  obtain rfl : column' = column := h.column
  obtain ⟨-, -, -, hindex, hfirst, hlags, hbound⟩ := h
  dsimp only at hindex hlags hbound
  cases text with
  | nil => exact ⟨rfl, rfl, rfl, hindex, hfirst, hlags, hbound⟩
  | cons x rest =>
      have hinner : isBreak x = false := hx x rfl
      rw [unifyLineEnds_of_not_isBreak hinner] at hbound ⊢
      rw [next_of_not_isBreak hinner, next_of_not_isBreak hinner]
      refine ⟨rfl, rfl, rfl, ?_, nofun, fun n => ?_, Nat.le_of_succ_le hbound⟩
      · dsimp only
        omega
      · rw [hlags n, pairs_of_not_isBreak hinner]

theorem Alike.advance
    (h : Alike lag bound c c') (hn : ∀ x ∈ c.rest.take n, isBreak x = false) :
    Alike lag bound (c.advance n) (c'.advance n) := by
  induction n generalizing c c' with
  | zero => exact h
  | succ n ih =>
      apply ih
      · apply h.next
        intro x hx
        obtain ⟨rest, hrest⟩ := List.head?_eq_some_iff.mp hx
        rw [hrest] at hn
        exact hn x List.mem_cons_self
      · intro x hx
        apply hn
        rw [rest_next] at hx
        cases hrest : c.rest with
        | nil =>
            rw [hrest] at hx
            simp at hx
        | cons y rest =>
            rw [hrest] at hx
            exact List.mem_cons_of_mem y hx

theorem Alike.takeWhile_fst
    (h : Alike lag bound c c') (hp : IsInner p) :
    (c'.takeWhile p).1 = (c.takeWhile p).1 := by
  rw [takeWhile, h.rest]
  exact takeWhile_unifyLineEnds hp c.rest

theorem Alike.takeWhile
    (h : Alike lag bound c c') (hp : IsInner p) :
    Alike lag bound (c.takeWhile p).2 (c'.takeWhile p).2 := by
  have hrun : c'.rest.takeWhile p = c.rest.takeWhile p := h.takeWhile_fst hp
  rw [Cursor.takeWhile, Cursor.takeWhile, hrun]
  apply h.advance
  intro x hx
  rw [← List.prefix_iff_eq_take.mp (List.takeWhile_prefix p)] at hx
  exact hp.not_isBreak (List.mem_takeWhile_imp hx)

theorem Alike.skipWhile
    (h : Alike lag bound c c') (hp : IsInner p) :
    Alike lag bound (c.skipWhile p) (c'.skipWhile p) :=
  h.takeWhile hp

theorem Alike.skipSpaces
    (h : Alike lag bound c c') :
    Alike lag bound c.skipSpaces c'.skipSpaces :=
  h.skipWhile (isInner_of (by decide))

/-- A character that ends no line is seen from both places, or from neither. -/
theorem Alike.at?_eq
    (h : Alike lag bound c c') (hx : isBreak x = false) :
    c'.at? x = c.at? x := by
  rw [at?, at?, h.peek?_eq, Bool.eq_iff_iff, beq_iff_eq, beq_iff_eq,
    map_unifyChar_eq_some_iff hx]

theorem Alike.skipComment
    (h : Alike lag bound c c') :
    Alike lag bound c.skipComment c'.skipComment := by
  unfold Cursor.skipComment
  rw [h.at?_eq (by decide)]
  split
  · exact h.skipWhile fun x hx => by simp [hx]
  · exact h

/-- What is seen from both places one character further on. -/
theorem Alike.peekAt?_one
    (h : Alike lag bound c c') (hx : c.peek? = some x) (hinner : isBreak x = false) :
    c'.peekAt? 1 = (c.peekAt? 1).map unifyChar := by
  obtain ⟨rest, hrest⟩ := List.head?_eq_some_iff.mp hx
  rw [peekAt?, peekAt?, h.rest, hrest, unifyLineEnds_of_not_isBreak hinner]
  simpa [List.head?_eq_getElem?] using head?_unifyLineEnds rest

theorem isLineEnd_map
    (x : Option Char) :
    isLineEnd (x.map unifyChar) = isLineEnd x :=
  apply_map_unifyChar (by decide) x

theorem isGap_map
    (x : Option Char) :
    isGap (x.map unifyChar) = isGap x :=
  apply_map_unifyChar (by decide) x

theorem isSpaceOrEnd_map
    (x : Option Char) :
    isSpaceOrEnd (x.map unifyChar) = isSpaceOrEnd x :=
  apply_map_unifyChar (by decide) x

theorem Alike.isGap_peekAt?
    (h : Alike lag bound c c') {word : List Char} (hword : ∀ x ∈ word, isBreak x = false)
    (hstart : c.rest.take word.length = word) :
    isGap (c'.peekAt? word.length) = isGap (c.peekAt? word.length) := by
  have hrest : c.rest = word ++ c.rest.drop word.length := by
    conv_lhs => rw [← List.take_append_drop word.length c.rest, hstart]
  have hrest' : c'.rest = word ++ unifyLineEnds (c.rest.drop word.length) := by
    rw [h.rest, hrest, unifyLineEnds_append fun hmem => ne_return (hword _ hmem) rfl, ← hrest]
  have hpeek : c.peekAt? word.length = (c.rest.drop word.length).head? := by
    rw [peekAt?, List.head?_drop]
  have hpeek' : c'.peekAt? word.length = (unifyLineEnds (c.rest.drop word.length)).head? := by
    rw [peekAt?, hrest', List.getElem?_append_right (Nat.le_refl _), Nat.sub_self,
      List.head?_eq_getElem?]
  rw [hpeek, hpeek', head?_unifyLineEnds, isGap_map]

/-- Either both places are at a line that separates documents, or neither is. -/
theorem Alike.atSeparator_eq
    (h : Alike lag bound c c') :
    c'.atSeparator = c.atSeparator := by
  have hdashes : ∀ x ∈ ['-', '-', '-'], isBreak x = false := by simp [isBreak]
  have hpoints : ∀ x ∈ ['.', '.', '.'], isBreak x = false := by simp [isBreak]
  have hdashes_iff := take_unifyLineEnds_eq_iff hdashes c.rest
  have hpoints_iff := take_unifyLineEnds_eq_iff hpoints c.rest
  rw [← h.rest] at hdashes_iff hpoints_iff
  by_cases hdash : c.rest.take 3 = ['-', '-', '-']
  · have hgap := h.isGap_peekAt? hdashes hdash
    have hdash' : c'.rest.take 3 = ['-', '-', '-'] := hdashes_iff.mpr hdash
    simp only [atSeparator, hdash, hdash']
    exact congrArg _ hgap
  · by_cases hpoint : c.rest.take 3 = ['.', '.', '.']
    · have hgap := h.isGap_peekAt? hpoints hpoint
      have hpoint' : c'.rest.take 3 = ['.', '.', '.'] := hpoints_iff.mpr hpoint
      simp only [atSeparator, hpoint, hpoint']
      exact congrArg _ hgap
    · have hdash' : c'.rest.take 3 ≠ ['-', '-', '-'] := fun heq => hdash (hdashes_iff.mp heq)
      have hpoint' : c'.rest.take 3 ≠ ['.', '.', '.'] := fun heq => hpoint (hpoints_iff.mp heq)
      rw [atSeparator, atSeparator, beq_false_of_ne hdash, beq_false_of_ne hdash',
        beq_false_of_ne hpoint, beq_false_of_ne hpoint']
      rfl

/-! ## Line ends -/

/-- No line ends at either place. -/
structure GoesOn (c c' : Cursor) : Prop where
  inner : c.peek?.any isBreak = false
  here : c.takeBreak = ([], c)
  there : c'.takeBreak = ([], c')

/-- A line ends at both places, and it is written with the same character. -/
structure EndsLine (lag : Nat → Nat) (bound : Nat) (c c' : Cursor) (x : Char) (d d' : Cursor) :
    Prop where
  here : c.takeBreak = ([x], d)
  there : c'.takeBreak = ([x], d')
  alike : Alike lag bound d d'
  shorter : d'.rest.length < c'.rest.length

/-- The character that a line end is written with. -/
def lineEndOf (x : Char) : Char :=
  if x == '\r' || x == '\n' || x.toNat == 0x85 then '\n' else x

theorem lineEndOf_unifyChar
    (x : Char) :
    lineEndOf (unifyChar x) = lineEndOf x :=
  apply_unifyChar (by decide) x

section

variable {rest : List Char} {index line column : Nat}

theorem next_of_single
    (hx : isBreak x = true) (h : x = '\r' → rest.head? ≠ some '\n') :
    Cursor.next ⟨x :: rest, index, line, column⟩ = ⟨rest, index + 1, line + 1, 0⟩ := by
  have hpair : (x == '\r' && rest.head? == some '\n') = false := by
    by_contra hpair
    simp only [Bool.not_eq_false, Bool.and_eq_true, beq_iff_eq] at hpair
    exact h hpair.1 hpair.2
  simp [Cursor.next, hx, hpair]

theorem takeBreak_of_single
    (hx : isBreak x = true) (h : x = '\r' → rest.head? ≠ some '\n') :
    Cursor.takeBreak ⟨x :: rest, index, line, column⟩ =
      ([lineEndOf x], ⟨rest, index + 1, line + 1, 0⟩) := by
  unfold Cursor.takeBreak
  split
  · next heq =>
      cases heq
      exact absurd rfl (h rfl)
  · next heq =>
      cases heq
      rw [next_of_single hx h, lineEndOf, if_pos hx]
      split <;> rfl
  · next heq => cases heq

theorem takeBreak_pair :
    Cursor.takeBreak ⟨'\r' :: '\n' :: rest, index, line, column⟩ =
      (['\n'], ⟨rest, index + 2, line + 1, 0⟩) := by
  simp [Cursor.takeBreak, Cursor.next, isBreak, byteOrderMark]

variable {index' : Nat}

/-- A carriage return and a line feed end the line together, and make the places differ by one
character more. -/
theorem endsLine_pair
    (h : Alike lag bound ⟨'\r' :: '\n' :: rest, index, line, column⟩
      ⟨'\n' :: unifyLineEnds rest, index', line, column⟩) :
    EndsLine lag bound ⟨'\r' :: '\n' :: rest, index, line, column⟩
      ⟨'\n' :: unifyLineEnds rest, index', line, column⟩ '\n' ⟨rest, index + 2, line + 1, 0⟩
      ⟨unifyLineEnds rest, index' + 1, line + 1, 0⟩ := by
  obtain ⟨-, -, -, hindex, -, hlags, hbound⟩ := h
  dsimp only at hindex hlags hbound
  have hfirst : lag (line + 1) = lag line + 1 := by
    rw [hlags 1, pairs]
    simp [pairs]
  refine ⟨takeBreak_pair, takeBreak_lineFeed, ⟨rfl, rfl, rfl, ?_, nofun, fun n => ?_, ?_⟩,
    Nat.lt_succ_self _⟩
  · dsimp only
    omega
  · have hlag := hlags (n + 1)
    rw [pairs] at hlag
    dsimp only
    rw [Nat.add_right_comm, Nat.add_assoc, hlag]
    omega
  · exact Nat.le_of_succ_le hbound

/-- Any other character that ends a line ends it alone. -/
theorem endsLine_single
    (hx : isBreak x = true) (hsingle : x = '\r' → rest.head? ≠ some '\n')
    (h : Alike lag bound ⟨x :: rest, index, line, column⟩
      ⟨unifyChar x :: unifyLineEnds rest, index', line, column⟩) :
    EndsLine lag bound ⟨x :: rest, index, line, column⟩
      ⟨unifyChar x :: unifyLineEnds rest, index', line, column⟩ (lineEndOf x)
      ⟨rest, index + 1, line + 1, 0⟩ ⟨unifyLineEnds rest, index' + 1, line + 1, 0⟩ := by
  obtain ⟨-, -, -, hindex, -, hlags, hbound⟩ := h
  dsimp only at hindex hlags hbound
  have hx' : isBreak (unifyChar x) = true := by rwa [isBreak_unifyChar]
  have hsingle' : unifyChar x = '\r' → (unifyLineEnds rest).head? ≠ some '\n' := by
    intro hreturn
    unfold unifyChar at hreturn
    split at hreturn
    · exact absurd hreturn (by decide)
    · next hne => exact absurd hreturn (by simpa using hne)
  have hfirst : lag (line + 1) = lag line := by
    rw [hlags 1, pairs_of_single hx hsingle]
    simp [pairs]
  refine ⟨takeBreak_of_single hx hsingle, ?_, ⟨rfl, rfl, rfl, ?_, nofun, fun n => ?_, ?_⟩,
    Nat.lt_succ_self _⟩
  · rw [takeBreak_of_single hx' hsingle', lineEndOf_unifyChar]
  · dsimp only
    omega
  · rw [Nat.add_right_comm, Nat.add_assoc, hlags (n + 1), pairs_of_single hx hsingle, hfirst]
  · exact Nat.le_of_succ_le hbound

end

/-- A line ends at both places or at neither. -/
theorem Alike.takeBreak
    (h : Alike lag bound c c') :
    GoesOn c c' ∨ ∃ x d d', EndsLine lag bound c c' x d d' := by
  by_cases hbreak : c.peek?.any isBreak = true
  · right
    obtain ⟨text, index, line, column⟩ := c
    obtain ⟨text', index', line', column'⟩ := c'
    obtain rfl : text' = unifyLineEnds text := h.rest
    obtain rfl : line' = line := h.line
    obtain rfl : column' = column := h.column
    cases text with
    | nil => cases hbreak
    | cons x rest =>
        by_cases hpair : x = '\r' ∧ rest.head? = some '\n'
        · obtain ⟨rfl, hfeed⟩ := hpair
          obtain ⟨rest, rfl⟩ := List.head?_eq_some_iff.mp hfeed
          exact ⟨_, _, _, endsLine_pair h⟩
        · have hsingle : x = '\r' → rest.head? ≠ some '\n' :=
            fun hreturn hfeed => hpair ⟨hreturn, hfeed⟩
          rw [unifyLineEnds_of_single hsingle] at h ⊢
          exact ⟨_, _, _, endsLine_single hbreak hsingle h⟩
  · left
    have hbreak' : c'.peek?.any isBreak = false := by
      rw [h.peek?_eq, Option.any_map]
      simpa [Function.comp_def, isBreak_unifyChar] using hbreak
    have hinner := eq_false_of_ne_true hbreak
    exact ⟨hinner, takeBreak_of_not_isBreak hinner, takeBreak_of_not_isBreak hbreak'⟩

/-! ## What stands at both places -/

/-- Both places are at the end of the text, at the same character within a line, or at characters
that end a line. -/
inductive Sees (lag : Nat → Nat) (bound : Nat) (c c' : Cursor) : Prop
  | nothing (here : c.peek? = none) (there : c'.peek? = none)
  | inner (x : Char) (isInner : isBreak x = false) (here : c.peek? = some x)
    (there : c'.peek? = some x) (next : Alike lag bound c.next c'.next)
    (shorter : c'.next.rest.length < c'.rest.length)
  | lineEnd (x x' : Char) (isBreak : isBreak x = true) (isBreak' : Yaml.isBreak x' = true)
    (here : c.peek? = some x) (there : c'.peek? = some x')

theorem length_next_lt
    (h : c.peek? = some x) :
    c.next.rest.length < c.rest.length := by
  obtain ⟨rest, hrest⟩ := List.head?_eq_some_iff.mp h
  rw [rest_next, hrest]
  exact Nat.lt_succ_self _

theorem Alike.sees
    (h : Alike lag bound c c') :
    Sees lag bound c c' := by
  have hthere := h.peek?_eq
  cases hhere : c.peek? with
  | none =>
      rw [hhere] at hthere
      exact .nothing hhere hthere
  | some x =>
      rw [hhere, Option.map_some] at hthere
      by_cases hx : isBreak x = true
      · have hx' : isBreak (unifyChar x) = true := by rwa [isBreak_unifyChar]
        exact .lineEnd x _ hx hx' hhere hthere
      · have hinner : isBreak x = false := eq_false_of_ne_true hx
        rw [unifyChar_of_not_isBreak hinner] at hthere
        have hnext : ∀ y, c.peek? = some y → isBreak y = false := by
          intro y hy
          rw [hhere] at hy
          cases hy
          exact hinner
        exact .inner x hinner hhere hthere (h.next hnext) (length_next_lt hthere)

/-- Both places move on by the character that stands there. -/
theorem Alike.pass
    (h : Alike lag (bound + 1) c c') (hx : isBreak x = false) (hhere : c.peek? = some x) :
    Alike lag bound c.next c'.next := by
  cases h.sees with
  | nothing here =>
      rw [here] at hhere
      cases hhere
  | inner y hy here there next shorter =>
      exact next.weaken (Nat.le_of_lt_succ (shorter.trans_le h.bounded))
  | lineEnd y y' hy _ here =>
      rw [here] at hhere
      cases hhere
      rw [hx] at hy
      cases hy

theorem Alike.pass_at?
    (h : Alike lag (bound + 1) c c') (hx : isBreak x = false) (hat : c.at? x = true) :
    Alike lag bound c.next c'.next :=
  h.pass hx (beq_iff_eq.mp hat)

theorem Alike.next_at?
    (h : Alike lag bound c c') (hx : isBreak x = false) (hat : c.at? x = true) :
    Alike lag bound c.next c'.next :=
  (h.weaken (Nat.le_succ_of_le h.bounded)).pass_at? hx hat

/-- The same run of characters is taken from both places. -/
structure Takes (lag : Nat → Nat) (bound : Nat) (p : Char → Bool) (c c' : Cursor)
    (run : List Char) (d d' : Cursor) : Prop where
  here : c.takeWhile p = (run, d)
  there : c'.takeWhile p = (run, d')
  alike : Alike lag bound d d'
  shorter : run ≠ [] → d'.rest.length < c'.rest.length

theorem length_takeWhile_lt
    (hrun : (c.takeWhile p).1 ≠ []) :
    (c.takeWhile p).2.rest.length < c.rest.length := by
  have hpositive : 0 < (c.rest.takeWhile p).length := List.length_pos_iff.mpr hrun
  have hle : (c.rest.takeWhile p).length ≤ c.rest.length := (List.takeWhile_prefix p).length_le
  simp only [takeWhile, rest_advance, List.length_drop]
  omega

theorem Alike.takes
    (h : Alike lag bound c c') (hp : IsInner p) :
    ∃ run d d', Takes lag bound p c c' run d d' := by
  have hrun := h.takeWhile_fst hp
  refine ⟨(c.takeWhile p).1, _, (c'.takeWhile p).2, rfl, ?_, h.takeWhile hp, ?_⟩
  · rw [← hrun]
  · rw [← hrun]
    exact length_takeWhile_lt

theorem Takes.ne_nil
    {run : List Char} {d d' : Cursor} (h : Takes lag bound p c c' run d d')
    (hhere : c.peek? = some x) (hx : p x = true) :
    run ≠ [] := by
  obtain ⟨rest, hrest⟩ := List.head?_eq_some_iff.mp hhere
  have hrun : c.rest.takeWhile p = run := congrArg Prod.fst h.here
  rw [← hrun, hrest, List.takeWhile_cons_of_pos hx]
  nofun

theorem Takes.eq_of_nil
    {d d' : Cursor} (h : Takes lag bound p c c' [] d d') :
    d = c := by
  have hrun : c.rest.takeWhile p = [] := congrArg Prod.fst h.here
  have hplace : c.advance (c.rest.takeWhile p).length = d := congrArg Prod.snd h.here
  rw [← hplace, hrun]
  rfl

theorem exists_length_eq
    (h : c.peek? = some x) :
    ∃ m, c.rest.length = m + 1 := by
  obtain ⟨rest, hrest⟩ := List.head?_eq_some_iff.mp h
  rw [hrest]
  exact ⟨rest.length, rfl⟩

theorem length_skipWhile_le
    (p : Char → Bool) (c : Cursor) :
    (c.skipWhile p).rest.length ≤ c.rest.length := by
  rw [skipWhile, takeWhile, rest_advance, List.length_drop]
  exact Nat.sub_le _ _

theorem length_next_le
    (c : Cursor) :
    c.next.rest.length ≤ c.rest.length := by
  rw [rest_next, List.length_tail]
  exact Nat.sub_le _ _

theorem line_advance
    (hn : ∀ x ∈ c.rest.take n, isBreak x = false) :
    (c.advance n).line = c.line := by
  induction n generalizing c with
  | zero => rfl
  | succ n ih =>
      obtain ⟨rest, index, line, column⟩ := c
      cases rest with
      | nil => exact ih fun x hx => by simp [next] at hx
      | cons x rest =>
          dsimp only at hn
          rw [List.take_succ_cons, List.forall_mem_cons] at hn
          rw [advance, next_of_not_isBreak hn.1]
          exact ih hn.2

theorem line_skipWhile
    (hp : IsInner p) (c : Cursor) :
    (c.skipWhile p).line = c.line := by
  apply line_advance
  intro x hx
  rw [← List.prefix_iff_eq_take.mp (List.takeWhile_prefix p)] at hx
  exact hp.not_isBreak (List.mem_takeWhile_imp hx)

end Cursor

/-! ## Readers -/

open Cursor

/-- Two readers have taken the same and go on at a place and its counterpart. -/
structure ReadAlike {α : Type} (lag : Nat → Nat) (bound : Nat) (p p' : α × Cursor) : Prop where
  value : p'.1 = p.1
  alike : Alike lag bound p.2 p'.2

variable {lag : Nat → Nat} {bound : Nat} {c c' : Cursor}

theorem readAlike_takeBreak
    (h : Alike lag bound c c') :
    ReadAlike lag bound c.takeBreak c'.takeBreak := by
  rcases h.takeBreak with hgoes | ⟨x, d, d', hends⟩
  · rw [hgoes.here, hgoes.there]
    exact ⟨rfl, h⟩
  · rw [hends.here, hends.there]
    exact ⟨rfl, hends.alike⟩

/-- Where a line ends, both places move on. -/
theorem readAlike_takeBreak_of_isBreak
    {x : Char} (h : Alike lag (bound + 1) c c') (hhere : c.peek? = some x)
    (hx : isBreak x = true) :
    ReadAlike lag bound c.takeBreak c'.takeBreak := by
  rcases h.takeBreak with hgoes | ⟨y, d, d', hends⟩
  · have hinner := hgoes.inner
    rw [hhere, Option.any_some, hx] at hinner
    cases hinner
  · have hbound := h.bounded
    have hshorter := hends.shorter
    rw [hends.here, hends.there]
    exact ⟨rfl, hends.alike.weaken (by omega)⟩

theorem corresponds_endOfLine
    (h : Alike lag bound c c') :
    Corresponds (Alike lag bound) (endOfLine c) (endOfLine c') := by
  have hplace := h.skipSpaces.skipComment
  unfold endOfLine
  dsimp only
  rw [hplace.peek?_eq, isLineEnd_map]
  split
  · exact .ok (readAlike_takeBreak hplace).alike
  · exact .error _

end RingTape.Yaml
