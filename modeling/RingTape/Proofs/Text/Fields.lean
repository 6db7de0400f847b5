import RingTape.Text.Lines
import Mathlib.Data.List.DropRight

/-!
# Trimmed texts and their fields

Printing puts single spaces between fields, and reading trims a line and cuts it at its blanks.  The
facts here say when the second undoes the first: a word is a nonempty text without blanks, and a
phrase is a nonempty text without blanks at its two ends.  A phrase is also free of semicolons, so
that no part of it is taken for a comment.

A text that is cut a few times only gives the first of its fields, and the rest of it as one piece.
-/

namespace RingTape.Text

/-- A text that stays in one piece when a line is cut at its blanks. -/
def IsWord (cs : List Char) : Prop :=
  cs ≠ [] ∧ ∀ c ∈ cs, isBlank c = false

/-- A text that stays as it is when a line is trimmed and its comment is dropped. -/
def IsPhrase (cs : List Char) : Prop :=
  cs ≠ [] ∧ trim cs = cs ∧ ';' ∉ cs

/-! ## Dropping at the end -/

theorem dropWhileEnd_eq_rdropWhile
    (p : Char → Bool) (cs : List Char) :
    dropWhileEnd p cs = cs.rdropWhile p := by
  induction cs with
  | nil => rfl
  | cons c rest ih =>
      have hrev : (c :: rest).rdropWhile p =
          if (rest.reverse.dropWhile p).isEmpty then ([c].dropWhile p).reverse
          else c :: rest.rdropWhile p := by
        simp only [List.rdropWhile, List.reverse_cons, List.dropWhile_append]
        split <;> simp
      have hempty : (rest.reverse.dropWhile p).isEmpty = (rest.rdropWhile p).isEmpty := by
        simp [List.rdropWhile]
      rw [hrev, hempty, dropWhileEnd, ih]
      cases rest.rdropWhile p with
      | nil => cases hc : p c <;> simp [hc]
      | cons d kept => rfl

/-- A text keeps its end when its last character is not of the class. -/
theorem dropWhileEnd_eq_self_iff
    {p : Char → Bool} {cs : List Char} :
    dropWhileEnd p cs = cs ↔ ∀ c, cs.getLast? = some c → p c = false := by
  rw [dropWhileEnd_eq_rdropWhile, List.rdropWhile_eq_self_iff]
  constructor
  · intro h c hc
    obtain ⟨kept, rfl⟩ := List.getLast?_eq_some_iff.mp hc
    simpa using h (by simp)
  · intro h hne
    simpa using h _ (List.getLast?_eq_some_getLast hne)

theorem getLast?_dropWhileEnd
    {p : Char → Bool} {cs : List Char} {c : Char}
    (h : (dropWhileEnd p cs).getLast? = some c) :
    p c = false := by
  rw [dropWhileEnd_eq_rdropWhile] at h
  have hself := List.rdropWhile_idempotent p cs
  rw [← dropWhileEnd_eq_rdropWhile, dropWhileEnd_eq_self_iff] at hself
  exact hself c h

theorem dropWhileEnd_cons_of_neg
    {p : Char → Bool} {c : Char} {cs : List Char} (h : p c = false) :
    dropWhileEnd p (c :: cs) = c :: dropWhileEnd p cs := by
  rw [dropWhileEnd]
  cases dropWhileEnd p cs with
  | nil => simp [h]
  | cons d kept => rfl

theorem dropWhileEnd_isPrefix
    (p : Char → Bool) (cs : List Char) :
    dropWhileEnd p cs <+: cs := by
  rw [dropWhileEnd_eq_rdropWhile]
  exact List.rdropWhile_prefix p cs

theorem dropWhileEnd_append_of_pos
    {p : Char → Bool} {tail : List Char} (h : ∀ c ∈ tail, p c = true) (cs : List Char) :
    dropWhileEnd p (cs ++ tail) = dropWhileEnd p cs := by
  have hreverse : ∀ c ∈ tail.reverse, p c = true := by simpa using h
  rw [dropWhileEnd_eq_rdropWhile, dropWhileEnd_eq_rdropWhile, List.rdropWhile, List.rdropWhile,
    List.reverse_append, List.dropWhile_append_of_pos hreverse]

/-! ## Trimming -/

theorem head?_dropWhile
    {p : Char → Bool} (cs : List Char) {c : Char}
    (h : (cs.dropWhile p).head? = some c) :
    p c = false := by
  have hnot := List.head?_dropWhile_not p cs
  rw [h] at hnot
  simpa using hnot

theorem dropWhile_eq_self_of_head?
    {p : Char → Bool} {cs : List Char}
    (h : ∀ c, cs.head? = some c → p c = false) :
    cs.dropWhile p = cs := by
  cases cs with
  | nil => rfl
  | cons c rest => simp [h c rfl]

theorem trim_isInfix
    (cs : List Char) :
    trim cs <:+: cs :=
  (dropWhileEnd_isPrefix _ _).isInfix.trans (List.dropWhile_suffix _).isInfix

/-- Neither end of the text is of the class. -/
def EndsOutside (p : Char → Bool) (cs : List Char) : Prop :=
  (∀ c ∈ cs.head?, p c = false) ∧ ∀ c ∈ cs.getLast?, p c = false

instance (p : Char → Bool) (cs : List Char) : Decidable (EndsOutside p cs) :=
  have : ∀ o : Option Char, Decidable (∀ c ∈ o, p c = false) := fun o => o.decidableForallMem
  inferInstanceAs (Decidable (_ ∧ _))

theorem EndsOutside.trimWhere_eq
    {p : Char → Bool} {cs : List Char} (h : EndsOutside p cs) :
    trimWhere p cs = cs := by
  rw [trimWhere, dropWhile_eq_self_of_head? h.1]
  exact dropWhileEnd_eq_self_iff.mpr h.2

theorem trimWhere_append_of_pos
    {p : Char → Bool} {tail : List Char} (h : ∀ c ∈ tail, p c = true) (cs : List Char) :
    trimWhere p (cs ++ tail) = trimWhere p cs := by
  by_cases hcs : cs.dropWhile p = []
  · have hall : (cs ++ tail).dropWhile p = [] := by
      rw [List.dropWhile_eq_nil_iff] at hcs ⊢
      intro c hc
      exact (List.mem_append.mp hc).elim (hcs c) (h c)
    rw [trimWhere, trimWhere, hcs, hall]
  · have hne : (cs.dropWhile p).isEmpty = false := List.isEmpty_eq_false_iff.mpr hcs
    rw [trimWhere, List.dropWhile_append, hne]
    exact dropWhileEnd_append_of_pos h _

/-- A text whose ends are not of the class is what is left of it when it stands between two texts of
the class. -/
theorem EndsOutside.trimWhere_between
    {p : Char → Bool} {cs front back : List Char} (h : EndsOutside p cs)
    (hfront : ∀ c ∈ front, p c = true) (hback : ∀ c ∈ back, p c = true) :
    trimWhere p (front ++ cs ++ back) = cs := by
  rw [trimWhere_append_of_pos hback, trimWhere, List.dropWhile_append_of_pos hfront]
  exact h.trimWhere_eq

theorem trim_append_of_blank
    (text : List Char) {blanks : List Char} (h : ∀ c ∈ blanks, isBlank c = true) :
    trim (text ++ blanks) = trim text :=
  trimWhere_append_of_pos h text

theorem trimWhere_eq_self
    {p : Char → Bool} {cs : List Char} (h : ∀ c ∈ cs, p c = false) :
    trimWhere p cs = cs :=
  EndsOutside.trimWhere_eq
    ⟨fun c hc => h c (List.mem_of_mem_head? hc), fun c hc => h c (List.mem_of_mem_getLast? hc)⟩

/-- A text is trimmed when no blank stands at either end. -/
theorem trim_eq_self
    {cs : List Char}
    (hhead : ∀ c, cs.head? = some c → isBlank c = false)
    (hlast : ∀ c, cs.getLast? = some c → isBlank c = false) :
    trim cs = cs :=
  EndsOutside.trimWhere_eq ⟨hhead, hlast⟩

theorem head?_trim
    {cs : List Char} {c : Char}
    (h : (trim cs).head? = some c) :
    isBlank c = false := by
  apply head?_dropWhile cs
  obtain ⟨rest, hrest⟩ := dropWhileEnd_isPrefix isBlank (cs.dropWhile isBlank)
  rw [← hrest, List.head?_append]
  change (trim cs).head?.or _ = _
  rw [h]
  rfl

theorem getLast?_trim
    {cs : List Char} {c : Char}
    (h : (trim cs).getLast? = some c) :
    isBlank c = false :=
  getLast?_dropWhileEnd h

theorem endsOutside_trim
    (cs : List Char) :
    EndsOutside isBlank (trim cs) :=
  ⟨fun _ => head?_trim, fun _ => getLast?_trim⟩

@[simp] theorem trim_trim
    (cs : List Char) :
    trim (trim cs) = trim cs :=
  (endsOutside_trim cs).trimWhere_eq

theorem trim_ne_nil_of_mem
    {cs : List Char} {c : Char} (hc : c ∈ cs) (hblank : isBlank c = false) :
    trim cs ≠ [] := by
  intro hnil
  rw [trim, trimWhere, dropWhileEnd_eq_rdropWhile, List.rdropWhile_eq_nil_iff] at hnil
  have hall : ∀ x ∈ cs, isBlank x = true := by
    by_contra hsome
    have hne : cs.dropWhile isBlank ≠ [] := by
      simpa [List.dropWhile_eq_nil_iff] using hsome
    have hhead := List.head_dropWhile_not isBlank hne
    rw [hnil _ (List.head_mem hne)] at hhead
    cases hhead
  rw [hall c hc] at hblank
  cases hblank

theorem trim_eq_nil_iff
    {cs : List Char} :
    trim cs = [] ↔ ∀ c ∈ cs, isBlank c = true := by
  constructor
  · intro h c hc
    by_contra hblank
    exact trim_ne_nil_of_mem hc (by simpa using hblank) h
  · intro h
    rw [trim, trimWhere, List.dropWhile_eq_nil_iff.mpr h]
    rfl

/-! ## Words and phrases -/

theorem IsWord.head?
    {cs : List Char} (h : IsWord cs) {c : Char} (hc : cs.head? = some c) :
    isBlank c = false :=
  h.2 c (List.mem_of_mem_head? hc)

theorem IsWord.getLast?
    {cs : List Char} (h : IsWord cs) {c : Char} (hc : cs.getLast? = some c) :
    isBlank c = false :=
  h.2 c (List.mem_of_mem_getLast? hc)

theorem IsWord.isPhrase
    {cs : List Char} (h : IsWord cs) (hsemi : ';' ∉ cs) :
    IsPhrase cs :=
  ⟨h.1, trim_eq_self (fun _ => h.head?) (fun _ => h.getLast?), hsemi⟩

/-- What stands before a comment, trimmed, is a phrase unless it is empty. -/
theorem isPhrase_trim
    {cs : List Char} (hne : trim cs ≠ []) (hsemi : ';' ∉ cs) :
    IsPhrase (trim cs) :=
  ⟨hne, trim_trim cs, fun hmem => hsemi ((trim_isInfix cs).subset hmem)⟩

/-! ## Cutting at blanks -/

/-- A text is cut at the first place of a character in one way only. -/
theorem append_cons_inj_of_not_mem
    {c : Char} {cs cs' rest rest' : List Char} (h : c ∉ cs) (h' : c ∉ cs')
    (heq : cs ++ c :: rest = cs' ++ c :: rest') :
    cs = cs' ∧ rest = rest' := by
  have htake {ds more : List Char} (hds : c ∉ ds) : (ds ++ c :: more).takeWhile (· != c) = ds := by
    have hne : ∀ d ∈ ds, (d != c) = true := fun d hd => bne_iff_ne.mpr fun hdc => hds (hdc ▸ hd)
    rw [List.takeWhile_append_of_pos hne, List.takeWhile_cons_of_neg (by simp), List.append_nil]
  have hcs : cs = cs' := by rw [← htake h, ← htake h', heq]
  subst hcs
  exact ⟨rfl, (List.cons.inj (List.append_cancel_left heq)).2⟩

theorem splitWhere_of_forall_not
    {p : Char → Bool} {cs : List Char} (h : ∀ c ∈ cs, p c = false) :
    splitWhere p cs = [cs] := by
  induction cs with
  | nil => rfl
  | cons c rest ih =>
      rw [List.forall_mem_cons] at h
      simp [splitWhere, h.1, ih h.2]

theorem splitWhere_append_cons
    {p : Char → Bool} {cs rest : List Char} {c : Char}
    (h : ∀ d ∈ cs, p d = false) (hc : p c = true) :
    splitWhere p (cs ++ c :: rest) = cs :: splitWhere p rest := by
  induction cs with
  | nil => simp [splitWhere, hc]
  | cons d cs ih =>
      rw [List.forall_mem_cons] at h
      simp [splitWhere, h.1, ih h.2]

theorem not_of_mem_splitWhere
    {p : Char → Bool} {cs piece : List Char} (h : piece ∈ splitWhere p cs) :
    ∀ c ∈ piece, p c = false ∧ c ∈ cs := by
  induction cs generalizing piece with
  | nil =>
      rw [splitWhere, List.mem_singleton] at h
      simp [h]
  | cons d rest ih =>
      rw [splitWhere] at h
      have hrest : ∀ piece ∈ splitWhere p rest, ∀ c ∈ piece, p c = false ∧ c ∈ d :: rest :=
        fun piece hpiece c hc => ⟨(ih hpiece c hc).1, List.mem_cons_of_mem d (ih hpiece c hc).2⟩
      split at h
      · rcases List.mem_cons.mp h with rfl | h
        · simp
        · exact hrest piece h
      · next hd =>
          have hd' : p d = false := by simpa using hd
          obtain ⟨first, others, hsplit⟩ :=
            List.exists_cons_of_ne_nil (splitWhere_ne_nil p rest)
          rw [hsplit] at h hrest
          rw [List.forall_mem_cons] at hrest
          rcases List.mem_cons.mp h with rfl | h
          · rw [List.forall_mem_cons]
            exact ⟨⟨hd', List.mem_cons_self⟩, hrest.1⟩
          · exact hrest.2 piece h

theorem mem_joinWith
    {separator : List Char} {pieces : List (List Char)} {c : Char}
    (h : c ∈ joinWith separator pieces) :
    c ∈ separator ∨ ∃ piece ∈ pieces, c ∈ piece := by
  induction pieces with
  | nil => simp [joinWith] at h
  | cons piece rest ih =>
      cases rest with
      | nil => exact Or.inr ⟨piece, List.mem_cons_self, h⟩
      | cons next others =>
          rw [joinWith, List.mem_append, List.mem_append] at h
          rcases h with (h | h) | h
          · exact Or.inr ⟨piece, List.mem_cons_self, h⟩
          · exact Or.inl h
          · rcases ih h with h | ⟨other, hother, hc⟩
            · exact Or.inl h
            · exact Or.inr ⟨other, List.mem_cons_of_mem piece hother, hc⟩
          · simp

/-- Pieces with a separator between them are cut apart again where none of them holds it. -/
theorem splitWhere_joinWith
    {separator : Char} {pieces : List (List Char)} (hne : pieces ≠ [])
    (h : ∀ piece ∈ pieces, separator ∉ piece) :
    splitWhere (· == separator) (joinWith [separator] pieces) = pieces := by
  induction pieces with
  | nil => exact absurd rfl hne
  | cons piece rest ih =>
      rw [List.forall_mem_cons] at h
      have hpiece : ∀ c ∈ piece, (c == separator) = false :=
        fun c hc => beq_false_of_ne fun heq => h.1 (heq ▸ hc)
      cases rest with
      | nil => exact splitWhere_of_forall_not hpiece
      | cons next others =>
          rw [joinWith, List.append_assoc, List.singleton_append,
            splitWhere_append_cons hpiece (beq_self_eq_true separator),
            ih (List.cons_ne_nil next others) h.2]
          exact List.cons_ne_nil next others

theorem joinWith_splitWhere
    (separator : Char) (cs : List Char) :
    joinWith [separator] (splitWhere (· == separator) cs) = cs := by
  induction cs with
  | nil => rfl
  | cons c rest ih =>
      obtain ⟨piece, pieces, hsplit⟩ :=
        List.exists_cons_of_ne_nil (splitWhere_ne_nil (· == separator) rest)
      rw [hsplit] at ih
      by_cases hc : c = separator
      · rw [splitWhere, if_pos (by simpa using hc), hsplit, joinWith, ih, hc]
        · rfl
        · exact List.cons_ne_nil piece pieces
      · rw [splitWhere, if_neg (by simpa using hc), hsplit]
        conv_rhs => rw [← ih]
        cases pieces with
        | nil => rfl
        | cons next others => rfl

theorem joinWith_append
    {separator : List Char} {pieces more : List (List Char)} (hne : pieces ≠ [])
    (hmore : more ≠ []) :
    joinWith separator (pieces ++ more) =
      joinWith separator pieces ++ separator ++ joinWith separator more := by
  induction pieces with
  | nil => exact absurd rfl hne
  | cons piece pieces ih =>
      cases pieces with
      | nil =>
          obtain ⟨next, rest, rfl⟩ := List.exists_cons_of_ne_nil hmore
          rfl
      | cons next rest =>
          have hrest := ih (List.cons_ne_nil next rest)
          simp only [List.cons_append, joinWith] at hrest ⊢
          rw [hrest]
          simp

theorem head?_joinWith_cons
    {separator piece : List Char} {rest : List (List Char)} (h : piece ≠ []) :
    (joinWith separator (piece :: rest)).head? = piece.head? := by
  obtain ⟨c, cs, rfl⟩ := List.exists_cons_of_ne_nil h
  cases rest with
  | nil => rfl
  | cons next others => rfl

theorem getLast?_joinWith_concat
    {separator piece : List Char} {rest : List (List Char)} (h : piece ≠ []) :
    (joinWith separator (rest ++ [piece])).getLast? = piece.getLast? := by
  induction rest with
  | nil => rfl
  | cons first rest ih =>
      obtain ⟨next, others, hrest⟩ : ∃ next others, rest ++ [piece] = next :: others :=
        List.exists_cons_of_ne_nil (by simp)
      rw [List.cons_append, hrest, joinWith, ← hrest, List.getLast?_append, ih,
        List.getLast?_eq_some_getLast h]
      · rfl
      · rw [← hrest]
        simp

theorem joinWith_ne_nil
    {separator : List Char} {pieces : List (List Char)}
    (hne : pieces ≠ []) (h : ∀ piece ∈ pieces, IsWord piece) :
    joinWith separator pieces ≠ [] := by
  obtain ⟨piece, rest, rfl⟩ := List.exists_cons_of_ne_nil hne
  have hpiece := (h piece List.mem_cons_self).1
  intro hnil
  have hhead : (joinWith separator (piece :: rest)).head? = piece.head? :=
    head?_joinWith_cons hpiece
  rw [hnil, List.head?_nil, eq_comm, List.head?_eq_none_iff] at hhead
  exact hpiece hhead

theorem head?_joinWith
    {separator : List Char} {pieces : List (List Char)} (h : ∀ piece ∈ pieces, IsWord piece)
    {c : Char} (hc : (joinWith separator pieces).head? = some c) :
    isBlank c = false := by
  cases pieces with
  | nil => simp [joinWith] at hc
  | cons piece rest =>
      have hpiece := h piece List.mem_cons_self
      rw [head?_joinWith_cons hpiece.1] at hc
      exact hpiece.head? hc

theorem getLast?_joinWith
    {separator : List Char} {pieces : List (List Char)} (h : ∀ piece ∈ pieces, IsWord piece)
    {c : Char} (hc : (joinWith separator pieces).getLast? = some c) :
    isBlank c = false := by
  rcases List.eq_nil_or_concat pieces with rfl | ⟨rest, piece, rfl⟩
  · simp [joinWith] at hc
  · rw [List.concat_eq_append] at h hc
    have hpiece := h piece (by simp)
    rw [getLast?_joinWith_concat hpiece.1] at hc
    exact hpiece.getLast? hc

/-- A line of words has no blank at either end. -/
theorem trim_joinWith
    {separator : List Char} {pieces : List (List Char)} (h : ∀ piece ∈ pieces, IsWord piece) :
    trim (joinWith separator pieces) = joinWith separator pieces :=
  trim_eq_self (fun _ => head?_joinWith h) (fun _ => getLast?_joinWith h)

/-- Fields with spaces between them are read back one by one. -/
theorem fields_joinWith
    {pieces : List (List Char)} (h : ∀ piece ∈ pieces, IsWord piece) :
    fields (joinWith [' '] pieces) = pieces := by
  have hkeep : ∀ piece ∈ pieces, (!piece.isEmpty) = true :=
    fun piece hpiece => by simpa using (h piece hpiece).1
  induction pieces with
  | nil => rfl
  | cons piece rest ih =>
      rw [List.forall_mem_cons] at h hkeep
      cases rest with
      | nil =>
          rw [joinWith, fields, splitWhere_of_forall_not h.1.2]
          simp [hkeep.1]
      | cons next others =>
          rw [joinWith, List.append_assoc, List.singleton_append, fields,
            splitWhere_append_cons h.1.2 (by decide), List.filter_cons, if_pos hkeep.1]
          exact congrArg (piece :: ·) (ih h.2 hkeep.2)
          simp

theorem isWord_of_mem_fields
    {cs piece : List Char} (h : piece ∈ fields cs) :
    IsWord piece ∧ ∀ c ∈ piece, c ∈ cs := by
  rw [fields, List.mem_filter] at h
  have hpiece := not_of_mem_splitWhere h.1
  exact ⟨⟨by simpa using h.2, fun c hc => (hpiece c hc).1⟩, fun c hc => (hpiece c hc).2⟩

theorem fieldsUpTo_cons_blank
    {n : Nat} {b : Char} {cs : List Char} (hb : isBlank b = true) :
    fieldsUpTo n (b :: cs) = fieldsUpTo n cs := by
  rw [fieldsUpTo, List.dropWhile_cons_of_pos hb]
  conv_rhs => rw [fieldsUpTo]

theorem fieldsUpTo_succ_append
    {n : Nat} {field cs : List Char} {b : Char}
    (hfield : IsWord field) (hb : isBlank b = true) :
    fieldsUpTo (n + 1) (field ++ b :: cs) = field :: fieldsUpTo n cs := by
  obtain ⟨c, rest, rfl⟩ := List.exists_cons_of_ne_nil hfield.1
  have hc : isBlank c = false := hfield.2 c List.mem_cons_self
  have hrest : ∀ d ∈ rest, (!isBlank d) = true := by
    intro d hd
    simpa using hfield.2 d (List.mem_cons_of_mem c hd)
  rw [fieldsUpTo, List.cons_append, List.dropWhile_cons_of_neg (by simp [hc])]
  simp only [List.takeWhile_append_of_pos hrest, List.dropWhile_append_of_pos hrest]
  rw [List.takeWhile_cons_of_neg (by simp [hb]), List.append_nil,
    List.dropWhile_cons_of_neg (by simp [hb]), fieldsUpTo_cons_blank hb]

/-- The first fields of a line are read back one by one, and the last one after them. -/
theorem fieldsUpTo_joinWith
    {n : Nat} {pieces : List (List Char)}
    (hlength : pieces.length = n + 1) (h : ∀ piece ∈ pieces, IsWord piece) :
    fieldsUpTo n (joinWith [' '] pieces) = pieces := by
  induction n generalizing pieces with
  | zero =>
      obtain ⟨piece, rfl⟩ := List.length_eq_one_iff.mp hlength
      have hpiece := h piece List.mem_cons_self
      obtain ⟨c, rest, rfl⟩ := List.exists_cons_of_ne_nil hpiece.1
      have hc : isBlank c = false := hpiece.2 c List.mem_cons_self
      rw [joinWith, fieldsUpTo, List.dropWhile_cons_of_neg (by simp [hc])]
  | succ n ih =>
      obtain ⟨piece, rest, rfl⟩ := List.exists_cons_of_length_eq_add_one hlength
      have hrest : rest.length = n + 1 := by simpa using hlength
      obtain ⟨next, others, rfl⟩ := List.exists_cons_of_length_eq_add_one hrest
      rw [List.forall_mem_cons] at h
      rw [joinWith, List.append_assoc, List.singleton_append,
        fieldsUpTo_succ_append h.1 (by decide), ih hrest h.2]
      simp

/-! ## The fields of a text and the rest of it -/

theorem fields_cons_blank
    {b : Char} (hb : isBlank b = true) (cs : List Char) :
    fields (b :: cs) = fields cs := by
  simp [fields, splitWhere, hb]

theorem fields_dropWhile
    (cs : List Char) :
    fields (cs.dropWhile isBlank) = fields cs := by
  induction cs with
  | nil => rfl
  | cons c cs ih =>
      by_cases hc : isBlank c = true
      · rw [List.dropWhile_cons_of_pos hc, fields_cons_blank hc, ih]
      · rw [List.dropWhile_cons_of_neg hc]

/-- A word at the start of a text is its first field. -/
theorem fields_append
    {word rest : List Char} (hword : IsWord word)
    (hrest : ∀ c, rest.head? = some c → isBlank c = true) :
    fields (word ++ rest) = word :: fields rest := by
  have hkeep : (!word.isEmpty) = true := by simpa using hword.1
  cases rest with
  | nil =>
      rw [List.append_nil, fields, splitWhere_of_forall_not hword.2, List.filter_cons, if_pos hkeep]
      rfl
  | cons b rest =>
      have hb : isBlank b = true := hrest b rfl
      rw [fields, splitWhere_append_cons hword.2 hb, List.filter_cons, if_pos hkeep,
        fields_cons_blank hb]
      rfl

/-- The text after its first `n` fields and the blanks around them. -/
def afterFields : Nat → List Char → List Char
  | 0, cs => cs.dropWhile isBlank
  | n + 1, cs => afterFields n ((cs.dropWhile isBlank).dropWhile (!isBlank ·))

theorem fields_of_dropWhile_eq_cons
    {cs rest : List Char} {c : Char} (h : cs.dropWhile isBlank = c :: rest) :
    fields cs = (c :: rest.takeWhile (!isBlank ·)) :: fields (rest.dropWhile (!isBlank ·)) := by
  have hc : isBlank c = false := head?_dropWhile cs (by rw [h]; rfl)
  have hword : IsWord (c :: rest.takeWhile (!isBlank ·)) := by
    refine ⟨List.cons_ne_nil _ _, ?_⟩
    rw [List.forall_mem_cons]
    exact ⟨hc, fun d hd => by simpa using List.mem_takeWhile_imp hd⟩
  have hrest (d : Char) (hd : (rest.dropWhile (!isBlank ·)).head? = some d) :
      isBlank d = true := by
    simpa using head?_dropWhile rest hd
  rw [← fields_append hword hrest, List.cons_append, List.takeWhile_append_dropWhile, ← h,
    fields_dropWhile]

theorem fields_eq_nil
    {cs : List Char} (h : cs.dropWhile isBlank = []) :
    fields cs = [] := by
  rw [← fields_dropWhile, h]
  rfl

/-- A text of few fields is cut into all of them, and a longer one is left whole after the first
ones. -/
theorem fieldsUpTo_eq
    (n : Nat) (cs : List Char) :
    fieldsUpTo n cs =
      if (fields cs).length ≤ n then fields cs else (fields cs).take n ++ [afterFields n cs] := by
  induction n generalizing cs with
  | zero =>
      rw [fieldsUpTo]
      cases hdrop : cs.dropWhile isBlank with
      | nil => simp [fields_eq_nil hdrop]
      | cons c rest => simp [fields_of_dropWhile_eq_cons hdrop, afterFields, hdrop]
  | succ n ih =>
      rw [fieldsUpTo]
      cases hdrop : cs.dropWhile isBlank with
      | nil => simp [fields_eq_nil hdrop]
      | cons c rest =>
          have hc : isBlank c = false := head?_dropWhile cs (by rw [hdrop]; rfl)
          have hafter : afterFields (n + 1) cs = afterFields n (rest.dropWhile (!isBlank ·)) := by
            rw [afterFields, hdrop, List.dropWhile_cons_of_pos (by simp [hc])]
          rw [fields_of_dropWhile_eq_cons hdrop, hafter, List.length_cons, List.take_succ_cons]
          simp only [Nat.add_le_add_iff_right, ih]
          split <;> rfl

/-- All fields but the one that takes the rest of the line are words. -/
theorem isWord_of_mem_take_fieldsUpTo
    {n : Nat} {cs piece : List Char} (h : piece ∈ (fieldsUpTo n cs).take n) :
    IsWord piece ∧ ∀ c ∈ piece, c ∈ cs := by
  have hfield : piece ∈ fields cs := by
    rw [fieldsUpTo_eq] at h
    split at h
    · exact List.mem_of_mem_take h
    · next hlong =>
        have hlength : ((fields cs).take n).length = n := by
          rw [List.length_take]
          omega
        rw [List.take_left' hlength] at h
        exact List.mem_of_mem_take h
  exact isWord_of_mem_fields hfield

end RingTape.Text
