import RingTape.Proofs.Program.Faults
import Mathlib.Logic.Relation

/-!
# Remarks, blanks and line ends

Blanks at the end of a line, a comment behind them and the end of the line itself say nothing, and a
line that holds nothing else says nothing either.  Whatever is changed there, and however many such
lines are put in, a program stays the same program.  A line at fault keeps its fault, and its number
counts the lines that are put in before it.
-/

namespace RingTape

open Text

/-- A text that says nothing at the end of a line, nor as a line of its own: blanks, and perhaps a
comment behind them. -/
inductive IsSilent : List Char → Prop
  | blank {cs : List Char} (hcs : ∀ c ∈ cs, isBlank c = true) : IsSilent cs
  | comment {blanks : List Char} (hblanks : ∀ c ∈ blanks, isBlank c = true) (note : List Char) :
      IsSilent (blanks ++ ';' :: note)

/-! ## Silent ends of lines -/

namespace IsSilent

variable {tail : List Char}

theorem blank_append
    {blanks : List Char} (hblanks : ∀ c ∈ blanks, isBlank c = true) (h : IsSilent tail) :
    IsSilent (blanks ++ tail) := by
  cases h with
  | blank htail =>
      refine .blank fun c hc => ?_
      exact (List.mem_append.mp hc).elim (hblanks c) (htail c)
  | @comment others hothers note =>
      rw [← List.append_assoc]
      refine .comment (fun c hc => ?_) note
      exact (List.mem_append.mp hc).elim (hblanks c) (hothers c)

theorem isBlank_beforeComment
    (h : IsSilent tail) :
    ∀ c ∈ beforeComment tail, isBlank c = true := by
  intro c hc
  cases h with
  | blank htail => exact htail c (List.takeWhile_subset _ hc)
  | @comment blanks hblanks note =>
      have hsemicolon : ∀ c ∈ blanks, (c != ';') = true := by
        intro c hc
        rw [bne_iff_ne]
        rintro rfl
        exact absurd (hblanks _ hc) (by decide)
      rw [beforeComment, List.takeWhile_append_of_pos hsemicolon] at hc
      simp only [bne_self_eq_false, Bool.false_eq_true, not_false_eq_true,
        List.takeWhile_cons_of_neg, List.append_nil] at hc
      exact hblanks c hc

theorem content_append
    (h : IsSilent tail) (text : List Char) :
    Program.content (text ++ tail) = Program.content text := by
  have htext : beforeComment (text ++ tail) = beforeComment text ∨
      beforeComment (text ++ tail) = beforeComment text ++ beforeComment tail := by
    rw [beforeComment, beforeComment, List.takeWhile_append]
    split
    · next hlength =>
        have hall := (List.takeWhile_prefix (· != ';')).eq_of_length hlength
        rw [hall]
        exact .inr rfl
    · exact .inl rfl
  rcases htext with hsame | hlonger
  · rw [Program.content, hsame, Program.content]
  · rw [Program.content, hlonger, trim_append_of_blank _ h.isBlank_beforeComment, Program.content]

/-- A line that says nothing is a remark. -/
theorem ofLine_eq
    (h : IsSilent tail) :
    Item.ofLine tail = .ok .remark := by
  have hcontent : Program.content tail = [] := h.content_append []
  have hhead : ∀ mark, isBlank mark = false → mark ≠ ';' → tail.head? ≠ some mark := by
    intro mark hblank hsemicolon hhead
    cases h with
    | blank htail =>
        rw [htail mark (List.mem_of_mem_head? hhead)] at hblank
        cases hblank
    | @comment blanks hblanks note =>
        cases blanks with
        | nil => exact hsemicolon (Option.some.inj hhead).symm
        | cons c blanks =>
            rw [← Option.some.inj hhead, hblanks c List.mem_cons_self] at hblank
            cases hblank
  have hkind : LineKind.ofLine tail = .blank ∨ LineKind.ofLine tail = .comment ∨
      LineKind.ofLine tail = .rule := by
    unfold LineKind.ofLine
    rw [if_neg (hhead '#' rfl (by decide)), if_neg (hhead '~' rfl (by decide)),
      if_neg (hhead '@' rfl (by decide))]
    split_ifs <;> simp
  rw [Item.ofLine_eq, hcontent]
  rcases hkind with hkind | hkind | hkind
  · rw [hkind]
  · rw [hkind]
  · rw [hkind, if_pos rfl]

/-- What a line says does not depend on the silent text at its end. -/
theorem ofLine_append
    (h : IsSilent tail) (text : List Char) :
    Item.ofLine (text ++ tail) = Item.ofLine text := by
  by_cases htext : ∀ c ∈ text, isBlank c = true
  · rw [(h.blank_append htext).ofLine_eq, (IsSilent.blank htext).ofLine_eq]
  · obtain ⟨c, rest, rfl⟩ : ∃ c rest, text = c :: rest := by
      apply List.exists_cons_of_ne_nil
      rintro rfl
      exact htext (by simp)
    have hkind : LineKind.ofLine (c :: rest ++ tail) = LineKind.ofLine (c :: rest) := by
      have hall : (c :: rest).all isBlank = false := by
        rw [← Bool.not_eq_true, List.all_eq_true]
        exact htext
      unfold LineKind.ofLine
      rw [List.all_append, hall]
      rfl
    have hbody : Program.body (c :: rest ++ tail) = Program.body (c :: rest) :=
      h.content_append rest
    rw [Item.ofLine_eq, Item.ofLine_eq, hkind, h.content_append, hbody, Program.symbols,
      Program.symbols, hbody]

end IsSilent

theorem isBlank_of_isReturnOrFeed
    {c : Char} (h : isReturnOrFeed c = true) :
    isBlank c = true := by
  rw [isReturnOrFeed, Bool.or_eq_true, beq_iff_eq, beq_iff_eq] at h
  rcases h with rfl | rfl <;> rfl

theorem Item.ofLine_append_lineEnd
    (text : List Char) {ends : List Char} (hends : ∀ c ∈ ends, isReturnOrFeed c = true) :
    Item.ofLine (text ++ ends) = Item.ofLine text :=
  IsSilent.ofLine_append (.blank fun c hc => isBlank_of_isReturnOrFeed (hends c hc)) text

/-- The end of a line need not be dropped before it is read. -/
theorem Item.ofLine_dropLineEnd
    (line : List Char) :
    Item.ofLine (dropLineEnd line) = Item.ofLine line := by
  have hsplit : line = dropLineEnd line ++ line.rtakeWhile isReturnOrFeed := by
    rw [dropLineEnd, dropWhileEnd_eq_rdropWhile, List.rdropWhile_append_rtakeWhile]
  have hends : ∀ c ∈ line.rtakeWhile isReturnOrFeed, isReturnOrFeed c = true :=
    fun c hc => List.mem_rtakeWhile_imp hc
  rw [hsplit, Item.ofLine_append_lineEnd _ hends, ← hsplit]

/-! ## Retouched lines -/

/-- A line is changed behind what it says, before its end or at its end. -/
inductive Retouches : List Char → List Char → Prop
  | remark (text : List Char) {tail ends : List Char} (htail : IsSilent tail)
      (hends : ∀ c ∈ ends, isReturnOrFeed c = true) : Retouches (text ++ ends) (text ++ tail ++ ends)
  | lineEnd (text : List Char) {ends ends' : List Char}
      (hends : ∀ c ∈ ends, isReturnOrFeed c = true)
      (hends' : ∀ c ∈ ends', isReturnOrFeed c = true) : Retouches (text ++ ends) (text ++ ends')

theorem IsSilent.append_lineEnd
    {tail ends : List Char} (h : IsSilent tail) (hends : ∀ c ∈ ends, isReturnOrFeed c = true) :
    IsSilent (tail ++ ends) := by
  cases h with
  | blank htail =>
      refine .blank fun c hc => ?_
      exact (List.mem_append.mp hc).elim (htail c) fun hc => isBlank_of_isReturnOrFeed (hends c hc)
  | @comment blanks hblanks note =>
      rw [List.append_assoc, List.cons_append]
      exact .comment hblanks (note ++ ends)

/-- However often a line is retouched, it says the same. -/
theorem Item.ofLine_eq_of_retouches
    {line line' : List Char} (h : Relation.ReflTransGen Retouches line line') :
    Item.ofLine line' = Item.ofLine line := by
  induction h with
  | refl => rfl
  | tail _ hstep ih =>
      rw [← ih]
      cases hstep with
      | remark text htail hends =>
          rw [List.append_assoc, (htail.append_lineEnd hends).ofLine_append,
            Item.ofLine_append_lineEnd text hends]
      | lineEnd text hends hends' =>
          rw [Item.ofLine_append_lineEnd text hends, Item.ofLine_append_lineEnd text hends']

/-! ## Revised programs -/

/-- A line of a revised program: it says nothing and is put in, or it is an old one, retouched. -/
inductive Revision where
  | inserted (line : List Char) (h : IsSilent line)
  | kept (old new : List Char) (h : Relation.ReflTransGen Retouches old new)

namespace Revision

/-- The line as it is before the revision, if it is there. -/
def old? : Revision → Option (List Char)
  | .inserted _ _ => none
  | .kept old _ _ => some old

/-- The line as it is after the revision. -/
def new : Revision → List Char
  | .inserted line _ => line
  | .kept _ new _ => new

/-- The line is put in by the revision. -/
def isInserted : Revision → Bool
  | .inserted _ _ => true
  | .kept _ _ _ => false

/-- The lines before a revision. -/
def original (revisions : List Revision) : List (List Char) :=
  revisions.filterMap old?

/-- The lines after a revision. -/
def revised (revisions : List Revision) : List (List Char) :=
  revisions.map new

variable {revisions : List Revision} {found : List Item}

theorem length_revised
    (revisions : List Revision) :
    (revised revisions).length = (original revisions).length + revisions.countP isInserted := by
  have hkept : (original revisions).length = revisions.countP fun r => ¬ isInserted r := by
    rw [original, List.length_filterMap_eq_countP]
    apply List.countP_congr
    intro r _
    cases r <;> simp [old?, isInserted]
  rw [hkept, revised, List.length_map, List.length_eq_countP_add_countP isInserted, Nat.add_comm]

/-- The items of the revised lines are the old ones, with remarks among them. -/
theorem exists_says_revised
    (h : Program.Says (original revisions) found) :
    ∃ found', Program.Says (revised revisions) found' ∧
      found'.filter (· ≠ .remark) = found.filter (· ≠ .remark) := by
  induction revisions generalizing found with
  | nil => exact ⟨found, h, rfl⟩
  | cons r revisions ih =>
      cases r with
      | inserted line hline =>
          obtain ⟨found', hsays, hsame⟩ := ih h
          refine ⟨.remark :: found', .cons ?_ hsays, ?_⟩
          · rw [Item.ofLine_dropLineEnd]
            exact hline.ofLine_eq
          · rw [← hsame]
            rfl
      | kept old new hnew =>
          obtain ⟨i, others, hold, hothers, rfl⟩ := List.forall₂_cons_left_iff.mp h
          obtain ⟨found', hsays, hsame⟩ := ih hothers
          refine ⟨i :: found', .cons ?_ hsays, ?_⟩
          · rw [Item.ofLine_dropLineEnd] at hold ⊢
            exact (Item.ofLine_eq_of_retouches hnew).trans hold
          · rw [List.filter_cons, List.filter_cons, hsame]

theorem not_malformed_revised
    (h : ∀ line ∈ original revisions, ¬ Program.Malformed (dropLineEnd line)) :
    ∀ line ∈ revised revisions, ¬ Program.Malformed (dropLineEnd line) := by
  obtain ⟨found, hfound⟩ := Program.exists_says_iff.mpr h
  obtain ⟨found', hfound', -⟩ := exists_says_revised hfound
  exact Program.exists_says_iff.mp ⟨found', hfound'⟩

/-- An old line is found among the revisions, with all that is put in before it. -/
theorem exists_kept_of_original
    {before : List (List Char)} {line : List Char} {rest : List (List Char)}
    (h : original revisions = before ++ line :: rest) :
    ∃ earlier new hnew later, revisions = earlier ++ .kept line new hnew :: later ∧
      original earlier = before := by
  obtain ⟨earlier, others, rfl, hearlier, hothers⟩ := List.filterMap_eq_append_iff.mp h
  obtain ⟨silent, r, later, rfl, hsilent, hr, -⟩ := List.filterMap_eq_cons_iff.mp hothers
  cases r with
  | inserted text htext => cases hr
  | kept old new hnew =>
      cases hr
      refine ⟨earlier ++ silent, new, hnew, later, ?_, ?_⟩
      · rw [List.append_assoc]
      · rw [original, List.filterMap_append, hearlier, List.filterMap_eq_nil_iff.mpr hsilent,
          List.append_nil]

end Revision

namespace Program

/-- A remark makes no difference to the program. -/
theorem assemble_filter
    (n : Nat) (found : List Item) :
    assemble n (found.filter (· ≠ .remark)) = assemble n found := by
  have hpick {β : Type} {pick : Item → Option β} (hremark : pick .remark = none) :
      (found.filter (· ≠ .remark)).filterMap pick = found.filterMap pick := by
    rw [List.filterMap_filter]
    apply List.filterMap_congr
    intro i _
    by_cases hi : i = .remark
    · simp [hi, hremark]
    · simp [hi]
  have hrules : rules (found.filter (· ≠ .remark)) = rules found := hpick rfl
  have hterminals : terminals (found.filter (· ≠ .remark)) = terminals found := hpick rfl
  have hfillers : fillers (found.filter (· ≠ .remark)) = fillers found := hpick rfl
  have hinitial : initial? (found.filter (· ≠ .remark)) = initial? found := by
    rw [initial?, initial?, ← List.head?_filterMap, ← List.head?_filterMap, hpick rfl]
  rw [assemble, assemble, initialState?, initialState?, filler?, filler?, hinitial, hrules,
    hterminals, hfillers]

variable {size : Datum} {revisions : List Revision}

/-- Lines that all say something are the same program after the revision, or fail alike. -/
theorem parse_revised_of_not_malformed
    (h : ∀ line ∈ Revision.original revisions, ¬ Malformed (dropLineEnd line)) (size : Datum) :
    parse size (Revision.revised revisions) = parse size (Revision.original revisions) := by
  obtain ⟨found, hsays⟩ := exists_says_iff.mpr h
  obtain ⟨found', hsays', hsame⟩ := Revision.exists_says_revised hsays
  have hassemble (n : Nat) : assemble n found' = assemble n found := by
    rw [← assemble_filter, hsame, assemble_filter]
  rw [parse, parse]
  cases RingTape.tapeSize size with
  | error fault => rfl
  | ok n =>
      dsimp only
      rw [items_eq_ok hsays, items_eq_ok hsays']
      exact hassemble n

/-- A fault is the same after the revision.  A line at fault keeps its fault and is told by its new
number, which is that of the old line and one more for each line that is put in before it. -/
inductive Carries (revisions : List Revision) : ProgramFault → ProgramFault → Prop
  | tapeSize (fault : TapeSizeFault) : Carries revisions (.tapeSize fault) (.tapeSize fault)
  | line {before : List Revision} {old new : List Char} {h : Relation.ReflTransGen Retouches old new}
      {after : List Revision} (fault : LineFault) : revisions = before ++ .kept old new h :: after →
      Carries revisions
        (.line ((Revision.original before).length + 1) (dropLineEnd old) fault)
        (.line ((Revision.original before).length + 1 + before.countP Revision.isInserted)
          (dropLineEnd new) fault)
  | noInitialState : Carries revisions .noInitialState .noInitialState

theorem Carries.exists_line
    {number : Nat} {text : List Char} {reason : LineFault} {fault : ProgramFault}
    (h : Carries revisions (.line number text reason) fault) :
    ∃ number' text', fault = .line number' text' reason := by
  cases h
  exact ⟨_, _, rfl⟩

theorem FailsWith.exists_carries
    {fault : ProgramFault} (h : FailsWith size (Revision.original revisions) fault) :
    ∃ fault', parse size (Revision.revised revisions) = .error fault' ∧
      Carries revisions fault fault' := by
  cases h with
  | illegalSize hsize htext =>
      exact ⟨_, (FailsWith.illegalSize hsize htext).parse_eq_error, .tapeSize _⟩
  | unshowableSize hsize htext =>
      exact ⟨_, (FailsWith.unshowableSize hsize htext).parse_eq_error, .tapeSize _⟩
  | @line before line rest fault hsize hlines hbefore hfault =>
      obtain ⟨earlier, new, hnew, later, rfl, rfl⟩ := Revision.exists_kept_of_original hlines
      have hsplit : Revision.revised (earlier ++ .kept line new hnew :: later) =
          Revision.revised earlier ++ new :: Revision.revised later := by
        simp [Revision.revised, Revision.new]
      have hfault' : Item.Faulty (dropLineEnd new) fault := by
        apply Item.faulty_of_ofLine
        rw [Item.ofLine_dropLineEnd, Item.ofLine_eq_of_retouches hnew, ← Item.ofLine_dropLineEnd]
        exact hfault.ofLine_eq_error
      have hfails := FailsWith.line hsize hsplit (Revision.not_malformed_revised hbefore) hfault'
      rw [Revision.length_revised, Nat.add_right_comm] at hfails
      exact ⟨_, hfails.parse_eq_error, .line fault rfl⟩
  | noInitialState hsize hlines hinitials hrules =>
      have hparse := (FailsWith.noInitialState hsize hlines hinitials hrules).parse_eq_error
      rw [← parse_revised_of_not_malformed hlines] at hparse
      exact ⟨_, hparse, .noInitialState⟩

/-- Remarks, blanks at the ends of lines and line ends carry no meaning.  Lines are the same program
after any revision of them, and what is refused is refused for the same reason. -/
theorem parse_revised
    (size : Datum) (revisions : List Revision) :
    (∀ ruleset, parse size (Revision.revised revisions) = .ok ruleset ↔
        parse size (Revision.original revisions) = .ok ruleset) ∧
      ∀ fault, parse size (Revision.original revisions) = .error fault →
        ∃ fault', parse size (Revision.revised revisions) = .error fault' ∧
          Carries revisions fault fault' := by
  have herror : ∀ fault, parse size (Revision.original revisions) = .error fault →
      ∃ fault', parse size (Revision.revised revisions) = .error fault' ∧
        Carries revisions fault fault' :=
    fun fault hfault => (parse_eq_error_iff.mp hfault).exists_carries
  refine ⟨fun ruleset => ?_, herror⟩
  cases hparse : parse size (Revision.original revisions) with
  | error fault =>
      obtain ⟨fault', hfault', -⟩ := herror fault hparse
      simp [hfault']
  | ok r =>
      obtain ⟨-, hlines, -⟩ := exists_parse_iff.mp ⟨r, hparse⟩
      rw [parse_revised_of_not_malformed hlines, hparse]

/-- A remark and a blank line are put in, and all three old lines are retouched: a program stays the
same, and an empty terminal state behind it stays at fault. -/
theorem parse_revised_of_retouched_lines :
    parse (.int 4) [" ;u".toList, "~s  ".toList, "@x !;y;z\n".toList, "\t".toList,
        "a b ! c R ;\r\n".toList] =
      .ok ⟨[⟨some "a", some "b", none, some "c", .toward .right⟩], some "s", .ofNames [],
        some [some "x", none], 4⟩ ∧
    ∃ number text, parse (.int 4) [" ;u".toList, "~s  ".toList, "@x !;y;z\n".toList, "\t".toList,
        "a b ! c R ;\r\n".toList, "#".toList] = .error (.line number text .noTerminal) := by
  have hsilent {cs : List Char} (hcs : cs.all isBlank = true) : IsSilent cs :=
    .blank (List.all_eq_true.mp hcs)
  have hnote {cs : List Char} (hcs : cs.all isBlank = true) (note : List Char) :
      IsSilent (cs ++ ';' :: note) :=
    .comment (List.all_eq_true.mp hcs) note
  have hends {cs : List Char} (hcs : cs.all isReturnOrFeed = true) :
      ∀ c ∈ cs, isReturnOrFeed c = true :=
    List.all_eq_true.mp hcs
  have hinitial : Relation.ReflTransGen Retouches "~s\n".toList "~s  ".toList :=
    .tail (.single (@Retouches.remark "~s".toList "  ".toList "\n".toList (hsilent rfl) (hends rfl)))
      (@Retouches.lineEnd "~s  ".toList "\n".toList [] (hends rfl) (hends rfl))
  have hfiller : Relation.ReflTransGen Retouches "@x !;y\n".toList "@x !;y;z\n".toList :=
    .single (@Retouches.remark "@x !;y".toList ";z".toList "\n".toList
      (@hnote [] rfl "z".toList) (hends rfl))
  have hrule : Relation.ReflTransGen Retouches "a b ! c R\r\n".toList "a b ! c R ;\r\n".toList :=
    .single (@Retouches.remark "a b ! c R".toList " ;".toList "\r\n".toList
      (@hnote " ".toList rfl []) (hends rfl))
  let revisions : List Revision :=
    [.inserted " ;u".toList (@hnote " ".toList rfl "u".toList), .kept _ _ hinitial,
      .kept _ _ hfiller, .inserted "\t".toList (hsilent rfl), .kept _ _ hrule]
  have hprogram := ((parse_revised (.int 4) revisions).1 ⟨[⟨some "a", some "b", none, some "c",
    .toward .right⟩], some "s", .ofNames [], some [some "x", none], 4⟩).mpr rfl
  obtain ⟨fault, hfault, hcarries⟩ :=
    (parse_revised (.int 4) (revisions ++ [.kept "#".toList "#".toList .refl])).2
      (.line 4 "#".toList .noTerminal) rfl
  obtain ⟨number, text, rfl⟩ := hcarries.exists_line
  exact ⟨hprogram, number, text, hfault⟩

end Program

end RingTape
