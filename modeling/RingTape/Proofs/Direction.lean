import RingTape.Proofs.Text.LowerCase
import RingTape.Proofs.Text.Numeral
import RingTape.Rule

/-!
# What stands for a direction

A direction is an integer, whose sign tells the way, or a name in letters of either case.  A text
that is neither has one fault, be it empty, too long a number or a name in other letters.
-/

namespace RingTape

open Text

namespace Direction

/-! ## Names -/

/-- The spellings of a direction in small letters. -/
def spellings : Direction → List (List Char)
  | .left => [['l', 'e', 'f', 't'], ['l']]
  | .right => [['r', 'i', 'g', 'h', 't'], ['r']]
  | .stay => [['n', 'o', 'n', 'e'], ['n']]

theorem spellings_eq
    (d : Direction) :
    d.spellings = [lower d.name, lower [d.code]] := by
  cases d <;> decide

theorem lt_of_mem_spellings
    {d : Direction} :
    ∀ name ∈ d.spellings, ∀ x ∈ name, x.toNat < 128 ∧ x ≠ 'k' := by
  have hall : d.spellings.all (·.all fun x => decide (x.toNat < 128 ∧ x ≠ 'k')) = true := by
    cases d <;> decide
  simpa only [List.all_eq_true, decide_eq_true_eq] using hall

theorem lower_mem_spellings_iff
    {t : List Char} {d : Direction} :
    lower t ∈ d.spellings ↔ t.map Char.toLower ∈ d.spellings := by
  constructor
  · intro h
    rwa [(lower_eq_iff (lt_of_mem_spellings _ h)).mp rfl]
  · intro h
    rwa [(lower_eq_iff (lt_of_mem_spellings _ h)).mpr rfl]

/-- The name is compared with all full names before the first letters, which makes no difference. -/
theorem ofName?_eq_some_iff
    {t : List Char} {d : Direction} :
    ofName? t = some d ↔ t.map Char.toLower ∈ d.spellings := by
  rw [← lower_mem_spellings_iff]
  constructor
  · intro h
    rw [spellings_eq]
    unfold ofName? at h
    dsimp only at h
    split at h
    · next other hfull =>
        cases h
        have hname := List.find?_some hfull
        rw [beq_iff_eq] at hname
        exact hname ▸ List.mem_cons_self
    · have hcode := List.find?_some h
      rw [beq_iff_eq] at hcode
      exact hcode ▸ List.mem_cons_of_mem _ List.mem_cons_self
  · intro h
    unfold ofName?
    generalize lower t = lowered at h
    revert lowered
    cases d <;> decide

/-! ## Integers and names -/

theorem offset_ofOffset
    (n : Int) :
    (ofOffset n).offset = n.sign := by
  rw [ofOffset]
  split_ifs with hneg hpos
  · exact (Int.sign_eq_neg_one_of_neg hneg).symm
  · exact (Int.sign_eq_one_of_pos hpos).symm
  · obtain rfl : n = 0 := by omega
    rfl

/-- The directions that a text without blanks at its ends stands for. -/
inductive Spelled (t : List Char) : Direction → Prop
  /-- The sign of an integer tells the way. -/
  | integer {n : Int} {d : Direction} (hn : IsNumeral t n) (hd : d.offset = n.sign) : Spelled t d
  /-- Any other text is a name, in which ASCII letters may be capitals. -/
  | name {d : Direction} (hn : ∀ n, ¬ IsNumeral t n) (ht : t.map Char.toLower ∈ d.spellings) :
      Spelled t d

theorem parse?_eq_some_iff
    {text : List Char} {d : Direction} :
    parse? text = some d ↔ Spelled (trim text) d := by
  have hinteger {n : Int} : integer? (trim text) = some n ↔ IsNumeral (trim text) n :=
    integer?_eq_some_iff (endsOutside_trim text)
  unfold parse?
  dsimp only
  cases hread : integer? (trim text) with
  | some n =>
      have hn := hinteger.mp hread
      dsimp only
      constructor
      · intro h
        cases h
        exact .integer hn (offset_ofOffset n)
      · intro h
        cases h with
        | integer hn' hd =>
            obtain rfl := Option.some.inj (hread.symm.trans (hinteger.mpr hn'))
            rw [← ofOffset_offset d, hd, ← offset_ofOffset, ofOffset_offset]
        | name hnone _ => exact absurd hn (hnone n)
  | none =>
      have hnone (n : Int) : ¬ IsNumeral (trim text) n := by
        intro hn
        rw [hinteger.mpr hn] at hread
        cases hread
      dsimp only
      rw [ofName?_eq_some_iff]
      constructor
      · exact .name hnone
      · intro h
        cases h with
        | integer hn _ => exact absurd hn (hnone _)
        | name _ ht => exact ht

theorem parse_eq_ok_iff
    {text : List Char} {d : Direction} :
    parse text = .ok d ↔ Spelled (trim text) d := by
  rw [← parse?_eq_some_iff, parse]
  cases parse? text <;> simp

theorem parse_eq_error_iff
    {text : List Char} {fault : RuleFault} :
    parse text = .error fault ↔
      fault = .direction text ∧ ∀ d, ¬ Spelled (trim text) d := by
  simp only [← parse?_eq_some_iff, parse]
  cases parse? text <;> simp [eq_comm]

/-- A direction is read exactly from an integer or a name, and every other text has the one fault.
No letter beyond ASCII gets into a name by its lower case.  The letter of a direction and the text
of an integer are therefore read as what they were written for. -/
theorem parse_by_grammar :
    (∀ (text : List Char) (d : Direction), parse text = .ok d ↔ Spelled (trim text) d) ∧
      (∀ (text : List Char) (fault : RuleFault),
        parse text = .error fault ↔ fault = .direction text ∧ ∀ d, ¬ Spelled (trim text) d) ∧
      (∀ (t : List Char) (d : Direction), lower t ∈ d.spellings → ∀ c ∈ t, c.toNat < 128) ∧
      (∀ d : Direction, parse [d.code] = .ok d) ∧
      ∀ n : Int, (natText n.natAbs).length ≤ 4300 → parse (intText n) = .ok (ofOffset n) := by
  refine ⟨fun _ _ => parse_eq_ok_iff, fun _ _ => parse_eq_error_iff,
    fun t d ht => lt_of_lower_eq (lt_of_mem_spellings _ ht) rfl, fun d => ?_, fun n hn => ?_⟩
  · rw [parse, parse?_code]
  · have htrim : trim (intText n) = intText n := trimWhere_eq_self fun _ => isBlank_of_mem_intText
    rw [parse_eq_ok_iff, htrim]
    exact .integer (isNumeral_intText hn) (offset_ofOffset n)

/-- An underscore may stand between digits of two scripts, and a zero may stand in front. -/
theorem parse_by_grammar_of_minus_one :
    lower ['l'] ∈ left.spellings ∧ 'l'.toNat < 128 ∧
      (natText (-1 : Int).natAbs).length ≤ 4300 ∧ parse (intText (-1)) = .ok .left ∧
      parse [' ', '-', '٠', '_', '1'] = .ok .left := by
  have hmagnitude : IsMagnitude ['٠', '_', '1'] 1 :=
    ⟨[0, 1], .underscore (by decide) (.digit (by decide)), by decide, rfl⟩
  obtain ⟨hread, -, hletters, -, hwritten⟩ := parse_by_grammar
  exact ⟨by decide, hletters ['l'] .left (by decide) 'l' List.mem_cons_self, by decide,
    hwritten (-1) (by decide), (hread _ _).mpr (.integer (.minus hmagnitude) rfl)⟩

end Direction

end RingTape
