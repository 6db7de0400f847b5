import RingTape.Proofs.Checked
import RingTape.Proofs.Text.Fields
import RingTape.Text.Numeral
import Mathlib.Data.Nat.Digits.Defs

/-!
# Decimal numerals

A decimal numeral is a sign or none and a run of digits, and an underscore may stand between two
digits.  Reading takes the longest text of digits and underscores first, and asks afterwards whether
it is such a run.  Here the numerals are told by their form instead, and the numeral that is written
for an integer is one of them.
-/

namespace RingTape.Text

/-! ## Decimal digits -/

theorem decimalValue?_lt
    {c : Char} {d : Nat} (h : decimalValue? c = some d) :
    d < 10 := by
  rw [decimalValue?, Option.map_eq_some_iff] at h
  obtain ⟨first, hfirst, rfl⟩ := h
  have hrange := List.find?_some hfirst
  rw [Bool.and_eq_true, decide_eq_true_eq, decide_eq_true_eq] at hrange
  omega

/-- Letters are digits of greater bases only. -/
theorem digitIn?_ten
    (c : Char) :
    digitIn? 10 c = decimalValue? c := by
  rw [digitIn?, digitValue?]
  cases h : decimalValue? c with
  | some d => exact Option.filter_some_pos (by simpa using decimalValue?_lt h)
  | none =>
      dsimp only
      split_ifs with hlower hupper
      · rw [Bool.and_eq_true, decide_eq_true_eq, decide_eq_true_eq] at hlower
        exact Option.filter_some_neg (by simp; omega)
      · rw [Bool.and_eq_true, decide_eq_true_eq, decide_eq_true_eq] at hupper
        exact Option.filter_some_neg (by simp; omega)
      · rfl

theorem ne_of_decimalValue?
    {c d : Char} {n : Nat} (h : decimalValue? c = some n) (hd : decimalValue? d = none) :
    c ≠ d := by
  rintro rfl
  rw [hd] at h
  cases h

/-- Decimal digits with their values.  A single underscore may stand between two of them. -/
inductive DigitRun : List Char → List Nat → Prop
  | digit {c : Char} {d : Nat} (hc : decimalValue? c = some d) : DigitRun [c] [d]
  | next {c : Char} {d : Nat} {cs : List Char} {ds : List Nat} (hc : decimalValue? c = some d)
      (hcs : DigitRun cs ds) : DigitRun (c :: cs) (d :: ds)
  | underscore {c : Char} {d : Nat} {cs : List Char} {ds : List Nat}
      (hc : decimalValue? c = some d) (hcs : DigitRun cs ds) :
      DigitRun (c :: '_' :: cs) (d :: ds)

namespace DigitRun

variable {cs : List Char} {ds : List Nat}

theorem exists_eq_cons
    (h : DigitRun cs ds) :
    ∃ c rest, cs = c :: rest ∧ ∃ d, decimalValue? c = some d := by
  cases h with
  | digit hc => exact ⟨_, _, rfl, _, hc⟩
  | next hc _ => exact ⟨_, _, rfl, _, hc⟩
  | underscore hc _ => exact ⟨_, _, rfl, _, hc⟩

theorem isNumeralChar_of_mem
    (h : DigitRun cs ds) :
    ∀ c ∈ cs, isNumeralChar 10 c = true := by
  have hdigit {c : Char} {d : Nat} (hc : decimalValue? c = some d) : isNumeralChar 10 c = true := by
    rw [isNumeralChar, digitIn?_ten, hc]
    exact Bool.or_true _
  induction h with
  | digit hc => simpa using hdigit hc
  | next hc _ ih => exact List.forall_mem_cons.mpr ⟨hdigit hc, ih⟩
  | underscore hc _ ih =>
      rw [List.forall_mem_cons, List.forall_mem_cons]
      exact ⟨hdigit hc, rfl, ih⟩

theorem digitValues?_eq
    (h : DigitRun cs ds) :
    digitValues? 10 cs = some ds := by
  induction h with
  | digit hc => rw [digitValues?, digitIn?_ten, hc, Option.map_some]
  | @next c d cs ds hc hcs ih =>
      obtain ⟨c', rest, rfl, d', hc'⟩ := hcs.exists_eq_cons
      have hne : c' ≠ '_' := ne_of_decimalValue? hc' (by decide)
      rw [digitValues?, digitIn?_ten, hc, ih]
      · simp
      · intro rest' hrest
        exact hne (List.cons.inj hrest).1
  | underscore hc _ ih => rw [digitValues?, digitIn?_ten, hc, ih]

theorem of_digitValues?
    (h : digitValues? 10 cs = some ds) :
    DigitRun cs ds := by
  fun_induction digitValues? 10 cs generalizing ds with
  | case1 => cases h
  | case2 c =>
      rw [digitIn?_ten, Option.map_eq_some_iff] at h
      obtain ⟨d, hd, rfl⟩ := h
      exact .digit hd
  | case3 c rest d more hmore hd ih =>
      cases h
      exact .underscore (digitIn?_ten c ▸ hd) (ih hmore)
  | case4 => cases h
  | case5 c rest _ _ d more hmore hd ih =>
      cases h
      exact .next (digitIn?_ten c ▸ hd) (ih hmore)
  | case6 => cases h

end DigitRun

theorem digitValues?_eq_some_iff
    {cs : List Char} {ds : List Nat} :
    digitValues? 10 cs = some ds ↔ DigitRun cs ds :=
  ⟨DigitRun.of_digitValues?, DigitRun.digitValues?_eq⟩

/-- The most significant digit comes first here, and last where digits are counted by place. -/
theorem ofDigits_eq
    (base : Nat) (ds : List Nat) :
    ofDigits base ds = Nat.ofDigits base ds.reverse := by
  induction ds using List.reverseRecOn with
  | nil => rfl
  | append_singleton ds d ih =>
      rw [ofDigits, List.foldl_append, List.reverse_append, List.reverse_singleton,
        List.singleton_append, Nat.ofDigits_cons, ← ih, ofDigits]
      simp only [List.foldl_cons, List.foldl_nil]
      ring

/-! ## Signs -/

/-- The number that a run of digits stands for, if it has no more digits than are read. -/
def IsMagnitude (cs : List Char) (m : Nat) : Prop :=
  ∃ ds, DigitRun cs ds ∧ ds.length ≤ 4300 ∧ m = Nat.ofDigits 10 ds.reverse

/-- The integer that a decimal numeral stands for. -/
inductive IsNumeral : List Char → Int → Prop
  | unsigned {cs : List Char} {m : Nat} (h : IsMagnitude cs m) : IsNumeral cs m
  | plus {cs : List Char} {m : Nat} (h : IsMagnitude cs m) : IsNumeral ('+' :: cs) m
  | minus {cs : List Char} {m : Nat} (h : IsMagnitude cs m) : IsNumeral ('-' :: cs) (-m)

/-- A run of digits does not begin like a sign. -/
theorem DigitRun.splitSign_eq
    {cs : List Char} {ds : List Nat} (h : DigitRun cs ds) :
    splitSign cs = (false, cs) := by
  obtain ⟨c, rest, rfl, d, hc⟩ := h.exists_eq_cons
  have hminus : c ≠ '-' := ne_of_decimalValue? hc (by decide)
  have hplus : c ≠ '+' := ne_of_decimalValue? hc (by decide)
  simp [splitSign, hminus, hplus]

theorem isNumeral_iff
    {t : List Char} {n : Int} :
    IsNumeral t n ↔
      ∃ m : Nat, IsMagnitude (splitSign t).2 m ∧ n = if (splitSign t).1 then -(m : Int) else m := by
  constructor
  · intro h
    cases h with
    | @unsigned _ m h =>
        obtain ⟨ds, hrun, -⟩ := id h
        rw [hrun.splitSign_eq]
        exact ⟨m, h, rfl⟩
    | @plus _ m h => exact ⟨m, h, rfl⟩
    | @minus _ m h => exact ⟨m, h, rfl⟩
  · rintro ⟨m, h, rfl⟩
    revert h
    fun_cases splitSign t with
    | case1 rest => exact fun h => .minus h
    | case2 rest => exact fun h => .plus h
    | case3 => exact fun h => .unsigned h

/-! ## Reading -/

theorem isNumeralPadding_of_not_isBlank
    {c : Char} (h : isBlank c = false) :
    isNumeralPadding c = false := by
  rw [isNumeralPadding, h, Bool.false_and]

/-- What is read of a text without blanks at its ends is what it is a numeral of. -/
theorem integer?_eq_some_iff
    {t : List Char} (hends : EndsOutside isBlank t) {n : Int} :
    integer? t = some n ↔ IsNumeral t n := by
  have hpadding : trimWhere isNumeralPadding t = t :=
    EndsOutside.trimWhere_eq ⟨fun c hc => isNumeralPadding_of_not_isBlank (hends.1 c hc),
      fun c hc => isNumeralPadding_of_not_isBlank (hends.2 c hc)⟩
  rw [integer?, toOption_eq_some_iff, readInteger, hpadding, isNumeral_iff]
  obtain ⟨negative, body⟩ := splitSign t
  have hmark : dropBaseMark 10 body = body := rfl
  have hlimit (ds : List Nat) : (digitLimit? 10).any (· < ds.length) = decide (4300 < ds.length) :=
    rfl
  simp only [hmark, hlimit, decide_eq_true_eq]
  constructor
  · intro h
    split at h
    · cases h
    · next ds hds =>
        by_cases hlong : 4300 < ds.length
        · rw [if_pos hlong] at h
          cases h
        by_cases hshort : (body.takeWhile (isNumeralChar 10)).length < body.length
        · rw [if_neg hlong, if_pos hshort] at h
          cases h
        rw [if_neg hlong, if_neg hshort] at h
        have hall : body.takeWhile (isNumeralChar 10) = body :=
          (List.takeWhile_prefix _).eq_of_length_le (Nat.not_lt.mp hshort)
        rw [hall, digitValues?_eq_some_iff] at hds
        exact ⟨ofDigits 10 ds, ⟨ds, hds, Nat.not_lt.mp hlong, ofDigits_eq 10 ds⟩,
          (Except.ok.inj h).symm⟩
  · rintro ⟨m, ⟨ds, hrun, hlength, rfl⟩, rfl⟩
    have hall : body.takeWhile (isNumeralChar 10) = body :=
      List.takeWhile_eq_self_iff.mpr hrun.isNumeralChar_of_mem
    rw [hall, hrun.digitValues?_eq]
    dsimp only
    rw [if_neg (Nat.not_lt.mpr hlength), if_neg (Nat.lt_irrefl _), ofDigits_eq]

/-! ## Writing -/

theorem isDigit_of_mem_natText
    {n : Nat} {c : Char} (h : c ∈ natText n) :
    c.isDigit = true :=
  Nat.isDigit_of_mem_toDigits (by decide) (by decide) h

theorem toNat_of_isDigit
    {c : Char} (h : c.isDigit = true) :
    48 ≤ c.toNat ∧ c.toNat ≤ 57 := by
  simpa [Char.isDigit, UInt32.le_iff_toNat_le] using h

theorem lt_of_mem_natText
    {n : Nat} {c : Char} (h : c ∈ natText n) :
    c.toNat < 128 := by
  obtain ⟨-, hle⟩ := toNat_of_isDigit (isDigit_of_mem_natText h)
  omega

theorem decimalValue?_of_isDigit
    {c : Char} (h : c.isDigit = true) :
    decimalValue? c = some (c.toNat - 48) := by
  obtain ⟨hle, hge⟩ := toNat_of_isDigit h
  rw [decimalValue?, decimalZeros, List.find?_cons_of_pos (by simp [hle, hge])]
  rfl

theorem DigitRun.of_isDigit
    {cs : List Char} (hne : cs ≠ []) (h : ∀ c ∈ cs, c.isDigit = true) :
    DigitRun cs (cs.map fun c => c.toNat - 48) := by
  induction cs with
  | nil => exact absurd rfl hne
  | cons c rest ih =>
      rw [List.forall_mem_cons] at h
      have hc := decimalValue?_of_isDigit h.1
      by_cases hrest : rest = []
      · subst hrest
        exact .digit hc
      · exact .next hc (ih hrest h.2)

theorem isMagnitude_natText
    {n : Nat} (h : (natText n).length ≤ 4300) :
    IsMagnitude (natText n) n := by
  refine ⟨_, .of_isDigit Nat.toDigits_ne_nil fun _ => isDigit_of_mem_natText, by simpa using h, ?_⟩
  calc
    n = Nat.ofDigitChars 10 (natText n) 0 := Nat.ofDigitChars_ten_toDigits.symm
    _ = (natText n).foldl (fun m c => m * 10 + (c.toNat - 48)) 0 := by
      rw [Nat.ofDigitChars]
      simp only [Nat.mul_comm 10]
      rfl
    _ = ofDigits 10 ((natText n).map fun c => c.toNat - 48) := by rw [ofDigits, List.foldl_map]
    _ = Nat.ofDigits 10 ((natText n).map fun c => c.toNat - 48).reverse := ofDigits_eq 10 _

theorem isNumeral_intText
    {n : Int} (h : (natText n.natAbs).length ≤ 4300) :
    IsNumeral (intText n) n := by
  have hmagnitude := isMagnitude_natText h
  rw [intText]
  split
  · next hn =>
      have hvalue : n = -(n.natAbs : Int) := by omega
      conv_rhs => rw [hvalue]
      exact .minus hmagnitude
  · next hn =>
      have hvalue : n = (n.natAbs : Int) := by omega
      conv_rhs => rw [hvalue]
      exact .unsigned hmagnitude

theorem isBlank_of_mem_intText
    {n : Int} {c : Char} (h : c ∈ intText n) :
    isBlank c = false := by
  have hdigit (hc : c ∈ natText n.natAbs) : isBlank c = false := by
    have hrange := toNat_of_isDigit (isDigit_of_mem_natText hc)
    have hall : ∀ k < 58, 48 ≤ k → isBlank (Char.ofNat k) = false := by decide
    simpa using hall c.toNat (by omega) hrange.1
  rw [intText] at h
  split at h
  · rcases List.mem_cons.mp h with rfl | hc
    · rfl
    · exact hdigit hc
  · exact hdigit h

end RingTape.Text
