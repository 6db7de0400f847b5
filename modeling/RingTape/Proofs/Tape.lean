import RingTape.Tape

/-!
# Tapes that repeat a pattern

A tape is laid out as whole copies of a pattern and the start of one more.  Seen cell by cell, the
pattern goes round: a cell holds what the pattern holds at the residue of its number.  This and the
number of cells determine the tape, so that of two tapes with one pattern the shorter one is the
start of the longer one.
-/

namespace RingTape

namespace Tape

/-- The tape has so many cells, and the pattern goes round on them from the first one on.  Without a
pattern the cells are blank. -/
structure Repeats (pattern : List Symbol) (size : Nat) (t : Tape) : Prop where
  length_eq : t.length = size
  cell : pattern ≠ [] → ∀ i < size, t[i]? = pattern[i % pattern.length]?
  blank : pattern = [] → ∀ i < size, t[i]? = some none

theorem getElem?_copies
    {pattern : List Symbol} {rest : Nat} (hrest : rest ≤ pattern.length) (copies : Nat) {i : Nat}
    (hi : i < copies * pattern.length + rest) :
    ((List.replicate copies pattern).flatten ++ pattern.take rest)[i]? =
      pattern[i % pattern.length]? := by
  induction copies generalizing i with
  | zero =>
      have hlt : i < rest := by simpa using hi
      rw [List.replicate_zero, List.flatten_nil, List.nil_append, List.getElem?_take_of_lt hlt,
        Nat.mod_eq_of_lt (Nat.lt_of_lt_of_le hlt hrest)]
  | succ copies ih =>
      rw [List.replicate_succ, List.flatten_cons, List.append_assoc]
      by_cases hfirst : i < pattern.length
      · rw [List.getElem?_append_left hfirst, Nat.mod_eq_of_lt hfirst]
      · have hle : pattern.length ≤ i := Nat.le_of_not_lt hfirst
        have hlater : i - pattern.length < copies * pattern.length + rest := by
          rw [Nat.succ_mul] at hi
          omega
        rw [List.getElem?_append_right hle, ih hlater, ← Nat.mod_eq_sub_mod hle]

theorem tile_of_ne_nil
    {pattern : List Symbol} (h : pattern ≠ []) (size : Nat) :
    tile size pattern = (List.replicate (size / pattern.length) pattern).flatten ++
      pattern.take (size % pattern.length) := by
  cases pattern with
  | nil => exact absurd rfl h
  | cons symbol rest => rfl

theorem repeats_tile
    (size : Nat) (pattern : List Symbol) :
    Repeats pattern size (tile size pattern) := by
  constructor
  case length_eq => exact length_tile size pattern
  case cell =>
    intro hne i hi
    have hrest := Nat.mod_lt size (List.length_pos_iff.mpr hne)
    rw [tile_of_ne_nil hne]
    apply getElem?_copies (Nat.le_of_lt hrest)
    rwa [Nat.div_add_mod']
  case blank =>
    rintro rfl i hi
    exact List.getElem?_replicate_of_lt hi

example : tile 5 [some "a", some "b"] = [some "a", some "b", some "a", some "b", some "a"] := by
  decide

namespace Repeats

variable {pattern : List Symbol} {size size' : Nat} {t t' : Tape}

/-- A pattern is a tape that repeats it once. -/
theorem self
    (pattern : List Symbol) :
    Repeats pattern pattern.length pattern := by
  constructor
  case length_eq => rfl
  case cell =>
    intro _ i hi
    rw [Nat.mod_eq_of_lt hi]
  case blank =>
    rintro rfl i hi
    exact absurd hi (Nat.not_lt_zero i)

theorem getElem?_eq
    (h : Repeats pattern size t) (h' : Repeats pattern size' t') {i : Nat} (hi : i < size)
    (hi' : i < size') :
    t[i]? = t'[i]? := by
  by_cases hpattern : pattern = []
  · rw [h.blank hpattern i hi, h'.blank hpattern i hi']
  · rw [h.cell hpattern i hi, h'.cell hpattern i hi']

/-- What is in the cells is in the pattern, unless they are blank. -/
theorem eq_none_or_mem
    (h : Repeats pattern size t) {symbol : Symbol} (hsymbol : symbol ∈ t) :
    symbol = none ∨ symbol ∈ pattern := by
  obtain ⟨i, hi, rfl⟩ := List.getElem_of_mem hsymbol
  have hlt : i < size := h.length_eq ▸ hi
  by_cases hpattern : pattern = []
  · have hcell := h.blank hpattern i hlt
    rw [List.getElem?_eq_getElem hi] at hcell
    exact .inl (Option.some.inj hcell)
  · have hcell := h.cell hpattern i hlt
    rw [List.getElem?_eq_getElem hi] at hcell
    exact .inr (List.mem_of_getElem? hcell.symm)

theorem isPrefix
    (h : Repeats pattern size t) (h' : Repeats pattern size' t') (hle : size ≤ size') :
    t <+: t' := by
  rw [List.prefix_iff_getElem?]
  intro i hi
  have hlt : i < size := h.length_eq ▸ hi
  rw [← List.getElem?_eq_getElem hi, h.getElem?_eq h' hlt (Nat.lt_of_lt_of_le hlt hle)]

theorem unique
    (h : Repeats pattern size t) (h' : Repeats pattern size t') :
    t = t' :=
  (h.isPrefix h' (Nat.le_refl size)).eq_of_length (h.length_eq.trans h'.length_eq.symm)

end Repeats

/-- A pattern as long as the ring is laid out once. -/
theorem tile_eq_self
    {size : Nat} {pattern : List Symbol} (h : pattern.length = size) :
    tile size pattern = pattern := by
  subst h
  exact (repeats_tile _ pattern).unique (.self pattern)

end Tape

end RingTape
