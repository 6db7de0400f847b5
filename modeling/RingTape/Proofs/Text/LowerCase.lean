import RingTape.Text.LowerCase
import Mathlib.Data.List.Basic
import Mathlib.Data.List.TakeWhile

/-!
# Letters in lower case

A few characters far from ASCII have a lower case in it, so that a text of other letters could pass
for a word of ASCII letters when it is put in lower case.  All of them are told here: it takes the
letter k, or the letter i with the mark of its dot.
-/

namespace RingTape.Text

/-- No capital beyond ASCII but the Kelvin sign has an ASCII letter as its lower case. -/
theorem lower_of_mem_capitalRuns :
    ∀ run ∈ capitalRuns, run.last < 128 ∨ 128 ≤ run.lower ∨
      run.first = 0x212A ∧ run.last = 0x212A ∧ run.lower = 'k'.toNat := by
  decide +kernel

theorem isValidChar_of_mem_capitalRuns :
    ∀ run ∈ capitalRuns, run.lower + (run.last - run.first) < 0xD800 ∨
      0xDFFF < run.lower ∧ run.lower + (run.last - run.first) < 0x110000 := by
  decide +kernel

theorem lowerCase_of_lt
    {c : Char} (h : c.toNat < 128) :
    lowerCase c = [c.toLower] := by
  have hall : ∀ n < 128, lowerCase (Char.ofNat n) = [(Char.ofNat n).toLower] := by decide
  simpa using hall c.toNat h

theorem toLower_of_le
    {c : Char} (h : 128 ≤ c.toNat) :
    c.toLower = c := by
  have hcapital : ¬ ('A'.val ≤ c.val ∧ c.val ≤ 'Z'.val) := by
    rintro ⟨-, hle⟩
    rw [UInt32.le_iff_toNat_le] at hle
    change c.toNat ≤ 90 at hle
    omega
  exact dif_neg hcapital

theorem lt_of_lower_lt
    {run : CapitalRun} (hrun : run ∈ capitalRuns) {n : Nat}
    (hfirst : run.first ≤ n) (hlast : n ≤ run.last)
    (hlt : (Char.ofNat (run.lower + (n - run.first))).toNat < 128)
    (hne : Char.ofNat (run.lower + (n - run.first)) ≠ 'k') :
    n < 128 := by
  have hvalue : (Char.ofNat (run.lower + (n - run.first))).toNat =
      run.lower + (n - run.first) := by
    have hvalid : (run.lower + (n - run.first)).isValidChar := by
      have hrange := isValidChar_of_mem_capitalRuns run hrun
      rw [Nat.isValidChar]
      omega
    rw [Char.ofNat, dif_pos hvalid]
    rfl
  rw [hvalue] at hlt
  rcases lower_of_mem_capitalRuns run hrun with hascii | hbeyond | ⟨hkelvin, hkelvin', hk⟩
  · omega
  · omega
  · have hzero : n - run.first = 0 := by omega
    rw [hzero, hk] at hne
    exact absurd rfl hne

theorem capitalRun?_eq_some
    {c : Char} {run : CapitalRun} (h : capitalRun? c = some run) :
    run ∈ capitalRuns ∧ run.first ≤ c.toNat ∧ c.toNat ≤ run.last := by
  obtain ⟨hlast, hwithin⟩ := Option.filter_eq_some_iff.mp h
  have hmem := List.mem_of_getLast? hlast
  rw [Bool.and_eq_true, decide_eq_true_eq] at hwithin
  exact ⟨List.takeWhile_subset _ hmem, by simpa using List.mem_takeWhile_imp hmem, hwithin.1⟩

/-- A character is ASCII when its lower case is, unless that is the letter k. -/
theorem lt_of_lowerCase
    {c : Char} (h : ∀ x ∈ lowerCase c, x.toNat < 128 ∧ x ≠ 'k') :
    c.toNat < 128 := by
  unfold lowerCase at h
  split at h
  · -- the lower case of a dotted capital I ends with the mark of the dot
    have hdot := (h '\u0307' (by simp)).1
    exact absurd hdot (by decide)
  · split at h
    · next run hrun =>
        obtain ⟨hmem, hfirst, hlast⟩ := capitalRun?_eq_some hrun
        obtain ⟨hlt, hne⟩ := h _ (List.mem_singleton_self _)
        exact lt_of_lower_lt hmem hfirst hlast hlt hne
    · exact (h c (List.mem_singleton_self c)).1

theorem lt_of_lower_eq
    {cs name : List Char} (hname : ∀ x ∈ name, x.toNat < 128 ∧ x ≠ 'k') (h : lower cs = name) :
    ∀ c ∈ cs, c.toNat < 128 := by
  intro c hc
  apply lt_of_lowerCase
  intro x hx
  apply hname
  rw [← h]
  exact List.mem_flatMap.mpr ⟨c, hc, hx⟩

/-- To compare a text in lower case with a text of ASCII letters, only ASCII letters need be put in
lower case, as long as there is no k. -/
theorem lower_eq_iff
    {cs name : List Char} (hname : ∀ x ∈ name, x.toNat < 128 ∧ x ≠ 'k') :
    lower cs = name ↔ cs.map Char.toLower = name := by
  have hmap (hcs : ∀ c ∈ cs, c.toNat < 128) : lower cs = cs.map Char.toLower := by
    rw [lower, List.flatMap_congr fun c hc => lowerCase_of_lt (hcs c hc), List.map_eq_flatMap]
  constructor
  · intro h
    rw [← hmap (lt_of_lower_eq hname h), h]
  · intro h
    have hcs (c : Char) (hc : c ∈ cs) : c.toNat < 128 := by
      by_contra hle
      have hmem : c ∈ name := by
        rw [← h, ← toLower_of_le (Nat.not_lt.mp hle)]
        exact List.mem_map_of_mem hc
      exact hle (hname c hmem).1
    rw [hmap hcs, h]

end RingTape.Text
