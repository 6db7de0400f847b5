import RingTape.Machine.Run
import RingTape.Proofs.Machine.Step
import Mathlib.Data.Fintype.BigOperators
import Mathlib.Data.Fintype.Pi
import Mathlib.Data.Finset.Card
import Mathlib.Data.List.GetD

/-!
# Recurrence of places

What a machine does next depends on its state, its tape and the cell under its head, and not on the
head position that names the cell.  These make up its place.  A machine that has not halted yet is
in one of finitely many places, so a machine that halts at all does so before it has made more steps
than there are places: otherwise it would be in one place twice and would go on between the two
forever.
-/

namespace RingTape

namespace Machine

/-- The cell under the head, the state and the tape. -/
def place (m : Machine) : Option Nat × State × Tape :=
  (m.head.map (Tape.cell · m.tapeSize), m.state, m.tape)

theorem place_halt
    (m : Machine) :
    m.halt.place = (none, none, m.tape) :=
  rfl

theorem place_follow
    (m : Machine) (head : Int) (rule : Rule) (direction : Direction) :
    (m.follow head rule direction).place =
      (some (Tape.cell (head + direction.offset) m.tapeSize), rule.nextState,
        m.tape.set (Tape.cell head m.tapeSize) rule.nextValue) :=
  rfl

/-- Two machines of one ruleset and one size that are in the same place. -/
structure SamePlace (m other : Machine) : Prop where
  ruleset : m.ruleset = other.ruleset
  tapeSize : m.tapeSize = other.tapeSize
  place : m.place = other.place

theorem cell_add_eq
    {head other : Int} {size : Nat} (hsize : 0 < size)
    (h : Tape.cell head size = Tape.cell other size) (offset : Int) :
    Tape.cell (head + offset) size = Tape.cell (other + offset) size := by
  rw [Tape.cell_eq_iff hsize] at h ⊢
  rw [Int.add_emod head, h, ← Int.add_emod]

namespace SamePlace

variable {m other : Machine}

theorem head_map_eq
    (h : SamePlace m other) :
    m.head.map (Tape.cell · m.tapeSize) = other.head.map (Tape.cell · m.tapeSize) := by
  have hplace := congrArg Prod.fst h.place
  simpa [Machine.place, h.tapeSize] using hplace

theorem state_eq
    (h : SamePlace m other) :
    m.state = other.state :=
  congrArg (·.2.1) h.place

theorem tape_eq
    (h : SamePlace m other) :
    m.tape = other.tape :=
  congrArg (·.2.2) h.place

theorem halted_eq
    (h : SamePlace m other) :
    m.halted = other.halted := by
  rw [Bool.eq_iff_iff, halted_iff, halted_iff, h.state_eq]
  have hhead := congrArg Option.isNone h.head_map_eq
  simp only [Option.isNone_map] at hhead
  rw [← Option.isNone_iff_eq_none, hhead, Option.isNone_iff_eq_none]

theorem rule?_eq
    (h : SamePlace m other) :
    m.rule? = other.rule? := by
  have hhead := h.head_map_eq
  rw [rule?, rule?, ← h.ruleset, ← h.tapeSize, ← h.state_eq, ← h.tape_eq]
  cases hm : m.head <;> cases ho : other.head
  · rfl
  · simp [hm, ho] at hhead
  · simp [hm, ho] at hhead
  · rw [hm, ho, Option.map_some, Option.map_some, Option.some.injEq] at hhead
    cases m.state <;> simp [hhead]

/-- Machines in the same place are in the same place after a step. -/
protected theorem next
    (h : SamePlace m other) (hm : m.Sound) (hother : other.Sound) :
    SamePlace m.next other.next := by
  cases hfires : m.fires with
  | false =>
      have hfires' : other.fires = false := by
        rw [← Bool.not_eq_true, hother.fires_iff, ← h.rule?_eq, ← hm.fires_iff, hfires]
        simp
      rw [hm.next_of_not_fires hfires, hother.next_of_not_fires hfires']
      exact ⟨h.ruleset, h.tapeSize, by rw [place_halt, place_halt, h.tape_eq]⟩
  | true =>
      have hfires' : other.fires = true := by
        rw [hother.fires_iff, ← h.rule?_eq, ← hm.fires_iff, hfires]
      obtain ⟨p, rule, direction, hp, hrule, -, hmove, hnext⟩ := hm.next_of_fires hfires
      obtain ⟨q, rule', direction', hq, hrule', -, hmove', hnext'⟩ := hother.next_of_fires hfires'
      rw [h.rule?_eq, hrule', Option.some.injEq] at hrule
      subst hrule
      rw [hmove', Move.toward.injEq] at hmove
      subst hmove
      have hcell : Tape.cell p m.tapeSize = Tape.cell q m.tapeSize := by
        simpa [hp, hq] using h.head_map_eq
      rw [hnext, hnext']
      refine ⟨h.ruleset, h.tapeSize, ?_⟩
      rw [place_follow, place_follow, ← h.tapeSize, ← h.tape_eq, hcell,
        cell_add_eq hm.size_pos hcell]

protected theorem after
    (h : SamePlace m other) (hm : m.Sound) (hother : other.Sound) (count : Nat) :
    SamePlace (m.after count) (other.after count) := by
  induction count with
  | zero => exact h
  | succ count ih =>
      rw [after_succ', after_succ']
      exact ih.next (hm.after count) (hother.after count)

end SamePlace

/-! ## The places of a run -/

/-- What the steps of `m` keep: its ruleset, its size, and the states and symbols it can have. -/
structure Confines (m other : Machine) : Prop where
  ruleset : other.ruleset = m.ruleset
  tapeSize : other.tapeSize = m.tapeSize
  state : ∀ name, other.state = some name → name ∈ m.states
  tape : ∀ symbol ∈ other.tape, symbol ∈ m.symbols

theorem mem_states
    {m : Machine} {name : String} :
    name ∈ m.states ↔
      m.state = some name ∨ ∃ rule ∈ m.ruleset.rules, rule.nextState = some name := by
  simp [states, eq_comm]

theorem mem_symbols
    {m : Machine} {symbol : Symbol} :
    symbol ∈ m.symbols ↔ symbol ∈ m.tape ∨ ∃ rule ∈ m.ruleset.rules, rule.nextValue = symbol := by
  simp [symbols]

namespace Confines

variable {m other : Machine}

protected theorem refl
    (m : Machine) :
    Confines m m :=
  ⟨rfl, rfl, fun _ hname => mem_states.mpr (.inl hname),
    fun _ hsymbol => mem_symbols.mpr (.inl hsymbol)⟩

protected theorem next
    (h : Confines m other) (hother : other.Sound) :
    Confines m other.next := by
  refine hother.next_induction ?_ fun head rule direction _ hmem => ?_
  · exact ⟨h.ruleset, h.tapeSize, fun _ hname => (by cases hname), h.tape⟩
  · rw [h.ruleset] at hmem
    refine ⟨h.ruleset, h.tapeSize, fun name hname => ?_, fun symbol hsymbol => ?_⟩
    · exact mem_states.mpr (.inr ⟨rule, hmem, hname⟩)
    · rcases List.mem_or_eq_of_mem_set hsymbol with hsymbol | rfl
      · exact h.tape symbol hsymbol
      · exact mem_symbols.mpr (.inr ⟨rule, hmem, rfl⟩)

protected theorem after
    (hm : m.Sound) (count : Nat) :
    Confines m (m.after count) := by
  induction count with
  | zero => exact .refl m
  | succ count ih =>
      rw [after_succ']
      exact ih.next (hm.after count)

end Confines

/-- The place of a machine as a member of a finite set, read on a ring of `n` cells. -/
def placeCode (n : Nat) (m : Machine) : Nat × String × (Fin n → Symbol) :=
  ((m.head.map (Tape.cell · n)).getD 0, m.state.getD "", fun i => m.tape.getD i none)

/-- The codes of the places that a machine confines its run to. -/
def placeCodes (m : Machine) : Finset (Nat × String × (Fin m.tapeSize → Symbol)) :=
  Finset.range m.tapeSize ×ˢ m.states.toFinset ×ˢ
    Fintype.piFinset fun _ : Fin m.tapeSize => m.symbols.toFinset

theorem card_placeCodes_le
    (m : Machine) :
    m.placeCodes.card ≤ m.configurationBound := by
  rw [placeCodes, Finset.card_product, Finset.card_product, Finset.card_range,
    Fintype.card_piFinset_const, configurationBound, Nat.mul_assoc]
  refine Nat.mul_le_mul_left _ (Nat.mul_le_mul (List.toFinset_card_le _) ?_)
  exact Nat.pow_le_pow_left (List.toFinset_card_le _) _

theorem Confines.placeCode_mem
    {m other : Machine} (h : Confines m other) (hother : other.Sound)
    (hrunning : other.halted = false) :
    placeCode m.tapeSize other ∈ m.placeCodes := by
  rw [← Bool.not_eq_true, halted_iff, not_or] at hrunning
  obtain ⟨head, hhead⟩ := Option.ne_none_iff_exists'.mp hrunning.1
  obtain ⟨name, hname⟩ := Option.ne_none_iff_exists'.mp hrunning.2
  have hlength : other.tape.length = m.tapeSize := hother.length_tape.trans h.tapeSize
  simp only [placeCodes, placeCode, Finset.mem_product, Finset.mem_range, List.mem_toFinset,
    Fintype.mem_piFinset, hhead, hname, Option.map_some, Option.getD_some]
  refine ⟨Tape.cell_lt head (h.tapeSize ▸ hother.size_pos), h.state name hname, fun i => ?_⟩
  apply h.tape
  rw [List.getD_eq_getElem _ _ (i.isLt.trans_eq hlength.symm)]
  exact List.getElem_mem _

theorem samePlace_of_placeCode_eq
    {m first second : Machine} (h : Confines m first) (h' : Confines m second)
    (hfirst : first.Sound) (hsecond : second.Sound)
    (hrunning : first.halted = false) (hrunning' : second.halted = false)
    (hcode : placeCode m.tapeSize first = placeCode m.tapeSize second) :
    SamePlace first second := by
  rw [← Bool.not_eq_true, halted_iff, not_or] at hrunning hrunning'
  obtain ⟨p, hp⟩ := Option.ne_none_iff_exists'.mp hrunning.1
  obtain ⟨q, hq⟩ := Option.ne_none_iff_exists'.mp hrunning'.1
  obtain ⟨name, hname⟩ := Option.ne_none_iff_exists'.mp hrunning.2
  obtain ⟨name', hname'⟩ := Option.ne_none_iff_exists'.mp hrunning'.2
  simp only [placeCode, hp, hq, hname, hname', Option.map_some, Option.getD_some,
    Prod.mk.injEq] at hcode
  obtain ⟨hcell, rfl, hcells⟩ := hcode
  have hlength : first.tape.length = m.tapeSize := hfirst.length_tape.trans h.tapeSize
  have hlength' : second.tape.length = m.tapeSize := hsecond.length_tape.trans h'.tapeSize
  refine ⟨h.ruleset.trans h'.ruleset.symm, h.tapeSize.trans h'.tapeSize.symm, ?_⟩
  have htape : first.tape = second.tape := by
    apply List.ext_getElem (hlength.trans hlength'.symm)
    intro i hi hi'
    have hcell := congrFun hcells ⟨i, hlength ▸ hi⟩
    simpa [List.getD_eq_getElem, hi, hi'] using hcell
  simp [place, hp, hq, hname, hname', h.tapeSize, h'.tapeSize, hcell, htape]

/-- A machine that is running through one step more than there are places is in one place twice. -/
theorem Sound.exists_samePlace
    {m : Machine} (h : m.Sound)
    (hrunning : ∀ i ≤ m.configurationBound, (m.after i).halted = false) :
    ∃ i j, i < j ∧ j ≤ m.configurationBound ∧ SamePlace (m.after i) (m.after j) := by
  have hcard : m.placeCodes.card < (Finset.range (m.configurationBound + 1)).card := by
    rw [Finset.card_range]
    exact Nat.lt_succ_of_le m.card_placeCodes_le
  have hmaps : Set.MapsTo (fun i => placeCode m.tapeSize (m.after i))
      (Finset.range (m.configurationBound + 1)) m.placeCodes := by
    intro i hi
    rw [Finset.coe_range, Set.mem_Iio] at hi
    exact (Confines.after h i).placeCode_mem (h.after i) (hrunning i (Nat.le_of_lt_succ hi))
  obtain ⟨i, hi, j, hj, hne, hcode⟩ := Finset.exists_ne_map_eq_of_card_lt_of_maps_to hcard hmaps
  rw [Finset.mem_range, Nat.lt_succ_iff] at hi hj
  have hsame : ∀ i j, i ≤ m.configurationBound → j ≤ m.configurationBound →
      placeCode m.tapeSize (m.after i) = placeCode m.tapeSize (m.after j) →
      SamePlace (m.after i) (m.after j) := fun i j hi hj =>
    samePlace_of_placeCode_eq (Confines.after h i) (Confines.after h j) (h.after i) (h.after j)
      (hrunning i hi) (hrunning j hj)
  rcases Nat.lt_or_gt_of_ne hne with hij | hji
  · exact ⟨i, j, hij, hj, hsame i j hi hj hcode⟩
  · exact ⟨j, i, hji, hi, hsame j i hj hi hcode.symm⟩

/-- What a place decides, and what holds up to the second time that a machine is in one place, holds
from then on as well. -/
theorem Sound.forall_after_of_samePlace
    {m : Machine} (h : m.Sound) {P : Machine → Prop}
    (hP : ∀ {first second}, SamePlace first second → P first → P second)
    {i j : Nat} (hij : i < j) (hsame : SamePlace (m.after i) (m.after j))
    (hearly : ∀ count < j, P (m.after count)) (count : Nat) :
    P (m.after count) := by
  induction count using Nat.strong_induction_on with
  | _ count ih =>
      by_cases hcount : count < j
      · exact hearly count hcount
      · -- as far behind `j` as this step is, there is an earlier one behind `i`
        have hlater := hsame.after (h.after i) (h.after j) (count - j)
        rw [← after_add, ← after_add, Nat.add_sub_cancel' (Nat.le_of_not_lt hcount)] at hlater
        exact hP hlater (ih (i + (count - j)) (by omega))

/-- A machine that halts at all does so within as many steps as there are places for it. -/
theorem Sound.exists_le_configurationBound
    {m : Machine} (h : m.Sound) (hhalts : ∃ count, (m.after count).halted = true) :
    ∃ count ≤ m.configurationBound, (m.after count).halted = true := by
  by_contra hnone
  have hrunning : ∀ i ≤ m.configurationBound, (m.after i).halted = false := by
    intro i hi
    by_contra hhalted
    exact hnone ⟨i, hi, eq_true_of_ne_false hhalted⟩
  obtain ⟨i, j, hij, hj, hsame⟩ := h.exists_samePlace hrunning
  obtain ⟨count, hhalted⟩ := hhalts
  have hnever := h.forall_after_of_samePlace (P := fun other => other.halted = false)
    (fun hsame hfirst => hsame.halted_eq ▸ hfirst) hij hsame
    (fun i hi => hrunning i (hi.le.trans hj)) count
  rw [hhalted] at hnever
  cases hnever

/-- A machine that follows rules in one step more than there are places for it follows rules in all
steps. -/
theorem Sound.fires_of_forall_le_configurationBound
    {m : Machine} (h : m.Sound) (hfires : ∀ i ≤ m.configurationBound, (m.after i).fires = true)
    (count : Nat) :
    (m.after count).fires = true := by
  have hrunning : ∀ i ≤ m.configurationBound, (m.after i).halted = false :=
    fun i hi => (h.after i).not_halted_of_fires (hfires i hi)
  obtain ⟨i, j, hij, hj, hsame⟩ := h.exists_samePlace hrunning
  rw [(h.after count).fires_iff]
  refine h.forall_after_of_samePlace (P := fun other => other.rule? ≠ none)
    (fun hsame hfirst => hsame.rule?_eq ▸ hfirst) hij hsame (fun i hi => ?_) count
  exact (h.after i).fires_iff.mp (hfires i (hi.le.trans hj))

end Machine

end RingTape
