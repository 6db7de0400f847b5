import RingTape.Machine.Playback
import RingTape.Proofs.Machine.Unlimited

/-!
# Precedence of rules

Of the rules of a ruleset the first one that applies is followed, and nothing else of their order
matters.  So a rule that never is the first to apply may be deleted, and two neighbours that never
apply together may be exchanged: in no state of a running machine another rule is found, and all
that a machine does from any configuration remains the same.
-/

namespace RingTape

namespace Ruleset

/-! ## The first rule that applies -/

/-- The rule with this index applies, and none before it does. -/
structure FirstAt (r : Ruleset) (state : State) (symbol : Symbol) (i : Nat) (rule : Rule) :
    Prop where
  found : r.rules[i]? = some rule
  applies : rule.appliesTo state symbol = true
  before : ∀ j < i, ∀ earlier, r.rules[j]? = some earlier → earlier.appliesTo state symbol = false

theorem findRule_eq_some_iff
    {r : Ruleset} {state : State} {symbol : Symbol} {rule : Rule} :
    r.findRule state symbol = some rule ↔ ∃ i, r.FirstAt state symbol i rule := by
  rw [findRule, List.find?_eq_some_iff_getElem]
  constructor
  · rintro ⟨happlies, i, hi, hrule, hbefore⟩
    refine ⟨i, by rw [List.getElem?_eq_getElem hi, hrule], happlies, ?_⟩
    intro j hj earlier hearlier
    have hjlength : j < r.rules.length := hj.trans hi
    rw [List.getElem?_eq_getElem hjlength, Option.some.injEq] at hearlier
    rw [← hearlier]
    simpa using hbefore j hj
  · rintro ⟨i, hrule, happlies, hbefore⟩
    obtain ⟨hi, hget⟩ := List.getElem?_eq_some_iff.mp hrule
    refine ⟨happlies, i, hi, hget, ?_⟩
    intro j hj
    rw [hbefore j hj _ (List.getElem?_eq_getElem (hj.trans hi))]
    rfl

theorem findRule_eq_none_iff
    {r : Ruleset} {state : State} {symbol : Symbol} :
    r.findRule state symbol = none ↔ ∀ rule ∈ r.rules, rule.appliesTo state symbol = false := by
  simp [findRule]

/-! ## Rulesets that find the same rules -/

/-- The ruleset without the rule with this index. -/
def delete (r : Ruleset) (i : Nat) : Ruleset :=
  { r with rules := r.rules.eraseIdx i }

/-- The rules with the rule at this index and the next one exchanged. -/
def swap (i : Nat) (rules : List Rule) : List Rule :=
  match rules.drop i with
  | first :: second :: rest => rules.take i ++ second :: first :: rest
  | _ => rules

/-- The ruleset with the rule with this index and the next one exchanged. -/
def exchange (r : Ruleset) (i : Nat) : Ruleset :=
  { r with rules := swap i r.rules }

/-- Where the rule with this index applies in a state that is not terminal, an earlier rule does. -/
def Shadowed (r : Ruleset) (i : Nat) : Prop :=
  ∀ rule, r.rules[i]? = some rule →
    ∀ name symbol, r.isTerminal (some name) = false → rule.appliesTo (some name) symbol = true →
      ∃ j < i, ∃ earlier, r.rules[j]? = some earlier ∧ earlier.appliesTo (some name) symbol = true

/-- The rule with this index and the next one never apply together in a state that is not
terminal. -/
def Apart (r : Ruleset) (i : Nat) : Prop :=
  ∀ first second, r.rules[i]? = some first → r.rules[i + 1]? = some second →
    ∀ name symbol, r.isTerminal (some name) = false →
      ¬ (first.appliesTo (some name) symbol = true ∧ second.appliesTo (some name) symbol = true)

/-- The ruleset `other` halts in the same states as `r`, and finds the same rules in the others. -/
structure FindsAlike (r other : Ruleset) : Prop where
  isTerminal : ∀ state, other.isTerminal state = r.isTerminal state
  findRule : ∀ name symbol, r.isTerminal (some name) = false →
    other.findRule (some name) symbol = r.findRule (some name) symbol

theorem find?_delete
    {α : Type} {p : α → Bool} {before after : List α} {x : α}
    (h : p x = true → ∃ earlier ∈ before, p earlier = true) :
    (before ++ after).find? p = (before ++ x :: after).find? p := by
  rw [List.find?_append, List.find?_append]
  cases hbefore : before.find? p with
  | some earlier => rfl
  | none =>
      have hx : p x = false := by
        by_contra hpx
        obtain ⟨earlier, hearlier, hp⟩ := h (eq_true_of_ne_false hpx)
        exact absurd hp (List.find?_eq_none.mp hbefore earlier hearlier)
      rw [List.find?_cons_of_neg (by simp [hx])]

theorem find?_exchange
    {α : Type} {p : α → Bool} {before after : List α} {x y : α}
    (h : ¬ (p x = true ∧ p y = true)) :
    (before ++ y :: x :: after).find? p = (before ++ x :: y :: after).find? p := by
  rw [List.find?_append, List.find?_append]
  congr 1
  by_cases hx : p x = true
  · have hy : ¬ p y = true := fun hy => h ⟨hx, hy⟩
    rw [List.find?_cons_of_neg hy, List.find?_cons_of_pos hx, List.find?_cons_of_pos hx]
  · rw [List.find?_cons_of_neg hx]
    by_cases hy : p y = true
    · rw [List.find?_cons_of_pos hy, List.find?_cons_of_pos hy]
    · rw [List.find?_cons_of_neg hy, List.find?_cons_of_neg hy, List.find?_cons_of_neg hx]

theorem Shadowed.findsAlike
    {r : Ruleset} {i : Nat} (h : r.Shadowed i) :
    r.FindsAlike (r.delete i) := by
  refine ⟨fun state => by cases state <;> rfl, ?_⟩
  intro name symbol hname
  rw [delete, Ruleset.findRule, Ruleset.findRule]
  by_cases hi : i < r.rules.length
  · have hrules : r.rules = r.rules.take i ++ r.rules[i] :: r.rules.drop (i + 1) := by simp
    rw [List.eraseIdx_eq_take_drop_succ]
    conv_rhs => rw [hrules]
    apply find?_delete
    intro happlies
    obtain ⟨j, hj, earlier, hearlier, hmatches⟩ :=
      h _ (List.getElem?_eq_getElem hi) name symbol hname happlies
    refine ⟨earlier, List.mem_of_getElem? (i := j) ?_, hmatches⟩
    rw [List.getElem?_take_of_lt hj, hearlier]
  · rw [List.eraseIdx_of_length_le (Nat.le_of_not_lt hi)]

theorem Apart.findsAlike
    {r : Ruleset} {i : Nat} (h : r.Apart i) :
    r.FindsAlike (r.exchange i) := by
  refine ⟨fun state => by cases state <;> rfl, ?_⟩
  intro name symbol hname
  rw [exchange, swap, Ruleset.findRule, Ruleset.findRule]
  split
  · next first second rest hdrop =>
      have hrules : r.rules = r.rules.take i ++ first :: second :: rest := by
        rw [← hdrop, List.take_append_drop]
      have hfirst : r.rules[i]? = some first := by
        rw [← List.head?_drop, hdrop, List.head?_cons]
      have hsecond : r.rules[i + 1]? = some second := by
        rw [← List.getElem?_drop, hdrop]
        rfl
      conv_rhs => rw [hrules]
      exact find?_exchange (h first second hfirst hsecond name symbol hname)
  · rfl

/-- A rule for the halt state or for a terminal state is never followed.  The wildcard is no
state. -/
theorem shadowed_of_currentState
    {r : Ruleset} {i : Nat} {rule : Rule} (hrule : r.rules[i]? = some rule)
    (hwildcard : rule.matchesAnyState = false) (hterminal : r.isTerminal rule.currentState = true) :
    r.Shadowed i := by
  intro found hfound name symbol hname happlies
  rw [hrule, Option.some.injEq] at hfound
  subst hfound
  have hstate : rule.currentState = some name := by
    simpa [Rule.appliesTo, hwildcard] using (Bool.and_eq_true_iff.mp happlies).1
  rw [hstate, hname] at hterminal
  cases hterminal

end Ruleset

/-! ## Machines that do the same -/

/-- The machine with another ruleset. -/
def Machine.withRuleset (m : Machine) (r : Ruleset) : Machine :=
  { m with ruleset := r }

/-- What a run leaves, with another ruleset of the machine. -/
def Run.withRuleset (run : Run) (r : Ruleset) : Run :=
  { run with machine := run.machine.withRuleset r }

/-- What a playback leaves, with another ruleset of the machine. -/
def Playback.withRuleset (p : Playback) (r : Ruleset) : Playback :=
  { p with machine := p.machine.withRuleset r }

namespace Machine

variable {m : Machine} {r : Ruleset}

theorem transition_withRuleset
    (h : m.ruleset.FindsAlike r) (c : Configuration) :
    (m.withRuleset r).transition c = m.transition c := by
  rw [transition, transition]
  cases c.head with
  | none => rfl
  | some head =>
      cases c.state with
      | none => rfl
      | some name =>
          have hterminal := h.isTerminal (some name)
          by_cases hname : m.ruleset.isTerminal (some name) = true
          · simp [withRuleset, hterminal, hname]
          · have hfind := fun symbol => h.findRule name symbol (eq_false_of_ne_true hname)
            simp [withRuleset, hterminal, hname, hfind]

theorem step_withRuleset
    (h : m.ruleset.FindsAlike r) :
    (m.withRuleset r).step = m.step.map (·.withRuleset r) id := by
  rw [step, step]
  have htransition : (m.withRuleset r).transition (m.withRuleset r).configuration =
      m.transition m.configuration := transition_withRuleset h m.configuration
  rw [htransition]
  cases m.transition m.configuration with
  | error fault => rfl
  | ok result => rfl

theorem ruleset_next
    (m : Machine) :
    m.next.ruleset = m.ruleset := by
  have hstep : m.step = (m.next, m.step.2) := rfl
  exact ruleset_of_step hstep

theorem next_withRuleset
    (h : m.ruleset.FindsAlike r) :
    (m.withRuleset r).next = m.next.withRuleset r ∧ (m.withRuleset r).fires = m.fires := by
  rw [next, next, fires, fires, step_withRuleset h]
  exact ⟨rfl, rfl⟩

theorem after_withRuleset
    (h : m.ruleset.FindsAlike r) (count : Nat) :
    (m.withRuleset r).after count = (m.after count).withRuleset r ∧
      (m.after count).ruleset = m.ruleset := by
  induction count with
  | zero => exact ⟨rfl, rfl⟩
  | succ count ih =>
      obtain ⟨hafter, hruleset⟩ := ih
      rw [after_succ', after_succ', hafter, ruleset_next, hruleset]
      rw [← hruleset] at h
      exact ⟨(next_withRuleset h).1, rfl⟩

theorem runSteps_withRuleset
    (h : m.ruleset.FindsAlike r) (limit : Nat) :
    (m.withRuleset r).runSteps limit = (m.runSteps limit).withRuleset r := by
  induction limit generalizing m with
  | zero => rfl
  | succ limit ih =>
      have hhalted : (m.withRuleset r).halted = m.halted := rfl
      rw [runSteps, runSteps, hhalted, step_withRuleset h]
      by_cases hm : m.halted = true
      · rw [if_pos hm, if_pos hm]
        rfl
      · rw [if_neg hm, if_neg hm]
        rcases hstep : m.step with ⟨next, fault | proceed⟩
        · rfl
        · have hnext : next.ruleset.FindsAlike r := by
            rw [ruleset_of_step hstep]
            exact h
          simp only [Prod.map, id_eq, ih hnext]
          rfl

theorem playSteps_withRuleset
    (h : m.ruleset.FindsAlike r) (wait : Wait) (limit input : Nat) :
    (m.withRuleset r).playSteps wait limit input =
      (m.playSteps wait limit input).withRuleset r := by
  induction limit generalizing m input with
  | zero => rfl
  | succ limit ih =>
      rw [playSteps, playSteps, step_withRuleset h]
      rcases hstep : m.step with ⟨next, fault | _ | _⟩
      · rfl
      · rfl
      · have hnext : next.ruleset.FindsAlike r := by
          rw [ruleset_of_step hstep]
          exact h
        -- the playback goes on after each wait but one for a line that is not there
        cases wait with
        | none => exact congrArg (Playback.after _) (ih hnext input)
        | sleep milliseconds => exact congrArg (Playback.after _) (ih hnext input)
        | enter =>
            cases input with
            | zero => rfl
            | succ input => exact congrArg (Playback.after _) (ih hnext input)

theorem runsTo_withRuleset_iff
    (h : m.ruleset.FindsAlike r) {result : Run} :
    (m.withRuleset r).RunsTo result ↔ ∃ run, m.RunsTo run ∧ result = run.withRuleset r := by
  rw [runsTo_iff]
  constructor
  · rintro ⟨limit, rfl, hends⟩
    rw [runSteps_withRuleset h] at hends ⊢
    exact ⟨m.runSteps limit, runsTo_iff.mpr ⟨limit, rfl, hends⟩, rfl⟩
  · rintro ⟨run, hrun, rfl⟩
    obtain ⟨limit, rfl, hends⟩ := runsTo_iff.mp hrun
    exact ⟨limit, runSteps_withRuleset h limit, hends⟩

end Machine

namespace Ruleset

/-- All that a machine does from any configuration is the same with the ruleset `other` as with
`r`. -/
structure RunsAlike (r other : Ruleset) : Prop where
  transition : ∀ m : Machine, m.ruleset = r → ∀ c,
    (m.withRuleset other).transition c = m.transition c
  /-- Single steps, with what they answer. -/
  steps : ∀ m : Machine, m.ruleset = r → ∀ count,
    (m.withRuleset other).after count = (m.after count).withRuleset other ∧
      ((m.withRuleset other).after count).step =
        (m.after count).step.map (·.withRuleset other) id
  run : ∀ m : Machine, m.ruleset = r → ∀ limit,
    (m.withRuleset other).run (.steps limit) = (m.run (.steps limit)).withRuleset other
  /-- The loop without a bound on its steps. -/
  runsTo : ∀ m : Machine, m.ruleset = r → ∀ result,
    (m.withRuleset other).RunsTo result ↔ ∃ run, m.RunsTo run ∧ result = run.withRuleset other
  play : ∀ m : Machine, m.ruleset = r → ∀ wait limit input,
    (m.withRuleset other).playSteps wait limit input =
      (m.playSteps wait limit input).withRuleset other

theorem FindsAlike.runsAlike
    {r other : Ruleset} (h : r.FindsAlike other) :
    r.RunsAlike other where
  transition := by
    rintro m rfl c
    exact Machine.transition_withRuleset h c
  steps := by
    rintro m rfl count
    obtain ⟨hafter, hruleset⟩ := Machine.after_withRuleset h count
    refine ⟨hafter, ?_⟩
    rw [hafter]
    rw [← hruleset] at h
    exact Machine.step_withRuleset h
  run := by
    rintro m rfl limit
    exact Machine.runSteps_withRuleset h limit
  runsTo := by
    rintro m rfl result
    exact Machine.runsTo_withRuleset_iff h
  play := by
    rintro m rfl wait limit input
    exact Machine.playSteps_withRuleset h wait limit input

/-- Only the precedence of the first rule that applies matters: deleting a rule that is shadowed by
earlier ones, such as a rule for a state in which the machine halts, and exchanging two neighbours
that never apply together change nothing that a machine does. -/
theorem precedence
    (r : Ruleset) :
    (∀ state symbol rule, r.findRule state symbol = some rule ↔
        ∃ i, r.FirstAt state symbol i rule) ∧
      (∀ state symbol, r.findRule state symbol = none ↔
        ∀ rule ∈ r.rules, rule.appliesTo state symbol = false) ∧
      (∀ i, r.Shadowed i → r.RunsAlike (r.delete i)) ∧
      (∀ i rule, r.rules[i]? = some rule → rule.matchesAnyState = false →
        r.isTerminal rule.currentState = true → r.RunsAlike (r.delete i)) ∧
      ∀ i, r.Apart i → r.RunsAlike (r.exchange i) := by
  refine ⟨fun _ _ _ => findRule_eq_some_iff, fun _ _ => findRule_eq_none_iff, ?_, ?_, ?_⟩
  · intro i h
    exact h.findsAlike.runsAlike
  · intro i rule hrule hwildcard hterminal
    exact (shadowed_of_currentState hrule hwildcard hterminal).findsAlike.runsAlike
  · intro i h
    exact h.findsAlike.runsAlike

/-- The third rule is shadowed by the first, the fourth is one for a terminal state, and the first
two are apart: one is for any state and the blank, the other for a symbol. -/
theorem precedence_of_four_rules :
    let anywhere : Rule := ⟨some "*", some "b", none, some "x", .toward .right⟩
    let back : Rule := ⟨some "b", some "c", some "x", none, .toward .left⟩
    let shadowed : Rule := ⟨some "b", some "b", none, some "y", .toward .stay⟩
    let ending : Rule := ⟨some "c", some "a", some "*", some "z", .toward .right⟩
    let r : Ruleset := ⟨[anywhere, back, shadowed, ending], some "a", .ofNames ["c"], none, 2⟩
    r.Shadowed 2 ∧ r.RunsAlike ⟨[anywhere, back, ending], some "a", .ofNames ["c"], none, 2⟩ ∧
      ending.matchesAnyState = false ∧ r.isTerminal ending.currentState = true ∧
      r.RunsAlike ⟨[anywhere, back, shadowed], some "a", .ofNames ["c"], none, 2⟩ ∧
      r.Apart 0 ∧
      r.RunsAlike ⟨[back, anywhere, shadowed, ending], some "a", .ofNames ["c"], none, 2⟩ := by
  intro anywhere back shadowed ending r
  obtain ⟨-, -, hdelete, hterminal, hexchange⟩ := r.precedence
  have hshadowed : r.Shadowed 2 := by
    rintro _ ⟨⟩ name symbol - happlies
    refine ⟨0, Nat.two_pos, anywhere, rfl, ?_⟩
    have hsymbol : none = symbol := by
      simpa [shadowed, Rule.matchesAnyValue] using
        (Bool.and_eq_true_iff.mp happlies).2
    rw [← hsymbol]
    rfl
  have hapart : r.Apart 0 := by
    rintro _ _ ⟨⟩ ⟨⟩ name symbol - ⟨hfirst, hsecond⟩
    have hblank : none = symbol := by
      simpa [anywhere, Rule.matchesAnyValue] using (Bool.and_eq_true_iff.mp hfirst).2
    rw [← hblank, Rule.appliesTo, Bool.and_eq_true_iff] at hsecond
    exact absurd hsecond.2 (by decide)
  exact ⟨hshadowed, hdelete 2 hshadowed, by decide, by decide,
    hterminal 3 ending rfl (by decide) (by decide), hapart, hexchange 0 hapart⟩

end Ruleset

end RingTape
