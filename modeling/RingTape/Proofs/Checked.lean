import Mathlib.Data.List.Forall2

/-!
# Checked results

What it says of the parts of a checked computation that the whole of it succeeds, and which faults
the whole can have by the faults of its parts.
-/

namespace RingTape

variable {ε ε' α β : Type}

theorem bind_eq_ok_iff
    {x : Except ε α} {f : α → Except ε β} {b : β} :
    x >>= f = .ok b ↔ ∃ a, x = .ok a ∧ f a = .ok b := by
  cases x with
  | error fault =>
      constructor
      · intro h
        cases h
      · rintro ⟨a, ha, -⟩
        cases ha
  | ok a =>
      constructor
      · exact fun h => ⟨a, rfl, h⟩
      · rintro ⟨a', ha, h⟩
        cases ha
        exact h

theorem bind_eq_error_iff
    {x : Except ε α} {f : α → Except ε β} {fault : ε} :
    x >>= f = .error fault ↔ x = .error fault ∨ ∃ a, x = .ok a ∧ f a = .error fault := by
  cases x with
  | error fault' =>
      constructor
      · exact fun h => .inl (congrArg Except.error (Except.error.inj h))
      · rintro (h | ⟨a, ha, -⟩)
        · exact congrArg Except.error (Except.error.inj h)
        · cases ha
  | ok a =>
      constructor
      · exact fun h => .inr ⟨a, rfl, h⟩
      · rintro (h | ⟨a', ha, h⟩)
        · cases h
        · cases ha
          exact h

theorem map_eq_ok_iff
    {x : Except ε α} {f : α → β} {b : β} :
    f <$> x = .ok b ↔ ∃ a, x = .ok a ∧ f a = b := by
  cases x with
  | error fault => simp [Functor.map, Except.map]
  | ok a => simp [Functor.map, Except.map]

theorem map_eq_error_iff
    {x : Except ε α} {f : α → β} {fault : ε} :
    f <$> x = .error fault ↔ x = .error fault := by
  cases x with
  | error fault' => simp [Functor.map, Except.map]
  | ok a => simp [Functor.map, Except.map]

theorem mapError_eq_ok_iff
    {x : Except ε α} {f : ε → ε'} {a : α} :
    x.mapError f = .ok a ↔ x = .ok a := by
  cases x with
  | error fault => simp [Except.mapError]
  | ok a' => simp [Except.mapError]

theorem mapError_eq_error_iff
    {x : Except ε α} {f : ε → ε'} {fault : ε'} :
    x.mapError f = .error fault ↔ ∃ cause, x = .error cause ∧ f cause = fault := by
  cases x with
  | error cause => simp [Except.mapError]
  | ok a => simp [Except.mapError]

theorem toOption_eq_some_iff
    {x : Except ε α} {a : α} :
    x.toOption = some a ↔ x = .ok a := by
  cases x with
  | error fault => simp [Except.toOption]
  | ok a' => simp [Except.toOption]

/-- A list is gone through when each of its members is. -/
theorem mapM_eq_ok_iff
    {f : α → Except ε β} {xs : List α} {ys : List β} :
    xs.mapM f = .ok ys ↔ List.Forall₂ (fun x y => f x = .ok y) xs ys := by
  induction xs generalizing ys with
  | nil =>
      rw [List.mapM_nil, List.forall₂_nil_left_iff]
      constructor
      · intro h
        cases h
        rfl
      · rintro rfl
        rfl
  | cons x xs ih =>
      rw [List.mapM_cons, bind_eq_ok_iff, List.forall₂_cons_left_iff]
      constructor
      · rintro ⟨y, hy, h⟩
        obtain ⟨ys', hys, h⟩ := bind_eq_ok_iff.mp h
        cases h
        exact ⟨y, ys', hy, ih.mp hys, rfl⟩
      · rintro ⟨y, ys', hy, hys, rfl⟩
        exact ⟨y, hy, bind_eq_ok_iff.mpr ⟨ys', ih.mpr hys, rfl⟩⟩

/-- Lists that are gone through alike, member by member, give the same. -/
theorem mapM_eq_of_forall₂
    {γ : Type} {m : Type → Type} [Monad m] [LawfulMonad m] {f : α → m β} {g : γ → m β}
    {xs : List α} {ys : List γ} (h : List.Forall₂ (fun x y => f x = g y) xs ys) :
    xs.mapM f = ys.mapM g := by
  induction h with
  | nil => rfl
  | cons hxy _ ih => rw [List.mapM_cons, List.mapM_cons, hxy, ih]

/-! ## Faults -/

/-- Every fault of a checked computation has the property. -/
def FailsOnly (P : ε → Prop) (x : Except ε α) : Prop :=
  ∀ fault, x = .error fault → P fault

section FailsOnly

variable {P : ε → Prop} {x : Except ε α}

theorem failsOnly_ok
    (a : α) :
    FailsOnly P (.ok a : Except ε α) :=
  nofun

theorem failsOnly_error
    {fault : ε} (h : P fault) :
    FailsOnly P (.error fault : Except ε α) := by
  rintro _ ⟨⟩
  exact h

instance [DecidablePred P] : Decidable (FailsOnly P x) :=
  match x with
  | .error fault => decidable_of_iff (P fault) ⟨failsOnly_error, fun h => h fault rfl⟩
  | .ok a => isTrue (failsOnly_ok a)

theorem failsOnly_false_iff :
    FailsOnly (fun _ => False) x ↔ ∃ a, x = .ok a := by
  cases x with
  | error fault => exact ⟨fun h => (h fault rfl).elim, nofun⟩
  | ok a => exact ⟨fun _ => ⟨a, rfl⟩, fun _ => failsOnly_ok a⟩

theorem FailsOnly.bind
    {f : α → Except ε β} (hx : FailsOnly P x) (hf : ∀ a, x = .ok a → FailsOnly P (f a)) :
    FailsOnly P (x >>= f) := by
  cases x with
  | error fault => exact failsOnly_error (hx fault rfl)
  | ok a => exact hf a rfl

theorem FailsOnly.map
    {f : α → β} (hx : FailsOnly P x) :
    FailsOnly P (f <$> x) := by
  cases x with
  | error fault => exact failsOnly_error (hx fault rfl)
  | ok a => exact failsOnly_ok (f a)

theorem FailsOnly.mapError
    {Q : ε' → Prop} {g : ε → ε'} (hx : FailsOnly P x) (hg : ∀ fault, P fault → Q (g fault)) :
    FailsOnly Q (x.mapError g) := by
  cases x with
  | error fault => exact failsOnly_error (hg fault (hx fault rfl))
  | ok a => exact failsOnly_ok a

theorem failsOnly_mapError
    {Q : ε' → Prop} {g : ε → ε'} (hg : ∀ fault, Q (g fault)) :
    FailsOnly Q (x.mapError g) :=
  FailsOnly.mapError (P := fun _ => True) (fun _ _ => trivial) fun fault _ => hg fault

theorem FailsOnly.mapM
    {f : β → Except ε α} {ys : List β} (h : ∀ y ∈ ys, FailsOnly P (f y)) :
    FailsOnly P (ys.mapM f) := by
  induction ys with
  | nil => exact failsOnly_ok []
  | cons y ys ih =>
      rw [List.forall_mem_cons] at h
      rw [List.mapM_cons]
      exact h.1.bind fun a _ => (ih h.2).bind fun as _ => failsOnly_ok (a :: as)

end FailsOnly

/-! ## Members -/

theorem exists_of_mem_left
    {R : α → β → Prop} {xs : List α} {ys : List β} (h : List.Forall₂ R xs ys) {x : α}
    (hx : x ∈ xs) :
    ∃ y ∈ ys, R x y := by
  induction h with
  | nil => cases hx
  | cons hxy _ ih =>
      rcases List.mem_cons.mp hx with rfl | hx
      · exact ⟨_, List.mem_cons_self, hxy⟩
      · obtain ⟨y, hy, hR⟩ := ih hx
        exact ⟨y, List.mem_cons_of_mem _ hy, hR⟩

theorem exists_of_mem_right
    {R : α → β → Prop} {xs : List α} {ys : List β} (h : List.Forall₂ R xs ys) {y : β}
    (hy : y ∈ ys) :
    ∃ x ∈ xs, R x y := by
  obtain ⟨x, hx, hR⟩ := exists_of_mem_left (R := flip R) h.flip hy
  exact ⟨x, hx, hR⟩

theorem forall₂_imp_of_mem
    {R S : α → β → Prop} {xs : List α} {ys : List β} (h : List.Forall₂ R xs ys)
    (himp : ∀ x ∈ xs, ∀ y, R x y → S x y) :
    List.Forall₂ S xs ys := by
  induction h with
  | nil => exact .nil
  | cons hxy _ ih =>
      rw [List.forall_mem_cons] at himp
      exact .cons (himp.1 _ hxy) (ih himp.2)

/-- The members of a list are related to those of another one when each has a partner. -/
theorem exists_forall₂_iff
    {R : α → β → Prop} {xs : List α} :
    (∃ ys, List.Forall₂ R xs ys) ↔ ∀ x ∈ xs, ∃ y, R x y := by
  constructor
  · rintro ⟨ys, hys⟩ x hx
    obtain ⟨y, -, hy⟩ := exists_of_mem_left hys hx
    exact ⟨y, hy⟩
  · intro h
    induction xs with
    | nil => exact ⟨[], .nil⟩
    | cons x xs ih =>
        rw [List.forall_mem_cons] at h
        obtain ⟨y, hy⟩ := h.1
        obtain ⟨ys, hys⟩ := ih h.2
        exact ⟨y :: ys, .cons hy hys⟩

/-- A list can be gone through when each of its members can. -/
theorem exists_mapM_iff
    {f : α → Except ε β} {xs : List α} :
    (∃ ys, xs.mapM f = .ok ys) ↔ ∀ x ∈ xs, ∃ y, f x = .ok y := by
  simp only [mapM_eq_ok_iff]
  exact exists_forall₂_iff

/-- A list is not gone through when one of its members is at fault, and the first of them tells. -/
theorem mapM_eq_error_iff
    {f : α → Except ε β} {xs : List α} {fault : ε} :
    xs.mapM f = .error fault ↔ ∃ before x after, xs = before ++ x :: after ∧
      (∀ earlier ∈ before, ∃ b, f earlier = .ok b) ∧ f x = .error fault := by
  constructor
  · intro h
    induction xs with
    | nil => cases h
    | cons x xs ih =>
        rw [List.mapM_cons, bind_eq_error_iff] at h
        rcases h with hx | ⟨b, hb, h⟩
        · exact ⟨[], x, xs, rfl, nofun, hx⟩
        · rcases bind_eq_error_iff.mp h with hxs | ⟨bs, -, h⟩
          · obtain ⟨before, x', after, rfl, hbefore, hx'⟩ := ih hxs
            exact ⟨x :: before, x', after, rfl, List.forall_mem_cons.mpr ⟨⟨b, hb⟩, hbefore⟩, hx'⟩
          · cases h
  · rintro ⟨before, x, after, rfl, hbefore, hx⟩
    obtain ⟨bs, hbs⟩ := exists_mapM_iff.mpr hbefore
    rw [List.mapM_append, hbs, List.mapM_cons, hx]
    rfl

/-- Lists in a list are gone through one after the other. -/
theorem mapM_flatten
    (f : α → Except ε β) (xss : List (List α)) :
    xss.flatten.mapM f = List.flatten <$> xss.mapM fun xs => xs.mapM f := by
  induction xss with
  | nil => rfl
  | cons xs xss ih =>
      rw [List.flatten_cons, List.mapM_append, ih, List.mapM_cons]
      simp only [map_bind, bind_map_left, map_pure, List.flatten_cons]

theorem eq_map_of_forall₂
    {f : α → β} {xs : List α} {ys : List β} (h : List.Forall₂ (fun x y => y = f x) xs ys) :
    ys = xs.map f := by
  induction h with
  | nil => rfl
  | cons hy _ ih => rw [List.map_cons, hy, ih]

theorem exists_map_eq_of_subset
    {f : α → β} {known : List α} {l : List β} (h : l ⊆ known.map f) :
    ∃ chosen ⊆ known, chosen.map f = l := by
  induction l with
  | nil => exact ⟨[], List.nil_subset known, rfl⟩
  | cons b l ih =>
      rw [List.cons_subset] at h
      obtain ⟨a, ha, rfl⟩ := List.mem_map.mp h.1
      obtain ⟨chosen, hchosen, rfl⟩ := ih h.2
      exact ⟨a :: chosen, List.cons_subset.mpr ⟨ha, hchosen⟩, rfl⟩

theorem map_eq_map_of_forall₂
    {γ : Type} {f : α → γ} {g : β → γ} {xs : List α} {ys : List β}
    (h : List.Forall₂ (fun x y => f x = g y) xs ys) :
    xs.map f = ys.map g := by
  induction h with
  | nil => rfl
  | cons hxy _ ih => rw [List.map_cons, List.map_cons, hxy, ih]

/-! ## Corresponding results -/

section Corresponds

variable {α' β' : Type} {R : α → α' → Prop} {S : β → β' → Prop}

/-- Two computations fail with the same fault, or both succeed with results that are related. -/
inductive Corresponds (R : α → α' → Prop) : Except ε α → Except ε α' → Prop
  | ok {a : α} {a' : α'} : R a a' → Corresponds R (.ok a) (.ok a')
  | error (fault : ε) : Corresponds R (.error fault) (.error fault)

theorem Corresponds.bind
    {x : Except ε α} {x' : Except ε α'} {f : α → Except ε β} {f' : α' → Except ε β'}
    (h : Corresponds R x x') (hf : ∀ a a', R a a' → Corresponds S (f a) (f' a')) :
    Corresponds S (x >>= f) (x' >>= f') := by
  cases h with
  | ok ha => exact hf _ _ ha
  | error fault => exact .error fault

theorem Corresponds.ite
    {b : Bool} {x y : Except ε α} {x' y' : Except ε α'} (hpos : b = true → Corresponds R x x')
    (hneg : b = false → Corresponds R y y') :
    Corresponds R (if b then x else y) (if b then x' else y') := by
  cases b with
  | true => exact hpos rfl
  | false => exact hneg rfl

end Corresponds

end RingTape
