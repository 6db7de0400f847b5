/-!
# Sets of names

Finite sets of names, kept as the strictly ascending list of their members.  Names are ordered by
the code points of their characters.  Two sets with the same members are the same value, and the
list is also the order in which the members are written out.
-/

namespace RingTape

/-- The ascending list with one more name. -/
def insertName (name : String) : List String → List String
  | [] => [name]
  | x :: rest =>
    if name < x then name :: x :: rest
    else if name = x then x :: rest
    else x :: insertName name rest

theorem mem_insertName
    {name y : String} {names : List String} :
    y ∈ insertName name names ↔ y = name ∨ y ∈ names := by
  induction names with
  | nil => simp [insertName]
  | cons x rest ih =>
    simp only [insertName]
    split
    · simp
    · split
      · next h => simp [h]
      · simp only [List.mem_cons, ih]
        exact or_left_comm

theorem pairwise_insertName
    {name : String} {names : List String} (h : names.Pairwise (· < ·)) :
    (insertName name names).Pairwise (· < ·) := by
  induction names with
  | nil => simp [insertName]
  | cons x rest ih =>
    rw [List.pairwise_cons] at h
    simp only [insertName]
    split
    · next hlt =>
      refine List.pairwise_cons.2 ⟨fun y hy => ?_, List.pairwise_cons.2 h⟩
      rcases List.mem_cons.1 hy with rfl | hy
      · exact hlt
      · exact String.lt_trans hlt (h.1 y hy)
    · next hnot =>
      split
      · exact List.pairwise_cons.2 h
      · next hne =>
        refine List.pairwise_cons.2 ⟨fun y hy => ?_, ih h.2⟩
        rcases mem_insertName.1 hy with rfl | hy
        · refine String.not_le.1 fun hle => hne ?_
          exact String.le_antisymm hle (String.not_lt.1 hnot)
        · exact h.1 y hy

/-- A finite set of names. -/
structure NameSet where
  toList : List String
  ascending : toList.Pairwise (· < ·)
  deriving DecidableEq, Repr

namespace NameSet

def empty : NameSet := ⟨[], .nil⟩

instance : Inhabited NameSet := ⟨empty⟩

def insert (name : String) (s : NameSet) : NameSet :=
  ⟨insertName name s.toList, pairwise_insertName s.ascending⟩

def ofList (names : List String) : NameSet :=
  names.foldr insert empty

instance : Membership String NameSet := ⟨fun s name => name ∈ s.toList⟩

instance (name : String) (s : NameSet) : Decidable (name ∈ s) :=
  inferInstanceAs (Decidable (name ∈ s.toList))

@[simp]
theorem mem_toList
    {name : String} {s : NameSet} :
    name ∈ s.toList ↔ name ∈ s := Iff.rfl

@[simp]
theorem not_mem_empty
    (name : String) :
    name ∉ empty := by
  simp [← mem_toList, empty]

@[simp]
theorem mem_insert
    {name y : String} {s : NameSet} :
    y ∈ s.insert name ↔ y = name ∨ y ∈ s :=
  mem_insertName

@[simp]
theorem mem_ofList
    {name : String} {names : List String} :
    name ∈ ofList names ↔ name ∈ names := by
  induction names with
  | nil => simp [ofList]
  | cons x rest ih =>
    rw [ofList, List.foldr_cons, mem_insert, ← ofList, ih, List.mem_cons]

end NameSet

end RingTape
