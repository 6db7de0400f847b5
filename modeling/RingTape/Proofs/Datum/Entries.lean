import RingTape.Datum.Basic
import Mathlib.Data.List.Forall2

/-!
# Entries of a mapping

A mapping is written entry by entry, and an entry whose key is there already changes the value in
its place.  Entries whose keys no other entry has stay together, in the order in which they are
written.
-/

namespace RingTape

namespace Datum

/-- A text is the same key as itself only. -/
theorem sameKey_text_iff
    {d : Datum} {s : String} :
    d.sameKey (.text s) = true ↔ d = .text s := by
  cases d with
  | text t => simp [sameKey]
  | _ => simp [sameKey, int?]

theorem insertEntry_append
    (key value : Datum) (entries more : List (Datum × Datum)) :
    insertEntry key value (entries ++ more) =
      if entries.any (·.1.sameKey key) then insertEntry key value entries ++ more
      else entries ++ insertEntry key value more := by
  induction entries with
  | nil => rfl
  | cons entry entries ih =>
      obtain ⟨k, v⟩ := entry
      rw [List.cons_append, insertEntry, insertEntry, List.any_cons, ih]
      by_cases hkey : k.sameKey key = true
      · simp [hkey]
      · by_cases hany : entries.any (·.1.sameKey key) = true
        · simp [hkey, hany]
        · simp [hkey, hany]

theorem insertEntry_of_apart
    {key value : Datum} {entries : List (Datum × Datum)}
    (h : ∀ entry ∈ entries, entry.1.sameKey key = false) :
    insertEntry key value entries = entries ++ [(key, value)] := by
  have hany : ¬ entries.any (·.1.sameKey key) = true := by
    simpa using h
  have happend := insertEntry_append key value entries []
  rwa [List.append_nil, if_neg hany] at happend

/-- The entries with more written after them. -/
def insertAll (entries written : List (Datum × Datum)) : List (Datum × Datum) :=
  written.foldl (fun entries entry => insertEntry entry.1 entry.2 entries) entries

theorem entriesOf_append
    (written more : List (Datum × Datum)) :
    entriesOf (written ++ more) = insertAll (entriesOf written) more :=
  List.foldl_append

theorem forall_insertEntry
    {P Q : Datum → Prop} {key value : Datum} {entries : List (Datum × Datum)}
    (hnew : P key ∧ Q value) (h : ∀ entry ∈ entries, P entry.1 ∧ Q entry.2) :
    ∀ entry ∈ insertEntry key value entries, P entry.1 ∧ Q entry.2 := by
  induction entries with
  | nil => exact List.forall_mem_singleton.mpr hnew
  | cons first entries ih =>
      obtain ⟨k, v⟩ := first
      rw [List.forall_mem_cons] at h
      rw [insertEntry]
      split
      · exact List.forall_mem_cons.mpr ⟨⟨h.1.1, hnew.2⟩, h.2⟩
      · exact List.forall_mem_cons.mpr ⟨h.1, ih h.2⟩

theorem forall_insertAll
    {P Q : Datum → Prop} {entries written : List (Datum × Datum)}
    (hwritten : ∀ entry ∈ written, P entry.1 ∧ Q entry.2)
    (h : ∀ entry ∈ entries, P entry.1 ∧ Q entry.2) :
    ∀ entry ∈ insertAll entries written, P entry.1 ∧ Q entry.2 := by
  induction written generalizing entries with
  | nil => exact h
  | cons new written ih =>
      rw [List.forall_mem_cons] at hwritten
      exact ih hwritten.2 (forall_insertEntry hwritten.1 h)

/-- A mapping has no other keys and no other values than are written, though a value may have come
to stand under a key that it is not written under. -/
theorem forall_entriesOf
    {P Q : Datum → Prop} {written : List (Datum × Datum)}
    (h : ∀ entry ∈ written, P entry.1 ∧ Q entry.2) :
    ∀ entry ∈ entriesOf written, P entry.1 ∧ Q entry.2 :=
  forall_insertAll h nofun

/-- Entries under keys of their own go to the end. -/
theorem insertAll_of_apart
    {entries written : List (Datum × Datum)}
    (hbefore : ∀ entry ∈ entries, ∀ new ∈ written, entry.1.sameKey new.1 = false)
    (happart : written.Pairwise fun a b => a.1.sameKey b.1 = false) :
    insertAll entries written = entries ++ written := by
  induction written generalizing entries with
  | nil => exact (List.append_nil entries).symm
  | cons new written ih =>
      rw [List.pairwise_cons] at happart
      rw [insertAll, List.foldl_cons,
        insertEntry_of_apart fun entry hentry => hbefore entry hentry new List.mem_cons_self]
      refine (ih ?_ happart.2).trans (List.append_assoc entries [new] written)
      intro entry hentry other hother
      rcases List.mem_append.mp hentry with hentry | hentry
      · exact hbefore entry hentry other (List.mem_cons_of_mem new hother)
      · rw [List.mem_singleton.mp hentry]
        exact happart.1 other hother

/-- What is written after entries that no key of it touches changes what is around them only. -/
theorem exists_insertAll_eq
    (before after written : List (Datum × Datum)) :
    ∃ before' after', ∀ middle : List (Datum × Datum),
      (∀ entry ∈ middle, ∀ new ∈ written, entry.1.sameKey new.1 = false) →
        insertAll (before ++ middle ++ after) written = before' ++ middle ++ after' := by
  induction written generalizing before after with
  | nil => exact ⟨before, after, fun middle _ => rfl⟩
  | cons new written ih =>
      by_cases hany : before.any (·.1.sameKey new.1) = true
      · obtain ⟨before', after', h⟩ := ih (insertEntry new.1 new.2 before) after
        refine ⟨before', after', fun middle hmiddle => ?_⟩
        have hrest : ∀ entry ∈ middle, ∀ other ∈ written, entry.1.sameKey other.1 = false :=
          fun entry hentry other hother =>
            hmiddle entry hentry other (List.mem_cons_of_mem new hother)
        rw [insertAll, List.foldl_cons, List.append_assoc, insertEntry_append, if_pos hany,
          ← List.append_assoc]
        exact h middle hrest
      · obtain ⟨before', after', h⟩ := ih before (insertEntry new.1 new.2 after)
        refine ⟨before', after', fun middle hmiddle => ?_⟩
        have hrest : ∀ entry ∈ middle, ∀ other ∈ written, entry.1.sameKey other.1 = false :=
          fun entry hentry other hother =>
            hmiddle entry hentry other (List.mem_cons_of_mem new hother)
        have htouch : ¬ (before ++ middle).any (·.1.sameKey new.1) = true := by
          have hmiddle' : ∀ entry ∈ middle, entry.1.sameKey new.1 = false :=
            fun entry hentry => hmiddle entry hentry new List.mem_cons_self
          simpa [List.any_append, hany] using hmiddle'
        rw [insertAll, List.foldl_cons, insertEntry_append, if_neg htouch]
        exact h middle hrest

/-- Entries under keys of their own stand together in a mapping, whatever is written around them. -/
theorem exists_entriesOf_eq
    (before after : List (Datum × Datum)) :
    ∃ before' after', ∀ middle : List (Datum × Datum),
      (∀ entry ∈ before, ∀ new ∈ middle, entry.1.sameKey new.1 = false) →
      (middle.Pairwise fun a b => a.1.sameKey b.1 = false) →
      (∀ entry ∈ middle, ∀ new ∈ after, entry.1.sameKey new.1 = false) →
        entriesOf (before ++ middle ++ after) = before' ++ middle ++ after' := by
  obtain ⟨before', after', h⟩ := exists_insertAll_eq (entriesOf before) [] after
  refine ⟨before', after', fun middle hbefore happart hafter => ?_⟩
  have hfirst : entriesOf (before ++ middle) = entriesOf before ++ middle := by
    rw [entriesOf_append]
    have hkeys : ∀ entry ∈ entriesOf before,
        (∀ new ∈ middle, entry.1.sameKey new.1 = false) ∧ True :=
      forall_entriesOf (P := fun key => ∀ new ∈ middle, key.sameKey new.1 = false)
        (Q := fun _ => True) fun entry hentry => ⟨hbefore entry hentry, trivial⟩
    exact insertAll_of_apart (fun entry hentry => (hkeys entry hentry).1) happart
  rw [entriesOf_append, hfirst, ← List.append_nil (entriesOf before ++ middle)]
  exact h middle hafter

/-! ## Entries under the same keys -/

/-- Two mappings that are written under the same keys, with values that are alike, have the same
keys and alike values.  What is alike may depend on the key. -/
theorem forall₂_insertEntry
    {R : Datum → Datum → Datum → Prop} {key value value' : Datum}
    {entries entries' : List (Datum × Datum)}
    (hkey : ∀ k, k.sameKey key = true → R key value value' → R k value value')
    (hnew : R key value value')
    (h : List.Forall₂ (fun a b => a.1 = b.1 ∧ R a.1 a.2 b.2) entries entries') :
    List.Forall₂ (fun a b => a.1 = b.1 ∧ R a.1 a.2 b.2)
      (insertEntry key value entries) (insertEntry key value' entries') := by
  induction h with
  | nil => exact .cons ⟨rfl, hnew⟩ .nil
  | @cons a b _ _ hab hrest ih =>
      obtain ⟨k, v⟩ := a
      obtain ⟨k', v'⟩ := b
      obtain ⟨rfl, hvalue⟩ : k = k' ∧ R k v v' := hab
      rw [insertEntry, insertEntry]
      by_cases hsame : k.sameKey key = true
      · rw [if_pos hsame, if_pos hsame]
        exact .cons ⟨rfl, hkey k hsame hnew⟩ hrest
      · rw [if_neg hsame, if_neg hsame]
        exact .cons ⟨rfl, hvalue⟩ ih

theorem forall₂_entriesOf
    {R : Datum → Datum → Datum → Prop} {written written' : List (Datum × Datum)}
    (hkey : ∀ k key value value', k.sameKey key = true → R key value value' → R k value value')
    (h : List.Forall₂ (fun a b => a.1 = b.1 ∧ R a.1 a.2 b.2) written written') :
    List.Forall₂ (fun a b => a.1 = b.1 ∧ R a.1 a.2 b.2) (entriesOf written)
      (entriesOf written') := by
  suffices hall : ∀ entries entries' : List (Datum × Datum),
      List.Forall₂ (fun a b => a.1 = b.1 ∧ R a.1 a.2 b.2) entries entries' →
        List.Forall₂ (fun a b => a.1 = b.1 ∧ R a.1 a.2 b.2) (insertAll entries written)
          (insertAll entries' written') from hall [] [] .nil
  induction h with
  | nil => exact fun _ _ hentries => hentries
  | @cons a b _ _ hab _ ih =>
      intro entries entries' hentries
      obtain ⟨k, v⟩ := a
      obtain ⟨k', v'⟩ := b
      obtain ⟨rfl, hvalue⟩ : k = k' ∧ R k v v' := hab
      exact ih _ _ (forall₂_insertEntry (fun key hsame => hkey key k v v' hsame) hvalue hentries)

/-- Two mappings that are written alike but for one value. -/
theorem forall₂_entriesOf_middle
    {R : Datum → Datum → Datum → Prop} {before after : List (Datum × Datum)} {key a b : Datum}
    (hkey : ∀ k key value value', k.sameKey key = true → R key value value' → R k value value')
    (hrefl : ∀ entry ∈ before ++ after, R entry.1 entry.2 entry.2) (h : R key a b) :
    List.Forall₂ (fun a b => a.1 = b.1 ∧ R a.1 a.2 b.2)
      (entriesOf (before ++ (key, a) :: after)) (entriesOf (before ++ (key, b) :: after)) := by
  apply forall₂_entriesOf hkey
  have hbefore : List.Forall₂ (fun a b : Datum × Datum => a.1 = b.1 ∧ R a.1 a.2 b.2)
      before before :=
    List.forall₂_same.mpr fun entry hentry => ⟨rfl, hrefl entry (List.mem_append_left after hentry)⟩
  have hafter : List.Forall₂ (fun a b : Datum × Datum => a.1 = b.1 ∧ R a.1 a.2 b.2) after after :=
    List.forall₂_same.mpr fun entry hentry =>
      ⟨rfl, hrefl entry (List.mem_append_right before hentry)⟩
  exact List.rel_append hbefore (.cons ⟨rfl, h⟩ hafter)

end Datum

end RingTape
