import RingTape.Datum.Show
import RingTape.Proofs.Checked
import Mathlib.Algebra.Group.Nat.Defs

/-!
# The integers of a datum

A datum has a text when each integer that it holds, however deep inside, is short enough to be
written.  A member that is taken out of a datum and turned around, be it by its place or by its key,
holds no other integers than the datum.
-/

namespace RingTape

open Text

namespace Datum

mutual

/-- The integers in a datum, those of its members and of its keys included. -/
def integers : Datum → List Int
  | .int n => [n]
  | .pair first second => first.integers ++ second.integers
  | .list _ items => itemIntegers items
  | .mapping _ entries => entryIntegers entries
  | .set items => itemIntegers items
  | _ => []

/-- The integers in some items. -/
def itemIntegers : List Datum → List Int
  | [] => []
  | item :: items => item.integers ++ itemIntegers items

/-- The integers in some entries. -/
def entryIntegers : List (Datum × Datum) → List Int
  | [] => []
  | (key, value) :: entries => (key.integers ++ value.integers) ++ entryIntegers entries

end

/-- Integers that have no more digits than can be written. -/
def AllShort (integers : List Int) : Prop :=
  ∀ n ∈ integers, n.natAbs < 10 ^ maxDecimalDigits

instance (ns : List Int) : Decidable (AllShort ns) :=
  inferInstanceAs (Decidable (∀ n ∈ ns, n.natAbs < 10 ^ maxDecimalDigits))

theorem allShort_append
    {ns ns' : List Int} :
    AllShort (ns ++ ns') ↔ AllShort ns ∧ AllShort ns' :=
  List.forall_mem_append

theorem allShort_nil :
    AllShort [] :=
  List.forall_mem_nil _

/-! ## The text of a datum -/

theorem exists_showInt_iff
    {n : Int} :
    (∃ text, showInt n = .ok text) ↔ AllShort [n] := by
  have hlength : (natText n.natAbs).length ≤ maxDecimalDigits ↔ AllShort [n] := by
    rw [AllShort, List.forall_mem_singleton]
    exact Nat.length_toDigits_le_iff (by decide) (by decide)
  rw [← hlength, ← Nat.not_lt, showInt]
  split
  · next hlong => exact ⟨fun ⟨_, h⟩ => (nomatch h), fun h => absurd hlong h⟩
  · next hshort => exact ⟨fun _ => hshort, fun _ => ⟨_, rfl⟩⟩

mutual

theorem exists_nested :
    ∀ d : Datum, AllShort d.integers → ∃ text, nested d = .ok text
  | .int _, h => exists_showInt_iff.mpr h
  | .pair first second, h => by
      obtain ⟨hfirst, hsecond⟩ := allShort_append.mp h
      obtain ⟨text, htext⟩ := exists_nested first hfirst
      obtain ⟨text', htext'⟩ := exists_nested second hsecond
      rw [nested, htext, htext']
      exact ⟨_, rfl⟩
  | .list _ items, h => by
      obtain ⟨texts, htexts⟩ := exists_nestedItems items h
      rw [nested, htexts]
      exact ⟨_, rfl⟩
  | .mapping _ entries, h => by
      obtain ⟨texts, htexts⟩ := exists_nestedEntries entries h
      rw [nested, htexts]
      exact ⟨_, rfl⟩
  | .set items, h => by
      obtain ⟨texts, htexts⟩ := exists_nestedItems items h
      rw [nested, htexts]
      cases texts <;> exact ⟨_, rfl⟩
  | .null, _ | .bool _, _ | .float _, _ | .text _, _ | .bytes _, _ | .date .., _
  | .dateTime _, _ | .enclosing .., _ => ⟨_, rfl⟩

theorem exists_nestedItems :
    ∀ items : List Datum, AllShort (itemIntegers items) → ∃ texts, nestedItems items = .ok texts
  | [], _ => ⟨_, rfl⟩
  | item :: items, h => by
      obtain ⟨hitem, hitems⟩ := allShort_append.mp h
      obtain ⟨text, htext⟩ := exists_nested item hitem
      obtain ⟨texts, htexts⟩ := exists_nestedItems items hitems
      rw [nestedItems, htext, htexts]
      exact ⟨_, rfl⟩

theorem exists_nestedEntries :
    ∀ entries : List (Datum × Datum),
      AllShort (entryIntegers entries) → ∃ texts, nestedEntries entries = .ok texts
  | [], _ => ⟨_, rfl⟩
  | (key, value) :: entries, h => by
      obtain ⟨hentry, hentries⟩ := allShort_append.mp h
      obtain ⟨hkey, hvalue⟩ := allShort_append.mp hentry
      obtain ⟨text, htext⟩ := exists_nested key hkey
      obtain ⟨text', htext'⟩ := exists_nested value hvalue
      obtain ⟨texts, htexts⟩ := exists_nestedEntries entries hentries
      rw [nestedEntries, htext, htext', htexts]
      exact ⟨_, rfl⟩

end

mutual

theorem allShort_of_nested :
    ∀ (d : Datum) {text : List Char}, nested d = .ok text → AllShort d.integers
  | .int _, _, h => exists_showInt_iff.mp ⟨_, h⟩
  | .pair first second, _, h => by
      obtain ⟨text, htext, h⟩ := bind_eq_ok_iff.mp h
      obtain ⟨text', htext', -⟩ := bind_eq_ok_iff.mp h
      exact allShort_append.mpr ⟨allShort_of_nested first htext, allShort_of_nested second htext'⟩
  | .list _ items, _, h => by
      obtain ⟨texts, htexts, -⟩ := bind_eq_ok_iff.mp h
      exact allShort_of_nestedItems items htexts
  | .mapping _ entries, _, h => by
      obtain ⟨texts, htexts, -⟩ := bind_eq_ok_iff.mp h
      exact allShort_of_nestedEntries entries htexts
  | .set items, _, h => by
      obtain ⟨texts, htexts, -⟩ := bind_eq_ok_iff.mp h
      exact allShort_of_nestedItems items htexts
  | .null, _, _ | .bool _, _, _ | .float _, _, _ | .text _, _, _ | .bytes _, _, _ | .date .., _, _
  | .dateTime _, _, _ | .enclosing .., _, _ => nofun

theorem allShort_of_nestedItems :
    ∀ (items : List Datum) {texts : List (List Char)},
      nestedItems items = .ok texts → AllShort (itemIntegers items)
  | [], _, _ => nofun
  | item :: items, _, h => by
      obtain ⟨text, htext, h⟩ := bind_eq_ok_iff.mp h
      obtain ⟨texts, htexts, -⟩ := bind_eq_ok_iff.mp h
      exact allShort_append.mpr ⟨allShort_of_nested item htext, allShort_of_nestedItems items htexts⟩

theorem allShort_of_nestedEntries :
    ∀ (entries : List (Datum × Datum)) {texts : List (List Char)},
      nestedEntries entries = .ok texts → AllShort (entryIntegers entries)
  | [], _, _ => nofun
  | (key, value) :: entries, _, h => by
      obtain ⟨text, htext, h⟩ := bind_eq_ok_iff.mp h
      obtain ⟨text', htext', h⟩ := bind_eq_ok_iff.mp h
      obtain ⟨texts, htexts, -⟩ := bind_eq_ok_iff.mp h
      exact allShort_append.mpr
        ⟨allShort_append.mpr ⟨allShort_of_nested key htext, allShort_of_nested value htext'⟩,
          allShort_of_nestedEntries entries htexts⟩

end

/-- A datum whose integers are short has a text. -/
theorem exists_toText
    {d : Datum} (h : AllShort d.integers) :
    ∃ text, d.toText = .ok text := by
  obtain ⟨text, htext⟩ := exists_nested d h
  unfold toText
  split
  · exact ⟨_, rfl⟩
  · exact ⟨_, rfl⟩
  · exact ⟨_, rfl⟩
  · exact ⟨_, map_eq_ok_iff.mpr ⟨text, htext, rfl⟩⟩

/-- Only an integer that is too long keeps a datum from having a text. -/
theorem exists_toText_iff
    {d : Datum} :
    (∃ text, d.toText = .ok text) ↔ AllShort d.integers := by
  refine ⟨?_, exists_toText⟩
  rintro ⟨shown, htext⟩
  unfold toText at htext
  split at htext
  · exact nofun
  · exact nofun
  · exact nofun
  · obtain ⟨inside, hinside, -⟩ := map_eq_ok_iff.mp htext
    exact allShort_of_nested _ hinside

/-! ## Members -/

mutual

theorem allShort_prune
    (path : List Nat) :
    ∀ d : Datum, AllShort d.integers → AllShort (prune path d).integers
  | .pair first second, h => by
      obtain ⟨hfirst, hsecond⟩ := allShort_append.mp h
      exact allShort_append.mpr
        ⟨allShort_prune path first hfirst, allShort_prune path second hsecond⟩
  | .list label items, h => by
      rw [prune]
      split
      · exact nofun
      · exact allShort_pruneItems path items h
  | .mapping label entries, h => by
      rw [prune]
      split
      · exact nofun
      · exact allShort_pruneEntries path entries h
  | .null, h | .bool _, h | .int _, h | .float _, h | .text _, h | .bytes _, h | .date .., h
  | .dateTime _, h | .set _, h | .enclosing .., h => h

theorem allShort_pruneItems
    (path : List Nat) :
    ∀ items : List Datum,
      AllShort (itemIntegers items) → AllShort (itemIntegers (pruneItems path items))
  | [], h => h
  | item :: items, h => by
      obtain ⟨hitem, hitems⟩ := allShort_append.mp h
      exact allShort_append.mpr
        ⟨allShort_prune path item hitem, allShort_pruneItems path items hitems⟩

theorem allShort_pruneEntries
    (path : List Nat) :
    ∀ entries : List (Datum × Datum),
      AllShort (entryIntegers entries) → AllShort (entryIntegers (pruneEntries path entries))
  | [], h => h
  | (key, value) :: entries, h => by
      obtain ⟨hentry, hentries⟩ := allShort_append.mp h
      obtain ⟨hkey, hvalue⟩ := allShort_append.mp hentry
      exact allShort_append.mpr
        ⟨allShort_append.mpr ⟨hkey, allShort_prune path value hvalue⟩,
          allShort_pruneEntries path entries hentries⟩

end

mutual

theorem allShort_unfoldWithin
    {whole : Datum} (hwhole : AllShort whole.integers) (path : List Nat) :
    ∀ d : Datum, AllShort d.integers → AllShort (unfoldWithin whole path d).integers
  | .enclosing label isMapping, h => by
      rw [unfoldWithin]
      split
      · exact allShort_prune path whole hwhole
      · exact h
  | .pair first second, h => by
      obtain ⟨hfirst, hsecond⟩ := allShort_append.mp h
      exact allShort_append.mpr
        ⟨allShort_unfoldWithin hwhole path first hfirst,
          allShort_unfoldWithin hwhole path second hsecond⟩
  | .list label items, h => allShort_unfoldItems hwhole (label :: path) items h
  | .mapping label entries, h => allShort_unfoldEntries hwhole (label :: path) entries h
  | .null, h | .bool _, h | .int _, h | .float _, h | .text _, h | .bytes _, h | .date .., h
  | .dateTime _, h | .set _, h => h

theorem allShort_unfoldItems
    {whole : Datum} (hwhole : AllShort whole.integers) (path : List Nat) :
    ∀ items : List Datum,
      AllShort (itemIntegers items) → AllShort (itemIntegers (unfoldItems whole path items))
  | [], h => h
  | item :: items, h => by
      obtain ⟨hitem, hitems⟩ := allShort_append.mp h
      exact allShort_append.mpr
        ⟨allShort_unfoldWithin hwhole path item hitem,
          allShort_unfoldItems hwhole path items hitems⟩

theorem allShort_unfoldEntries
    {whole : Datum} (hwhole : AllShort whole.integers) (path : List Nat) :
    ∀ entries : List (Datum × Datum),
      AllShort (entryIntegers entries) →
        AllShort (entryIntegers (unfoldEntries whole path entries))
  | [], h => h
  | (key, value) :: entries, h => by
      obtain ⟨hentry, hentries⟩ := allShort_append.mp h
      obtain ⟨hkey, hvalue⟩ := allShort_append.mp hentry
      exact allShort_append.mpr
        ⟨allShort_append.mpr ⟨hkey, allShort_unfoldWithin hwhole path value hvalue⟩,
          allShort_unfoldEntries hwhole path entries hentries⟩

end

theorem allShort_of_mem_items
    {items : List Datum} (h : AllShort (itemIntegers items)) {item : Datum} (hitem : item ∈ items) :
    AllShort item.integers := by
  induction items with
  | nil => cases hitem
  | cons first rest ih =>
      obtain ⟨hfirst, hrest⟩ := allShort_append.mp h
      rcases List.mem_cons.mp hitem with rfl | hitem
      · exact hfirst
      · exact ih hrest hitem

theorem allShort_of_mem_entries
    {entries : List (Datum × Datum)} (h : AllShort (entryIntegers entries))
    {key value : Datum} (hentry : (key, value) ∈ entries) :
    AllShort key.integers ∧ AllShort value.integers := by
  induction entries with
  | nil => cases hentry
  | cons first rest ih =>
      obtain ⟨hfirst, hrest⟩ := allShort_append.mp h
      rcases List.mem_cons.mp hentry with rfl | hentry
      · exact allShort_append.mp hfirst
      · exact ih hrest hentry

/-- The entries of a mapping, turned around, hold no other integers than the mapping. -/
theorem allShort_of_mem_entries?
    {d : Datum} (h : AllShort d.integers) {entries : List (Datum × Datum)}
    (hentries : d.entries? = some entries) {key value : Datum} (hentry : (key, value) ∈ entries) :
    AllShort key.integers ∧ AllShort value.integers := by
  cases d with
  | mapping label written =>
      cases hentries
      obtain ⟨⟨key', member⟩, hmember, hpair⟩ := List.mem_map.mp hentry
      cases hpair
      obtain ⟨hkey, hvalue⟩ := allShort_of_mem_entries h hmember
      exact ⟨hkey, allShort_unfoldWithin h [] member hvalue⟩
  | _ => cases hentries

/-- What is under a key of a mapping holds no other integers than the mapping. -/
theorem allShort_of_lookup
    {d : Datum} (h : AllShort d.integers) {entries : List (Datum × Datum)}
    (hentries : d.entries? = some entries) {key value : Datum}
    (hvalue : lookup key entries = some value) :
    AllShort value.integers := by
  obtain ⟨⟨key', value'⟩, hfind, rfl⟩ := Option.map_eq_some_iff.mp hvalue
  exact (allShort_of_mem_entries? h hentries (List.mem_of_find?_eq_some hfind)).2

end Datum

end RingTape
