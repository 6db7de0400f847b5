import RingTape.Datum.Show
import RingTape.Proofs.Datum.Entries

/-!
# Labels

The labels of a datum tell at which collection it is cut off.  A datum in which no collection stands
inside of itself is not cut off anywhere: a member of it is a tree of its own as it stands, and its
labels say nothing.
-/

namespace RingTape

namespace Datum

mutual

/-- Whether no collection stands inside of itself. -/
def isTree : Datum → Bool
  | .enclosing .. => false
  | .pair first second => first.isTree && second.isTree
  | .list _ items => areTrees items
  | .mapping _ entries => areTreeEntries entries
  | _ => true

/-- `isTree` of each item. -/
def areTrees : List Datum → Bool
  | [] => true
  | item :: items => item.isTree && areTrees items

/-- `isTree` of each value. -/
def areTreeEntries : List (Datum × Datum) → Bool
  | [] => true
  | (_, value) :: entries => value.isTree && areTreeEntries entries

end

mutual

/-- The datum with one label everywhere. -/
def unlabeled : Datum → Datum
  | .pair first second => .pair first.unlabeled second.unlabeled
  | .list _ items => .list 0 (unlabeledItems items)
  | .mapping _ entries => .mapping 0 (unlabeledEntries entries)
  | other => other

/-- `unlabeled` on each item. -/
def unlabeledItems : List Datum → List Datum
  | [] => []
  | item :: items => item.unlabeled :: unlabeledItems items

/-- `unlabeled` on each value. -/
def unlabeledEntries : List (Datum × Datum) → List (Datum × Datum)
  | [] => []
  | (key, value) :: entries => (key, value.unlabeled) :: unlabeledEntries entries

end

theorem areTreeEntries_iff
    {entries : List (Datum × Datum)} :
    areTreeEntries entries = true ↔ ∀ entry ∈ entries, entry.2.isTree = true := by
  induction entries with
  | nil => simp [areTreeEntries]
  | cons entry entries ih => simp [areTreeEntries, ih]

theorem unlabeledEntries_eq_map
    (entries : List (Datum × Datum)) :
    unlabeledEntries entries = entries.map fun entry => (entry.1, entry.2.unlabeled) := by
  induction entries with
  | nil => rfl
  | cons entry entries ih => rw [unlabeledEntries, ih, List.map_cons]

theorem unlabeled_insertEntry
    (key value : Datum) (entries : List (Datum × Datum)) :
    unlabeledEntries (insertEntry key value entries) =
      insertEntry key value.unlabeled (unlabeledEntries entries) := by
  induction entries with
  | nil => rfl
  | cons entry entries ih =>
      obtain ⟨k, v⟩ := entry
      rw [insertEntry, unlabeledEntries, insertEntry]
      by_cases hsame : k.sameKey key = true
      · rw [if_pos hsame, if_pos hsame, unlabeledEntries]
      · rw [if_neg hsame, if_neg hsame, unlabeledEntries, ih]

theorem unlabeledEntries_entriesOf
    (written : List (Datum × Datum)) :
    unlabeledEntries (entriesOf written) = entriesOf (unlabeledEntries written) := by
  suffices hall : ∀ entries : List (Datum × Datum),
      unlabeledEntries (insertAll entries written) =
        insertAll (unlabeledEntries entries) (unlabeledEntries written) from hall []
  induction written with
  | nil => exact fun _ => rfl
  | cons new written ih =>
      intro entries
      obtain ⟨key, value⟩ := new
      rw [insertAll, List.foldl_cons]
      refine (ih (insertEntry key value entries)).trans ?_
      rw [unlabeled_insertEntry]
      rfl

mutual

theorem isTree_unlabeled :
    ∀ d : Datum, d.unlabeled.isTree = d.isTree
  | .pair first second => by
      rw [unlabeled, isTree, isTree, isTree_unlabeled first, isTree_unlabeled second]
  | .list _ items => by rw [unlabeled, isTree, isTree, areTrees_unlabeledItems items]
  | .mapping _ entries => by
      rw [unlabeled, isTree, isTree, areTreeEntries_unlabeledEntries entries]
  | .null | .bool _ | .int _ | .float _ | .text _ | .bytes _ | .date .. | .dateTime _ | .set _
  | .enclosing .. => rfl

theorem areTrees_unlabeledItems :
    ∀ items : List Datum, areTrees (unlabeledItems items) = areTrees items
  | [] => rfl
  | item :: items => by
      rw [unlabeledItems, areTrees, areTrees, isTree_unlabeled item, areTrees_unlabeledItems items]

theorem areTreeEntries_unlabeledEntries :
    ∀ entries : List (Datum × Datum),
      areTreeEntries (unlabeledEntries entries) = areTreeEntries entries
  | [] => rfl
  | (key, value) :: entries => by
      rw [unlabeledEntries, areTreeEntries, areTreeEntries, isTree_unlabeled value,
        areTreeEntries_unlabeledEntries entries]

end

theorem unlabeled_of_isKey
    {d : Datum} (h : d.isKey = true) :
    d.unlabeled = d := by
  cases d with
  | pair | list | mapping => cases h
  | _ => rfl

theorem isTree_of_isKey
    {d : Datum} (h : d.isKey = true) :
    d.isTree = true := by
  cases d with
  | pair | list | mapping | enclosing => cases h
  | _ => rfl

/-! ## The text of a datum -/

mutual

theorem nested_unlabeled :
    ∀ d : Datum, nested d.unlabeled = nested d
  | .pair first second => by
      rw [unlabeled, nested, nested, nested_unlabeled first, nested_unlabeled second]
  | .list _ items => by rw [unlabeled, nested, nested, nestedItems_unlabeledItems items]
  | .mapping _ entries => by
      rw [unlabeled, nested, nested, nestedEntries_unlabeledEntries entries]
  | .null | .bool _ | .int _ | .float _ | .text _ | .bytes _ | .date .. | .dateTime _ | .set _
  | .enclosing .. => rfl

theorem nestedItems_unlabeledItems :
    ∀ items : List Datum, nestedItems (unlabeledItems items) = nestedItems items
  | [] => rfl
  | item :: items => by
      rw [unlabeledItems, nestedItems, nestedItems, nested_unlabeled item,
        nestedItems_unlabeledItems items]

theorem nestedEntries_unlabeledEntries :
    ∀ entries : List (Datum × Datum), nestedEntries (unlabeledEntries entries) = nestedEntries entries
  | [] => rfl
  | (key, value) :: entries => by
      rw [unlabeledEntries, nestedEntries, nestedEntries, nested_unlabeled value,
        nestedEntries_unlabeledEntries entries]

end

@[simp] theorem toText_unlabeled
    (d : Datum) :
    d.unlabeled.toText = d.toText := by
  cases d with
  | pair first second => exact congrArg (String.ofList <$> ·) (nested_unlabeled (.pair first second))
  | list label items => exact congrArg (String.ofList <$> ·) (nested_unlabeled (.list label items))
  | mapping label entries =>
      exact congrArg (String.ofList <$> ·) (nested_unlabeled (.mapping label entries))
  | _ => rfl

@[simp] theorem isEmpty_unlabeled
    (d : Datum) :
    d.unlabeled.isEmpty = d.isEmpty := by
  cases d with
  | list label items => cases items <;> rfl
  | mapping label entries => cases entries <;> rfl
  | _ => rfl

@[simp] theorem isNull_unlabeled
    (d : Datum) :
    d.unlabeled.isNull = d.isNull := by
  cases d <;> rfl

/-! ## Members -/

mutual

theorem unfoldWithin_of_isTree
    (whole : Datum) (path : List Nat) :
    ∀ d : Datum, d.isTree = true → unfoldWithin whole path d = d
  | .pair first second, h => by
      rw [isTree, Bool.and_eq_true] at h
      rw [unfoldWithin, unfoldWithin_of_isTree whole path first h.1,
        unfoldWithin_of_isTree whole path second h.2]
  | .list label items, h => by
      rw [unfoldWithin, unfoldItems_of_areTrees whole (label :: path) items h]
  | .mapping label entries, h => by
      rw [unfoldWithin, unfoldEntries_of_areTreeEntries whole (label :: path) entries h]
  | .null, _ | .bool _, _ | .int _, _ | .float _, _ | .text _, _ | .bytes _, _ | .date .., _
  | .dateTime _, _ | .set _, _ => rfl

theorem unfoldItems_of_areTrees
    (whole : Datum) (path : List Nat) :
    ∀ items : List Datum, areTrees items = true → unfoldItems whole path items = items
  | [], _ => rfl
  | item :: items, h => by
      rw [areTrees, Bool.and_eq_true] at h
      rw [unfoldItems, unfoldWithin_of_isTree whole path item h.1,
        unfoldItems_of_areTrees whole path items h.2]

theorem unfoldEntries_of_areTreeEntries
    (whole : Datum) (path : List Nat) :
    ∀ entries : List (Datum × Datum),
      areTreeEntries entries = true → unfoldEntries whole path entries = entries
  | [], _ => rfl
  | (key, value) :: entries, h => by
      rw [areTreeEntries, Bool.and_eq_true] at h
      rw [unfoldEntries, unfoldWithin_of_isTree whole path value h.1,
        unfoldEntries_of_areTreeEntries whole path entries h.2]

end

/-- The values of a mapping without loops are trees of their own as they stand. -/
theorem entries?_mapping
    {label : Nat} {entries : List (Datum × Datum)}
    (h : ∀ entry ∈ entries, entry.2.isTree = true) :
    (mapping label entries).entries? = some entries := by
  rw [entries?]
  refine congrArg some ((List.map_congr_left fun entry hentry => ?_).trans (List.map_id entries))
  change (entry.1, unfoldWithin _ [] entry.2) = entry
  rw [unfoldWithin_of_isTree _ _ _ (h entry hentry)]

theorem isTree_of_mem_middle
    {before after : List (Datum × Datum)} {key d : Datum} (hd : d.isTree = true)
    (h : ∀ entry ∈ before ++ after, entry.2.isTree = true) :
    ∀ entry ∈ before ++ (key, d) :: after, entry.2.isTree = true := by
  intro entry hentry
  rw [List.mem_append, List.mem_cons] at hentry
  rcases hentry with hentry | rfl | hentry
  · exact h entry (List.mem_append_left after hentry)
  · exact hd
  · exact h entry (List.mem_append_right before hentry)

theorem isTree_of_mem_entriesOf
    {written : List (Datum × Datum)} (h : ∀ entry ∈ written, entry.2.isTree = true) :
    ∀ entry ∈ entriesOf written, entry.2.isTree = true := by
  have hwritten : ∀ entry ∈ written, True ∧ entry.2.isTree = true :=
    fun entry hentry => ⟨trivial, h entry hentry⟩
  exact fun entry hentry =>
    (forall_entriesOf (P := fun _ => True) (Q := fun d => d.isTree = true) hwritten entry hentry).2

theorem isTree_mapping
    {label : Nat} {written : List (Datum × Datum)} (h : ∀ entry ∈ written, entry.2.isTree = true) :
    (mapping label (entriesOf written)).isTree = true :=
  areTreeEntries_iff.mpr (isTree_of_mem_entriesOf h)

theorem isTree_of_entries?
    {d : Datum} (h : d.isTree = true) {entries : List (Datum × Datum)}
    (hentries : d.entries? = some entries) :
    ∀ entry ∈ entries, entry.2.isTree = true := by
  cases d with
  | mapping label written =>
      have htrees := areTreeEntries_iff.mp h
      rw [entries?_mapping htrees] at hentries
      cases hentries
      exact htrees
  | _ => cases hentries

theorem entries?_unlabeled
    {d : Datum} (h : d.isTree = true) :
    d.unlabeled.entries? =
      d.entries?.map fun entries => entries.map fun entry => (entry.1, entry.2.unlabeled) := by
  cases d with
  | mapping label written =>
      have htrees : areTreeEntries (unlabeledEntries written) = true := by
        rw [areTreeEntries_unlabeledEntries]
        exact h
      rw [unlabeled, entries?_mapping (areTreeEntries_iff.mp htrees),
        entries?_mapping (areTreeEntries_iff.mp h), unlabeledEntries_eq_map]
      rfl
  | _ => rfl

end Datum

end RingTape
