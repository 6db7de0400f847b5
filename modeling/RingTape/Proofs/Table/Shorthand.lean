import RingTape.Proofs.Table.Alike
import RingTape.Proofs.Text.Fields

/-!
# Groups as shorthand

A group of symbols in a table stands for as many entries, one for each symbol, with the value of the
group.  Where a key is a single symbol, its text is that of the datum that it is, so the two forms
say the same when the data under the single keys have the texts between the brackets, and when each
of the keys keeps a place of its own in the mapping.
-/

namespace RingTape

namespace Table

open Text

/-! ## A group and its symbols -/

/-- The rules of several entries of a state, in order. -/
def rulesOf (blank state : String) (entries : List (Datum × Datum)) :
    Except TableFault (List Rule) :=
  List.flatten <$> entries.mapM fun entry => entryRules blank state entry.1 entry.2

theorem rulesOf_append
    (blank state : String) (entries more : List (Datum × Datum)) :
    rulesOf blank state (entries ++ more) = do
      let rules ← rulesOf blank state entries
      let others ← rulesOf blank state more
      return rules ++ others := by
  simp only [rulesOf, List.mapM_append, map_bind, bind_map_left, map_pure, List.flatten_append]

theorem rulesOf_cons
    (blank state : String) (entry : Datum × Datum) (more : List (Datum × Datum)) :
    rulesOf blank state (entry :: more) = do
      let rules ← entryRules blank state entry.1 entry.2
      let others ← rulesOf blank state more
      return rules ++ others := by
  simp only [rulesOf, List.mapM_cons, map_bind, bind_map_left, map_pure, List.flatten_cons]

/-- The rules of a group are those of single keys for its symbols. -/
theorem rulesOf_group
    {group value : Datum} {keys : List Datum} {symbols : List String}
    (hgroup : symbolsOf group = .ok symbols)
    (hkeys : List.Forall₂ (fun key symbol => symbolsOf key = .ok [symbol]) keys symbols)
    (blank state : String) :
    rulesOf blank state [(group, value)] = rulesOf blank state (keys.map (·, value)) := by
  have hsingle : rulesOf blank state [(group, value)] = symbols.mapM (rule blank state value) := by
    rw [rulesOf_cons, entryRules, hgroup]
    simp [rulesOf]
  rw [hsingle]
  clear hsingle hgroup
  induction hkeys with
  | nil => rfl
  | @cons key symbol keys symbols hkey _ ih =>
      rw [List.map_cons, rulesOf_cons, ← ih, entryRules, hkey, List.mapM_cons]
      simp

theorem declareAlike_of_rulesOf
    {a b : Datum} {entries entries' : List (Datum × Datum)}
    (ha : a.entries? = some entries) (hb : b.entries? = some entries')
    (hempty : a.isEmpty = b.isEmpty)
    (h : ∀ blank state, rulesOf blank state entries = rulesOf blank state entries') :
    DeclareAlike a b := by
  intro blank key
  rw [declaration, declaration, ha, hb, hempty]
  have hdeclared (name : String) :
      (do
        let rules ← entries.mapM fun entry => entryRules blank name entry.1 entry.2
        return Declaration.transitions name rules.flatten : Except TableFault Declaration) =
      (do
        let rules ← entries'.mapM fun entry => entryRules blank name entry.1 entry.2
        return Declaration.transitions name rules.flatten) := by
    have hrules := congrArg (Declaration.transitions name <$> ·) (h blank name)
    simpa [rulesOf] using hrules
  simp only [hdeclared]

/-- Keys that are the same as none of the keys around them, and as none of each other. -/
structure Apart (keys : List Datum) (before after : List (Datum × Datum)) : Prop where
  before : ∀ entry ∈ before, ∀ key ∈ keys, entry.1.sameKey key = false
  among : keys.Pairwise fun a b => a.sameKey b = false
  after : ∀ key ∈ keys, ∀ entry ∈ after, key.sameKey entry.1 = false

theorem isTree_of_mem_group
    {before middle after : List (Datum × Datum)} {value : Datum} (hvalue : value.isTree = true)
    (htrees : ∀ entry ∈ before ++ after, entry.2.isTree = true)
    (hmiddle : ∀ entry ∈ middle, entry.2 = value) :
    ∀ entry ∈ before ++ middle ++ after, entry.2.isTree = true := by
  intro entry hentry
  rw [List.mem_append, List.mem_append] at hentry
  rcases hentry with (hentry | hentry) | hentry
  · exact htrees entry (List.mem_append_left after hentry)
  · rw [hmiddle entry hentry]
    exact hvalue
  · exact htrees entry (List.mem_append_right before hentry)

/-- In place of a group, single keys for its symbols may stand in the entries of a state. -/
theorem declareAlike_group
    {before after : List (Datum × Datum)} {group value : Datum} {keys : List Datum}
    {symbols : List String} (hgroup : symbolsOf group = .ok symbols)
    (hkeys : List.Forall₂ (fun key symbol => symbolsOf key = .ok [symbol]) keys symbols)
    (hne : keys ≠ []) (hgroupApart : Apart [group] before after)
    (hkeysApart : Apart keys before after)
    (hvalue : value.isTree = true)
    (htrees : ∀ entry ∈ before ++ after, entry.2.isTree = true) (label label' : Nat) :
    DeclareAlike (.mapping label (Datum.entriesOf (before ++ [(group, value)] ++ after)))
      (.mapping label' (Datum.entriesOf (before ++ keys.map (·, value) ++ after))) := by
  have htree {middle : List (Datum × Datum)} (hmiddle : ∀ entry ∈ middle, entry.2 = value) :
      ∀ entry ∈ Datum.entriesOf (before ++ middle ++ after), entry.2.isTree = true :=
    Datum.isTree_of_mem_entriesOf (isTree_of_mem_group hvalue htrees hmiddle)
  obtain ⟨before', after', h⟩ := Datum.exists_entriesOf_eq before after
  have hplaced {middle : List Datum} (hmiddle : Apart middle before after) :
      Datum.entriesOf (before ++ middle.map (·, value) ++ after) =
        before' ++ middle.map (·, value) ++ after' := by
    apply h
    · intro entry hentry new hnew
      obtain ⟨key, hkey, rfl⟩ := List.mem_map.mp hnew
      exact hmiddle.before entry hentry key hkey
    · exact List.pairwise_map.mpr hmiddle.among
    · intro entry hentry new hnew
      obtain ⟨key, hkey, rfl⟩ := List.mem_map.mp hentry
      exact hmiddle.after key hkey new hnew
  refine declareAlike_of_rulesOf (Datum.entries?_mapping (htree (by simp)))
    (Datum.entries?_mapping (htree (by simp))) ?_ fun blank state => ?_
  · rw [Datum.isEmpty, Datum.isEmpty, hplaced hkeysApart]
    refine Eq.trans (b := false) ?_ (Eq.symm ?_)
    · exact (congrArg List.isEmpty (hplaced hgroupApart)).trans (by simp)
    · rw [List.isEmpty_eq_false_iff]
      simp [hne]
  · rw [hplaced hkeysApart, rulesOf_append, rulesOf_append, ← rulesOf_group hgroup hkeys,
      ← rulesOf_append, ← rulesOf_append]
    exact congrArg (rulesOf blank state) (hplaced hgroupApart)

/-! ## Groups in documents -/

/-- What stands under a state in a table with lines in it: something else, or the entries of the
lines with entries before them and after them.  A state may have them written into it, and states
that are told to be the same, or into which its entries are merged, have them too. -/
inductive Slot where
  | fixed (value : Datum)
  | around (before after : List (Datum × Datum))

namespace Slot

/-- What stands there when these are the entries of the lines. -/
def fill (inside : List (Datum × Datum)) : Slot → Datum
  | fixed value => value
  | around before after => .mapping 0 (Datum.entriesOf (before ++ inside ++ after))

/-- No collection stands inside of itself. -/
def IsTree : Slot → Prop
  | fixed value => value.isTree = true
  | around before after => ∀ entry ∈ before ++ after, entry.2.isTree = true

/-- The keys are none of the keys around the lines. -/
def Admits (keys : List Datum) : Slot → Prop
  | fixed _ => True
  | around before after => Apart keys before after

theorem isTree_fill
    {slot : Slot} (h : slot.IsTree) {value : Datum} (hvalue : value.isTree = true)
    {inside : List (Datum × Datum)} (hinside : ∀ entry ∈ inside, entry.2 = value) :
    (slot.fill inside).isTree = true := by
  cases slot with
  | fixed other => exact h
  | around before after => exact Datum.isTree_mapping (isTree_of_mem_group hvalue h hinside)

theorem declareAlike_fill
    {slot : Slot} (h : slot.IsTree) {group value : Datum} {keys : List Datum}
    {symbols : List String} (hgroup : symbolsOf group = .ok symbols)
    (hkeys : List.Forall₂ (fun key symbol => symbolsOf key = .ok [symbol]) keys symbols)
    (hne : keys ≠ []) (hgroupAdmitted : slot.Admits [group]) (hkeysAdmitted : slot.Admits keys)
    (hvalue : value.isTree = true) :
    DeclareAlike (slot.fill [(group, value)]) (slot.fill (keys.map (·, value))) := by
  cases slot with
  | fixed other => exact declareAlike_refl other
  | around before after =>
      exact declareAlike_group hgroup hkeys hne hgroupAdmitted hkeysAdmitted hvalue h 0 0

end Slot

/-- A document without the entries of some lines in its table. -/
structure Frame where
  /-- What is written before the table in the document, and what after it. -/
  fields : List (Datum × Datum) × List (Datum × Datum)
  /-- The states as they are written in the table. -/
  states : List (Datum × Slot)

namespace Frame

/-- The table with these entries of the lines. -/
def table (f : Frame) (inside : List (Datum × Datum)) : Datum :=
  .mapping 0 (Datum.entriesOf (f.states.map fun state => (state.1, state.2.fill inside)))

/-- The document with these entries of the lines. -/
def document (f : Frame) (inside : List (Datum × Datum)) : Datum :=
  .mapping 0 (Datum.entriesOf (f.fields.1 ++ (.text "table", f.table inside) :: f.fields.2))

/-- No collection stands inside of itself. -/
structure IsTree (f : Frame) : Prop where
  fields : ∀ entry ∈ f.fields.1 ++ f.fields.2, entry.2.isTree = true
  states : ∀ state ∈ f.states, state.2.IsTree

/-- The keys are none of the keys around the lines, in any state. -/
def Admits (f : Frame) (keys : List Datum) : Prop :=
  ∀ state ∈ f.states, state.2.Admits keys

theorem isTree_of_mem_states
    {f : Frame} (h : f.IsTree) {value : Datum} (hvalue : value.isTree = true)
    {inside : List (Datum × Datum)} (hinside : ∀ entry ∈ inside, entry.2 = value) :
    ∀ entry ∈ f.states.map fun state => (state.1, state.2.fill inside),
      entry.2.isTree = true := by
  rw [List.forall_mem_map]
  exact fun state hstate => Slot.isTree_fill (h.states state hstate) hvalue hinside

theorem isTree_document
    {f : Frame} (h : f.IsTree) {value : Datum} (hvalue : value.isTree = true)
    {inside : List (Datum × Datum)} (hinside : ∀ entry ∈ inside, entry.2 = value) :
    (f.document inside).isTree = true :=
  Datum.isTree_mapping (Datum.isTree_of_mem_middle
    (Datum.isTree_mapping (isTree_of_mem_states h hvalue hinside)) h.fields)

end Frame

/-- The key that is written as a group of these symbols. -/
def groupText (symbols : List (List Char)) : List Char :=
  '[' :: joinWith [','] symbols ++ [']']

/-- A symbol that can be written in a group without quotes. -/
structure Groupable (symbol : List Char) : Prop where
  comma : ',' ∉ symbol
  itself : itemSymbol symbol = symbol

theorem symbolsOf_text
    (key : List Char) :
    symbolsOf (.text (String.ofList key)) = .ok ((symbolsOfText key).map String.ofList) := by
  simp [symbolsOf, Datum.toText]

/-- The items of a group are told apart by its commas. -/
theorem symbolsOfText_groupText_eq_map
    {items : List (List Char)} (hne : items ≠ []) (h : ∀ item ∈ items, ',' ∉ item) :
    symbolsOfText (groupText items) = items.map itemSymbol := by
  have hbody : groupBody? (groupText items) = some (joinWith [','] items) := by
    simp [groupBody?, groupText]
  rw [symbolsOfText, hbody]
  dsimp only
  rw [splitWhere_joinWith hne h]

theorem symbolsOfText_groupText
    {symbols : List (List Char)} (hne : symbols ≠ []) (h : ∀ s ∈ symbols, Groupable s) :
    symbolsOfText (groupText symbols) = symbols := by
  rw [symbolsOfText_groupText_eq_map hne fun s hs => (h s hs).comma,
    List.map_congr_left fun s hs => (h s hs).itself]
  exact List.map_id' symbols

/-- A key that is no list, and whose text is a symbol. -/
structure Shows (key : Datum) (symbol : List Char) : Prop where
  notList : ∀ label items, key ≠ .list label items
  text : key.toText = .ok (String.ofList symbol)
  alone : symbol.head? ≠ some '['

theorem Shows.symbolsOf_eq
    {key : Datum} {symbol : List Char} (h : Shows key symbol) :
    symbolsOf key = .ok [String.ofList symbol] := by
  have hsymbols : symbolsOfText symbol = [symbol] := by
    have hbody : groupBody? symbol = none := by
      cases symbol with
      | nil => rfl
      | cons c rest =>
          have hc : c ≠ '[' := fun hc => h.alone (hc ▸ rfl)
          simp [groupBody?, hc]
    rw [symbolsOfText, hbody]
  have hkey : symbolsOf key =
      (do return (symbolsOfText (← key.toText).toList).map String.ofList) := by
    cases key with
    | list label items => exact absurd rfl (h.notList label items)
    | _ => rfl
  rw [hkey, h.text]
  simp [hsymbols]

/-- The same is imported of a group of symbols and of single keys that show them. -/
theorem Frame.ofDatum_document_group
    {f : Frame} (hf : f.IsTree) {value : Datum} {symbols : List (List Char)} {keys : List Datum}
    (hne : symbols ≠ []) (hsymbols : ∀ s ∈ symbols, Groupable s)
    (hkeys : List.Forall₂ Shows keys symbols)
    (hgroupAdmitted : f.Admits [.text (String.ofList (groupText symbols))])
    (hkeysAdmitted : f.Admits keys) (hvalue : value.isTree = true) (size : Nat) :
    ofDatum size (f.document [(.text (String.ofList (groupText symbols)), value)]) =
      ofDatum size (f.document (keys.map (·, value))) := by
  have hgroup : symbolsOf (.text (String.ofList (groupText symbols))) =
      .ok (symbols.map String.ofList) := by
    rw [symbolsOf_text, symbolsOfText_groupText hne hsymbols]
  have hsingle : List.Forall₂ (fun key symbol => symbolsOf key = .ok [symbol]) keys
      (symbols.map String.ofList) := by
    rw [List.forall₂_map_right_iff]
    exact hkeys.imp fun key symbol h => h.symbolsOf_eq
  have hkeysNe : keys ≠ [] := by
    rintro rfl
    cases hkeys
    exact hne rfl
  have htrees {inside : List (Datum × Datum)} (hinside : ∀ entry ∈ inside, entry.2 = value) :=
    isTree_of_mem_states hf hvalue hinside
  refine ofDatum_table (importAlike_table ?_ (htrees (by simp)) (htrees (by simp)) 0 0)
    (Datum.isTree_mapping (htrees (by simp))) (Datum.isTree_mapping (htrees (by simp)))
    hf.fields size 0 0
  rw [List.forall₂_map_left_iff, List.forall₂_map_right_iff, List.forall₂_same]
  exact fun state hstate => ⟨rfl, Slot.declareAlike_fill (hf.states state hstate) hgroup hsingle
    hkeysNe (hgroupAdmitted state hstate) (hkeysAdmitted state hstate) hvalue⟩

end Table

end RingTape
