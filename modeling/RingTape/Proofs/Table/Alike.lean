import RingTape.Proofs.Checked
import RingTape.Proofs.Datum.Labels
import RingTape.Table.Import

/-!
# Documents of which the same is imported

What is imported of a table depends on its data only so far as they have texts, entries and
directions.  So the labels of a document without loops say nothing, and one value may stand for
another of which the same is declared.
-/

namespace RingTape

open Text

/-! ## Labels say nothing -/

namespace Datum

theorem lookup_unlabeled
    (key : Datum) (entries : List (Datum × Datum)) :
    lookup key (entries.map fun entry => (entry.1, entry.2.unlabeled)) =
      (lookup key entries).map unlabeled := by
  rw [lookup, List.find?_map, lookup, Option.map_map, Option.map_map]
  rfl

end Datum

namespace Table

theorem letter?_unlabeled
    (d : Datum) :
    Transition.letter? d.unlabeled = Transition.letter? d := by
  cases d <;> rfl

theorem transitionTextOf_unlabeled
    (d : Datum) :
    Transition.textOf d.unlabeled = Transition.textOf d := by
  rw [Transition.textOf, Transition.textOf, Datum.toText_unlabeled]

theorem textOr_unlabeled
    (default : String) (d : Option Datum) :
    Transition.textOr default (d.map Datum.unlabeled) = Transition.textOr default d := by
  cases d with
  | none => rfl
  | some d =>
      have htext := transitionTextOf_unlabeled d
      cases d with
      | null => rfl
      | _ => exact htext

theorem direction?_unlabeled
    (entries : List (Datum × Datum)) :
    Transition.direction? (entries.map fun entry => (entry.1, entry.2.unlabeled)) =
      (Transition.direction? entries).map fun found => (found.1, found.2.unlabeled) := by
  simp only [Transition.direction?, letters, List.findSome?_cons, List.findSome?_nil,
    Datum.lookup_unlabeled]
  cases Datum.lookup (.text "L") entries with
  | some value => rfl
  | none => cases Datum.lookup (.text "R") entries <;> rfl

theorem transition_unlabeled
    {value : Datum} (h : value.isTree = true) (state symbol : String) :
    Transition.ofDatum state symbol value.unlabeled = Transition.ofDatum state symbol value := by
  rw [Transition.ofDatum, Transition.ofDatum, letter?_unlabeled, Datum.entries?_unlabeled h,
    transitionTextOf_unlabeled]
  cases Transition.letter? value with
  | some direction => rfl
  | none =>
      cases value.entries? with
      | none => rfl
      | some entries =>
          simp only [Option.map_some, Datum.lookup_unlabeled, textOr_unlabeled,
            direction?_unlabeled]
          cases Transition.direction? entries with
          | none => rfl
          | some found =>
              have hnext := textOr_unlabeled state (some found.2)
              rw [Option.map_some] at hnext
              simp only [Option.map_some, hnext]

theorem entryRules_unlabeled
    {value : Datum} (h : value.isTree = true) (blank state : String) (key : Datum) :
    entryRules blank state key value.unlabeled = entryRules blank state key value := by
  have hrule : rule blank state value.unlabeled = rule blank state value := by
    funext read
    rw [rule, rule, transition_unlabeled h]
  rw [entryRules, entryRules, hrule]

theorem declaration_unlabeled
    {value : Datum} (h : value.isTree = true) (blank : String) (key : Datum) :
    declaration blank key value.unlabeled = declaration blank key value := by
  rw [declaration, declaration, Datum.isEmpty_unlabeled, Datum.entries?_unlabeled h]
  cases hentries : value.entries? with
  | none => rfl
  | some entries =>
      have htrees := Datum.isTree_of_entries? h hentries
      have hrules (state : String) :
          (entries.map fun entry => (entry.1, entry.2.unlabeled)).mapM
              (fun entry => entryRules blank state entry.1 entry.2) =
            entries.mapM fun entry => entryRules blank state entry.1 entry.2 := by
        apply mapM_eq_of_forall₂
        rw [List.forall₂_map_left_iff, List.forall₂_same]
        exact fun entry hentry => entryRules_unlabeled (htrees entry hentry) blank state entry.1
      simp only [Option.map_some, hrules]

end Table

/-! ## Documents that say the same -/

namespace Table

/-- Of both data the same is declared, under every key. -/
def DeclareAlike (a b : Datum) : Prop :=
  ∀ blank key, declaration blank key a = declaration blank key b

/-- Both data are tables with the same keys, and of the values under a key the same is declared. -/
def TabulateAlike (a b : Datum) : Prop :=
  Option.Rel (List.Forall₂ fun x y => x.1 = y.1 ∧ DeclareAlike x.2 y.2) a.entries? b.entries?

/-- Nothing else is imported of one datum than of the other when they stand under the key in a
document. -/
structure ImportAlike (key a b : Datum) : Prop where
  table : TabulateAlike a b
  text : key ≠ .text "table" → a.toText = b.toText
  isNull : a.isNull = b.isNull

theorem importAlike_unlabeled
    {d : Datum} (h : d.isTree = true) (key : Datum) :
    ImportAlike key d.unlabeled d := by
  refine ⟨?_, fun _ => d.toText_unlabeled, d.isNull_unlabeled⟩
  rw [TabulateAlike, Datum.entries?_unlabeled h]
  cases hentries : d.entries? with
  | none => exact .none
  | some entries =>
      apply Option.Rel.some
      rw [List.forall₂_map_left_iff, List.forall₂_same]
      exact fun entry hentry =>
        ⟨rfl, fun blank key =>
          declaration_unlabeled (Datum.isTree_of_entries? h hentries entry hentry) blank key⟩

variable {fields fields' : List (Datum × Datum)}

theorem field_alike
    (h : List.Forall₂ (fun a b => a.1 = b.1 ∧ ImportAlike a.1 a.2 b.2) fields fields')
    (name : String) :
    Option.Rel (ImportAlike (.text name)) (field name fields) (field name fields') := by
  rw [field, field, Datum.lookup, Datum.lookup]
  induction h with
  | nil => exact .none
  | @cons a b _ _ hab _ ih =>
      obtain ⟨k, v⟩ := a
      obtain ⟨k', v'⟩ := b
      obtain ⟨rfl, halike⟩ : k = k' ∧ ImportAlike k v v' := hab
      by_cases hsame : k.sameKey (.text name) = true
      · simp only [List.find?_cons, hsame]
        exact .some (Datum.sameKey_text_iff.mp hsame ▸ halike)
      · simp only [List.find?_cons, hsame]
        exact ih

theorem toText_field_alike
    (h : List.Forall₂ (fun a b => a.1 = b.1 ∧ ImportAlike a.1 a.2 b.2) fields fields')
    (name : String) (hname : name ≠ "table") :
    Option.Rel (fun a b => a.toText = b.toText ∧ a.isNull = b.isNull) (field name fields)
      (field name fields') := by
  have hkey : Datum.text name ≠ .text "table" := fun heq => hname (Datum.text.inj heq)
  have hfield := field_alike h name
  revert hfield
  generalize field name fields = a
  generalize field name fields' = b
  rintro (hab | _)
  · exact .some ⟨hab.text hkey, hab.isNull⟩
  · exact .none

theorem textOf_getD_alike
    {a b : Option Datum} (h : Option.Rel (fun a b => a.toText = b.toText ∧ a.isNull = b.isNull) a b)
    (default : Datum) :
    textOf (a.getD default) = textOf (b.getD default) ∧
      (a.getD default).isNull = (b.getD default).isNull := by
  cases h with
  | none => exact ⟨rfl, rfl⟩
  | some hab => exact ⟨by rw [Option.getD_some, Option.getD_some, textOf, textOf, hab.1], hab.2⟩

theorem startField_alike
    (h : List.Forall₂ (fun a b => a.1 = b.1 ∧ ImportAlike a.1 a.2 b.2) fields fields') :
    textOf (startField fields) = textOf (startField fields') ∧
      (startField fields).isNull = (startField fields').isNull := by
  refine textOf_getD_alike ?_ .null
  have hsecond := toText_field_alike h "start_state" (by decide)
  have hfirst := toText_field_alike h "start state" (by decide)
  revert hfirst
  generalize field "start state" fields = a
  generalize field "start state" fields' = b
  rintro (hab | _)
  · exact .some hab
  · exact hsecond

theorem tableEntries?_alike
    (h : List.Forall₂ (fun a b => a.1 = b.1 ∧ ImportAlike a.1 a.2 b.2) fields fields') :
    Option.Rel (List.Forall₂ fun x y => x.1 = y.1 ∧ DeclareAlike x.2 y.2)
      (tableEntries? fields) (tableEntries? fields') := by
  have hfield := field_alike h "table"
  rw [tableEntries?, tableEntries?]
  revert hfield
  generalize field "table" fields = a
  generalize field "table" fields' = b
  rintro (hab | _)
  · have htable := hab.table
    rw [TabulateAlike] at htable
    rw [Option.bind_some, Option.bind_some]
    revert htable
    generalize Datum.entries? _ = x
    generalize Datum.entries? _ = y
    rintro (hxy | _)
    · cases hxy with
      | nil => exact .none
      | cons hfirst hrest => exact .some (.cons hfirst hrest)
    · exact .none
  · exact .none

/-- The same is imported of two documents with the same keys when it is so of the values under each
key. -/
theorem ofDatum_alike
    {document document' : Datum}
    (hfields : document.entries? = some fields) (hfields' : document'.entries? = some fields')
    (h : List.Forall₂ (fun a b => a.1 = b.1 ∧ ImportAlike a.1 a.2 b.2) fields fields')
    (size : Nat) :
    ofDatum size document = ofDatum size document' := by
  have htables := tableEntries?_alike h
  obtain ⟨hstart, hstartNull⟩ := startField_alike h
  obtain ⟨hblank, -⟩ :=
    textOf_getD_alike (toText_field_alike h "blank" (by decide)) (.text " ")
  obtain ⟨hinput, hinputNull⟩ :=
    textOf_getD_alike (toText_field_alike h "input" (by decide)) .null
  rw [ofDatum, ofDatum, hfields, hfields']
  dsimp only
  revert htables
  generalize tableEntries? fields = entries
  generalize tableEntries? fields' = entries'
  intro htables
  cases htables with
  | none => rfl
  | @some table table' hrows =>
      have hdeclared (blank : String) :
          (table.mapM fun entry => declaration blank entry.1 entry.2) =
            table'.mapM fun entry => declaration blank entry.1 entry.2 :=
        mapM_eq_of_forall₂ (hrows.imp fun a b hab => by rw [hab.1, hab.2])
      have hfirst : table.head?.map (·.1) = table'.head?.map (·.1) := by
        cases hrows with
        | nil => rfl
        | cons hab _ => exact congrArg some hab.1
      have hinitial : textOf (if (startField fields).isNull then
            (table.head?.map (·.1)).getD .null else startField fields) =
          textOf (if (startField fields').isNull then
            (table'.head?.map (·.1)).getD .null else startField fields') := by
        rw [hfirst, hstartNull]
        split_ifs
        · rfl
        · exact hstart
      simp only [hblank, hdeclared, hinitial, hinput, hinputNull]

/-! ## Documents that differ in one place -/

theorem ofDatum_unlabeled
    {d : Datum} (h : d.isTree = true) (size : Nat) :
    ofDatum size d.unlabeled = ofDatum size d := by
  have hunlabeled := Datum.entries?_unlabeled h
  cases hentries : d.entries? with
  | none =>
      rw [hentries] at hunlabeled
      rw [ofDatum, ofDatum, hunlabeled, hentries]
      rfl
  | some entries =>
      rw [hentries] at hunlabeled
      have htrees := Datum.isTree_of_entries? h hentries
      refine ofDatum_alike hunlabeled hentries ?_ size
      rw [List.forall₂_map_left_iff, List.forall₂_same]
      exact fun entry hentry => ⟨rfl, importAlike_unlabeled (htrees entry hentry) entry.1⟩

theorem declareAlike_refl
    (d : Datum) :
    DeclareAlike d d :=
  fun _ _ => rfl

/-- Two tables with the same states import alike when the same is declared of each state. -/
theorem importAlike_table
    {states states' : List (Datum × Datum)}
    (h : List.Forall₂ (fun a b => a.1 = b.1 ∧ DeclareAlike a.2 b.2) states states')
    (htrees : ∀ entry ∈ states, entry.2.isTree = true)
    (htrees' : ∀ entry ∈ states', entry.2.isTree = true) (label label' : Nat) :
    ImportAlike (.text "table") (.mapping label (Datum.entriesOf states))
      (.mapping label' (Datum.entriesOf states')) := by
  constructor
  case table =>
    rw [TabulateAlike, Datum.entries?_mapping (Datum.isTree_of_mem_entriesOf htrees),
      Datum.entries?_mapping (Datum.isTree_of_mem_entriesOf htrees')]
    exact .some (Datum.forall₂_entriesOf (R := fun _ => DeclareAlike) (fun _ _ _ _ _ h => h) h)
  case text => exact fun hkey => absurd rfl hkey
  case isNull => rfl

theorem importAlike_refl
    (key d : Datum) :
    ImportAlike key d d := by
  refine ⟨?_, fun _ => rfl, rfl⟩
  rw [TabulateAlike]
  cases d.entries? with
  | none => exact .none
  | some entries =>
      exact .some (List.forall₂_same.mpr fun entry _ => ⟨rfl, declareAlike_refl entry.2⟩)

/-- Two documents that differ in their table import alike when the tables do. -/
theorem ofDatum_table
    {before after : List (Datum × Datum)} {a b : Datum} (h : ImportAlike (.text "table") a b)
    (ha : a.isTree = true) (hb : b.isTree = true)
    (htrees : ∀ entry ∈ before ++ after, entry.2.isTree = true) (size label label' : Nat) :
    ofDatum size (.mapping label (Datum.entriesOf (before ++ (.text "table", a) :: after))) =
      ofDatum size (.mapping label' (Datum.entriesOf (before ++ (.text "table", b) :: after))) := by
  have htree (label : Nat) {d : Datum} (hd : d.isTree = true) :
      (Datum.mapping label (Datum.entriesOf (before ++ (.text "table", d) :: after))).entries? =
        some (Datum.entriesOf (before ++ (.text "table", d) :: after)) :=
    Datum.entries?_mapping (Datum.isTree_of_mem_entriesOf (Datum.isTree_of_mem_middle hd htrees))
  refine ofDatum_alike (htree label ha) (htree label' hb)
    (Datum.forall₂_entriesOf_middle ?_ (fun entry _ => importAlike_refl entry.1 entry.2) h) size
  intro k key value value' hsame halike
  refine ⟨halike.table, fun hk => halike.text fun hkey => hk ?_, halike.isNull⟩
  rw [hkey] at hsame
  exact Datum.sameKey_text_iff.mp hsame

end Table

end RingTape
