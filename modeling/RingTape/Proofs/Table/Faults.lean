import RingTape.Proofs.Datum.Integers
import RingTape.Proofs.Table.Import

/-!
# Faults of an imported table

Each check of a table refuses with a fault of its own, which is reported.  The faults that are not
come from below: from a loader that fails for another reason than the structure of the text, an
integer too long to be written, and a tape with more cells than can be counted.
-/

namespace RingTape

open Text

/-- A fault that is reported. -/
def TableFault.IsReported : TableFault → Prop
  | .tapeSize (.unshowable _) | .document (.value _) | .transition .unshowable | .unshowable
  | .tooManyCells => False
  | .tapeSize (.illegal _) | .document .malformed | .noTable | .token _ | .noMapping _
  | .transition (.noDirection _) | .transition (.unreadable _) | .inputTooLong .. => True

namespace Table

open Datum TableFault

/-! ## Transitions -/

namespace Transition

theorem exists_textOf
    {d : Datum} (h : AllShort d.integers) :
    ∃ text, textOf d = .ok text := by
  obtain ⟨text, htext⟩ := exists_toText h
  rw [textOf, htext]
  exact ⟨text, rfl⟩

theorem exists_textOr
    (default : String) {d : Option Datum} (h : ∀ value ∈ d, AllShort value.integers) :
    ∃ text, textOr default d = .ok text := by
  unfold textOr
  split
  · exact ⟨_, rfl⟩
  · exact ⟨_, rfl⟩
  · exact exists_textOf (h _ rfl)

theorem lookup_of_direction?
    {entries : List (Datum × Datum)} {direction : Direction} {next : Datum}
    (h : direction? entries = some (direction, next)) :
    ∃ name, lookup (.text name) entries = some next := by
  obtain ⟨⟨name, _⟩, _, hname⟩ := List.exists_of_findSome?_eq_some h
  obtain ⟨_, hlookup, hpair⟩ := Option.map_eq_some_iff.mp hname
  cases hpair
  exact ⟨name, hlookup⟩

/-- A transition in which every integer is short is refused, if it is, for what it lacks. -/
theorem failsOnly_ofDatum
    {state symbol : String} {value : Datum} (h : AllShort value.integers) :
    FailsOnly (· ≠ .unshowable) (ofDatum state symbol value) := by
  obtain ⟨text, htext⟩ := exists_textOf h
  unfold ofDatum
  split
  · exact failsOnly_ok _
  · split
    · rw [htext]
      exact failsOnly_error nofun
    · next entries hentries =>
        obtain ⟨write, hwrite⟩ := exists_textOr symbol fun _ => allShort_of_lookup h hentries
        rw [hwrite]
        refine .bind (failsOnly_ok _) fun write _ => ?_
        split
        · rw [htext]
          exact failsOnly_error nofun
        · next direction next hdirection =>
            obtain ⟨name, hname⟩ := lookup_of_direction? hdirection
            have hnext : ∀ d ∈ some next, AllShort d.integers := by
              rintro _ ⟨⟩
              exact allShort_of_lookup h hentries hname
            obtain ⟨name, hname⟩ := exists_textOr state hnext
            rw [hname]
            exact failsOnly_ok _

end Transition

/-! ## Entries -/

theorem reported_textOf
    {d : Datum} (h : AllShort d.integers) :
    FailsOnly IsReported (textOf d) := by
  obtain ⟨text, htext⟩ := exists_toText h
  rw [textOf_eq_ok_iff.mpr htext]
  exact failsOnly_ok text

theorem reported_token
    (kind : TokenKind) (text : String) :
    FailsOnly IsReported (token kind text) :=
  failsOnly_mapError fun _ => trivial

theorem reported_toSymbol
    (blank text : String) :
    FailsOnly IsReported (toSymbol blank text) := by
  unfold toSymbol
  split
  · exact failsOnly_ok none
  · exact (reported_token .symbol text).map

theorem reported_rule
    {blank state read : String} {value : Datum} (h : AllShort value.integers) :
    FailsOnly IsReported (rule blank state value read) := by
  have hofDatum : FailsOnly IsReported
      ((Transition.ofDatum state read value).mapError .transition) := by
    refine (Transition.failsOnly_ofDatum h).mapError fun fault hfault => ?_
    cases fault with
    | unshowable => exact hfault rfl
    | _ => trivial
  refine hofDatum.bind fun t _ => (reported_token .state t.next).bind fun next _ => ?_
  refine (reported_toSymbol blank read).bind fun current _ => ?_
  exact (reported_toSymbol blank t.write).bind fun written _ => failsOnly_ok _

theorem exists_symbolsOf
    {key : Datum} (h : AllShort key.integers) :
    ∃ symbols, symbolsOf key = .ok symbols := by
  unfold symbolsOf
  split
  · next label items =>
      rw [← failsOnly_false_iff]
      exact .mapM fun item hitem =>
        failsOnly_false_iff.mpr (exists_toText (allShort_of_mem_items h hitem))
  · obtain ⟨text, htext⟩ := exists_toText h
    rw [htext]
    exact ⟨_, rfl⟩

theorem reported_entryRules
    {blank state : String} {key value : Datum} (hkey : AllShort key.integers)
    (hvalue : AllShort value.integers) :
    FailsOnly IsReported (entryRules blank state key value) := by
  obtain ⟨symbols, hsymbols⟩ := exists_symbolsOf hkey
  rw [entryRules, hsymbols]
  exact .mapM fun read _ => reported_rule hvalue

theorem reported_declaration
    {blank : String} {key value : Datum} (hkey : AllShort key.integers)
    (hvalue : AllShort value.integers) :
    FailsOnly IsReported (declaration blank key value) := by
  refine (reported_textOf hkey).bind fun text _ => ?_
  refine (reported_token .state text).bind fun name _ => ?_
  split
  · exact failsOnly_ok _
  · split
    · exact failsOnly_error trivial
    · next entries hentries =>
        refine .bind (.mapM fun entry hentry => ?_) fun rules _ => failsOnly_ok _
        obtain ⟨hsymbol, htransition⟩ := allShort_of_mem_entries? hvalue hentries hentry
        exact reported_entryRules hsymbol htransition

/-! ## Documents -/

theorem reported_filler
    (blank input : String) {size : Nat} (h : size ≤ maxCells) :
    FailsOnly IsReported (filler blank size input) := by
  refine .bind (.mapM fun c _ => reported_toSymbol blank (String.singleton c)) fun symbols _ => ?_
  dsimp only
  split
  · exact failsOnly_error trivial
  · rw [if_neg (Nat.not_lt.mpr (Nat.le_trans (Nat.sub_le _ _) h))]
    exact failsOnly_ok _

theorem allShort_getD
    {d : Option Datum} {d' : Datum} (h : ∀ value ∈ d, AllShort value.integers)
    (hdefault : AllShort d'.integers) :
    AllShort (d.getD d').integers := by
  cases d with
  | none => exact hdefault
  | some value => exact h value rfl

/-- The integers of the fields and of the table of a document are among those of the document. -/
theorem allShort_of_document
    {document : Datum} (h : AllShort document.integers) {fields : List (Datum × Datum)}
    (hfields : document.entries? = some fields) :
    (∀ name, ∀ value ∈ field name fields, AllShort value.integers) ∧
      ∀ table, tableEntries? fields = some table →
        ∀ entry ∈ table, AllShort entry.1.integers ∧ AllShort entry.2.integers := by
  have hfield (name : String) : ∀ value ∈ field name fields, AllShort value.integers :=
    fun _ hvalue => allShort_of_lookup h hfields hvalue
  refine ⟨hfield, fun table htable entry hentry => ?_⟩
  obtain ⟨value, hvalue, hentries⟩ := Option.bind_eq_some_iff.mp (tableEntries?_eq_some htable)
  exact allShort_of_mem_entries? (hfield "table" value hvalue) hentries hentry

theorem allShort_startField
    {fields : List (Datum × Datum)}
    (h : ∀ name, ∀ value ∈ field name fields, AllShort value.integers) :
    AllShort (startField fields).integers := by
  refine allShort_getD (fun value hvalue => ?_) allShort_nil
  cases hblank : field "start state" fields with
  | none =>
      rw [hblank] at hvalue
      exact h "start_state" value hvalue
  | some first =>
      rw [hblank] at hvalue
      cases hvalue
      exact h "start state" value hblank

theorem allShort_firstKey
    {table : List (Datum × Datum)}
    (h : ∀ entry ∈ table, AllShort entry.1.integers ∧ AllShort entry.2.integers) :
    AllShort ((table.head?.map (·.1)).getD Datum.null).integers := by
  refine allShort_getD (fun key hkey => ?_) allShort_nil
  obtain ⟨entry, hentry, rfl⟩ := Option.map_eq_some_iff.mp hkey
  exact (h entry (List.mem_of_head? hentry)).1

theorem reported_ofDatum
    {size : Nat} {document : Datum} (hsize : size ≤ maxCells)
    (hdocument : AllShort document.integers) :
    FailsOnly IsReported (ofDatum size document) := by
  unfold ofDatum
  split
  case h_2 => exact failsOnly_error trivial
  next fields hfields =>
  obtain ⟨hfield, htable⟩ := allShort_of_document hdocument hfields
  split
  case h_2 => exact failsOnly_error trivial
  next table hentries =>
  replace htable := htable table hentries
  have hblank : AllShort ((field "blank" fields).getD (.text " ")).integers :=
    allShort_getD (hfield "blank") allShort_nil
  have hinput : AllShort ((field "input" fields).getD Datum.null).integers :=
    allShort_getD (hfield "input") allShort_nil
  have hstart : AllShort (if (startField fields).isNull
      then (table.head?.map (·.1)).getD Datum.null else startField fields).integers := by
    split
    · exact allShort_firstKey htable
    · exact allShort_startField hfield
  refine (reported_textOf hblank).bind fun blank _ => ?_
  refine .bind (.mapM fun entry hentry => ?_) fun declarations _ => ?_
  · exact reported_declaration (htable entry hentry).1 (htable entry hentry).2
  refine (reported_textOf hstart).bind fun start _ => ?_
  refine (reported_token .state start).bind fun initial _ => ?_
  dsimp only
  split
  · exact failsOnly_ok _
  · have hpattern := (reported_textOf hinput).bind fun input _ => reported_filler blank input hsize
    exact hpattern.map.bind fun pattern _ => failsOnly_ok _

/-! ## Texts -/

/-- A text and a tape size that are not too large: the integers can be written and the cells can be
counted. -/
structure Moderate (loader : Yaml.Loader) (size : Datum) (text : List Char) : Prop where
  size_allShort : AllShort size.integers
  le_maxCells : ∀ n, tapeSize size = .ok n → n ≤ maxCells
  document_allShort : ∀ d, loader (quoteGroups text) = .ok d → AllShort d.integers

/-- A text whose scalars have values for the loader: if it is no document, then its structure is
wrong. -/
def HasValues (loader : Yaml.Loader) (text : List Char) : Prop :=
  FailsOnly (· = .malformed) (loader (quoteGroups text))

instance (loader : Yaml.Loader) (text : List Char) : Decidable (HasValues loader text) :=
  inferInstanceAs (Decidable (FailsOnly (· = .malformed) (loader (quoteGroups text))))

variable {loader : Yaml.Loader} {size : Datum} {text : List Char}

theorem parse_of_not_hasValues
    {n : Nat} (hsize : tapeSize size = .ok n) (h : ¬ HasValues loader text) :
    ∃ fault, parse loader size text = .error (.document (.value fault)) := by
  rw [parse, hsize]
  dsimp only
  cases hload : loader (quoteGroups text) with
  | ok document => exact absurd (by rw [HasValues, hload]; exact failsOnly_ok document) h
  | error fault =>
      cases fault with
      | malformed => exact absurd (by rw [HasValues, hload]; exact failsOnly_error rfl) h
      | value fault => exact ⟨fault, rfl⟩

theorem reported_tapeSize
    {fault : TapeSizeFault} (hsize : AllShort size.integers) (h : tapeSize size = .error fault) :
    (TableFault.tapeSize fault).IsReported := by
  have hfault : TapeSizeFault.ofSize size = fault := by
    unfold tapeSize at h
    split at h
    · split at h
      · cases h
      · exact Except.error.inj h
    · exact Except.error.inj h
  obtain ⟨shown, hshown⟩ := exists_toText hsize
  rw [← hfault, TapeSizeFault.ofSize, hshown]
  trivial

/-- A text of moderate size is refused with faults that are reported, exactly when its scalars have
values or the tape size is refused already. -/
theorem reported_parse_iff
    (h : Moderate loader size text) :
    FailsOnly IsReported (parse loader size text) ↔
      ((∃ n, tapeSize size = .ok n) → HasValues loader text) := by
  constructor
  · rintro hreported ⟨n, hn⟩
    by_contra hvalues
    obtain ⟨fault, hfault⟩ := parse_of_not_hasValues hn hvalues
    exact hreported _ hfault
  · intro hvalues
    unfold parse
    split
    · next fault hfault => exact failsOnly_error (reported_tapeSize h.size_allShort hfault)
    · next n hn =>
        split
        · next fault hfault =>
            obtain rfl : fault = .malformed := hvalues ⟨n, hn⟩ fault hfault
            exact failsOnly_error trivial
        · next document hload =>
            exact reported_ofDatum (h.le_maxCells n hn) (h.document_allShort document hload)

end Table

end RingTape
