import RingTape.Launch.Outcome
import RingTape.Proofs.Machine.Step
import RingTape.Proofs.Table.Faults
import RingTape.Yaml.Value

/-!
# Launches with a faulty table

A launch complains of a fault that is reported, and any other fault ends it without a word.  In a
table of moderate size all faults are reported but one kind: that of a scalar without a value comes
out of the document as it is, and neither the import nor the launch takes it up.
-/

namespace RingTape

open Text

theorem exists_tapeSize_iff
    {size : Int} :
    (∃ n, tapeSize (.int size) = .ok n) ↔ 0 < size := by
  rw [tapeSize]
  split_ifs with hpos
  · exact ⟨fun _ => hpos, fun _ => ⟨_, rfl⟩⟩
  · refine ⟨?_, fun h => absurd h hpos⟩
    rintro ⟨n, hn⟩
    cases hn

namespace Table

theorem isReported_table
    {fault : TableFault} (h : fault.IsReported) :
    (LoadFault.table fault).isReported = true := by
  cases fault with
  | tapeSize fault => cases fault with
    | illegal shown => rfl
    | unshowable cause => exact h.elim
  | document fault => cases fault with
    | malformed => rfl
    | value fault => exact h.elim
  | transition fault => cases fault with
    | unshowable => exact h.elim
    | _ => rfl
  | unshowable | tooManyCells => exact h.elim
  | noTable | token fault | noMapping state | inputTooLong length size => rfl

/-- A ruleset from a text of moderate size has a machine. -/
theorem exists_ofRuleset
    {loader : Yaml.Loader} {size : Datum} {text : List Char} (h : Moderate loader size text)
    {r : Ruleset} (hr : parse loader size text = .ok r) :
    ∃ m, Machine.ofRuleset r = .ok m := by
  unfold parse at hr
  split at hr
  · cases hr
  · next n hn =>
      split at hr
      · cases hr
      · have hpos := Machine.size_pos_of_tapeSize hn
        rw [Machine.ofRuleset, (imported_of_ofDatum hr).tapeSize]
        exact ⟨_, Machine.create_eq_start r hpos (h.le_maxCells n hn)⟩

end Table

namespace Launch

open CommandLine

/-- A launch goes on with the machine of its file, or it complains of the file and ends with status
two. -/
def Answers (invocation : Invocation) (s : Surroundings) : Prop :=
  (∃ m, Machine.load s.loader s.files invocation.program invocation.tapeSize = .ok m ∧
      start invocation s = conclude invocation s m) ∨
    ∃ fault, Machine.load s.loader s.files invocation.program invocation.tapeSize = .error fault ∧
      start invocation s = ⟨.status 2, "", "error: " ++ fault.message ++ "\n", s.files⟩

/-- The file of a launch is there and holds a text. -/
def Gives (invocation : Invocation) (s : Surroundings) (text : List Char) : Prop :=
  ∃ bytes, s.files.read invocation.program = .ok bytes ∧ decodeFile bytes = .ok text

theorem start_of_load
    {invocation : Invocation} {s : Surroundings} {fault : LoadFault}
    (hload : Machine.load s.loader s.files invocation.program invocation.tapeSize = .error fault) :
    start invocation s =
      if fault.isReported then ⟨.status 2, "", "error: " ++ fault.message ++ "\n", s.files⟩
      else ⟨.escaped (.load fault), "", "", s.files⟩ := by
  rw [start, hload]
  rfl

/-- A launch answers when every fault of its file is reported. -/
theorem answers_iff
    {invocation : Invocation} {s : Surroundings} :
    Answers invocation s ↔
      FailsOnly (·.isReported = true)
        (Machine.load s.loader s.files invocation.program invocation.tapeSize) := by
  constructor
  · rintro (⟨m, hm, -⟩ | ⟨fault, hload, hstart⟩)
    · rw [hm]
      exact failsOnly_ok m
    · rw [hload]
      refine failsOnly_error ?_
      by_contra hsilent
      rw [start_of_load hload, if_neg hsilent] at hstart
      cases hstart
  · intro hreported
    cases hload : Machine.load s.loader s.files invocation.program invocation.tapeSize with
    | ok m =>
        refine .inl ⟨m, hload, ?_⟩
        rw [start, hload]
    | error fault =>
        refine .inr ⟨fault, hload, ?_⟩
        rw [start_of_load hload, if_pos (hreported fault hload)]

section TableFile

variable {invocation : Invocation} {s : Surroundings}

theorem load_of_gives
    (hpath : isTablePath invocation.program = true) {text : List Char}
    (hgives : Gives invocation s text) {fault : TableFault}
    (hfault : Table.parse s.loader (.int invocation.tapeSize) text = .error fault) :
    Machine.load s.loader s.files invocation.program invocation.tapeSize =
      .error (.table fault) := by
  obtain ⟨bytes, hread, hdecode⟩ := hgives
  rw [Machine.load, hread]
  change Machine.ofFile s.loader invocation.program invocation.tapeSize bytes = _
  rw [Machine.ofFile, if_pos hpath, Table.ofFile, hdecode]
  change (Table.parse s.loader (.int invocation.tapeSize) text).mapError LoadFault.table >>= _ = _
  rw [hfault]
  rfl

/-- A scalar without a value is a fault of loading. -/
theorem load_of_not_hasValues
    (hpath : isTablePath invocation.program = true) (hpos : 0 < invocation.tapeSize)
    {text : List Char} (hgives : Gives invocation s text)
    (hvalues : ¬ Table.HasValues s.loader text) :
    ∃ fault, Machine.load s.loader s.files invocation.program invocation.tapeSize =
      .error (.table (.document (.value fault))) := by
  obtain ⟨n, hsize⟩ := exists_tapeSize_iff.mpr hpos
  obtain ⟨fault, hfault⟩ := Table.parse_of_not_hasValues hsize hvalues
  exact ⟨fault, load_of_gives hpath hgives hfault⟩

theorem reported_load
    (hpath : isTablePath invocation.program = true)
    (hmoderate : ∀ text, Gives invocation s text →
      Table.Moderate s.loader (.int invocation.tapeSize) text)
    (hparse : ∀ text, Gives invocation s text →
      FailsOnly TableFault.IsReported (Table.parse s.loader (.int invocation.tapeSize) text)) :
    FailsOnly (·.isReported = true)
      (Machine.load s.loader s.files invocation.program invocation.tapeSize) := by
  have hread : FailsOnly (·.isReported = true)
      ((s.files.read invocation.program).mapError LoadFault.file) :=
    failsOnly_mapError fun _ => rfl
  refine hread.bind fun bytes hbytes => ?_
  rw [mapError_eq_ok_iff] at hbytes
  have hdecode : FailsOnly (·.isReported = true)
      ((decodeFile bytes).mapError LoadFault.encoding) :=
    failsOnly_mapError fun _ => rfl
  have htable : FailsOnly (·.isReported = true)
      (Table.ofFile s.loader (.int invocation.tapeSize) bytes) := by
    refine hdecode.bind fun text htext => ?_
    rw [mapError_eq_ok_iff] at htext
    exact (hparse text ⟨bytes, hbytes, htext⟩).mapError fun _ => Table.isReported_table
  rw [Machine.ofFile, if_pos hpath]
  refine htable.bind fun r hr => ?_
  obtain ⟨text, htext, hr⟩ := bind_eq_ok_iff.mp hr
  rw [mapError_eq_ok_iff] at htext hr
  obtain ⟨m, hm⟩ := Table.exists_ofRuleset (hmoderate text ⟨bytes, hbytes, htext⟩) hr
  dsimp only
  rw [hm]
  exact failsOnly_ok m

/-- A launch with a table answers unless a scalar of the table has no value. -/
theorem answers_iff_hasValues
    (hpath : isTablePath invocation.program = true)
    (hmoderate : ∀ text, Gives invocation s text →
      Table.Moderate s.loader (.int invocation.tapeSize) text) :
    Answers invocation s ↔
      (0 < invocation.tapeSize → ∀ text, Gives invocation s text →
        Table.HasValues s.loader text) := by
  rw [answers_iff]
  constructor
  · intro hreported hpos text hgives
    by_contra hvalues
    obtain ⟨fault, hload⟩ := load_of_not_hasValues hpath hpos hgives hvalues
    exact nomatch hreported _ hload
  · intro hvalues
    refine reported_load hpath hmoderate fun text hgives => ?_
    rw [Table.reported_parse_iff (hmoderate text hgives), exists_tapeSize_iff]
    exact fun hpos => hvalues hpos text hgives

end TableFile

/-! ## Two tables -/

/-- The launch with the table file `t.yaml`, on a tape of four cells. -/
def tableInvocation : Invocation :=
  ⟨"t.yaml", 4, -1, 0, "_", false, none⟩

/-- That file, with a text of ASCII characters. -/
def tableSurroundings (text : String) : Surroundings :=
  ⟨[], ⟨[(["t.yaml"], ArrayFile.asciiBytes text.toList)], []⟩, [], Yaml.load⟩

theorem gives_iff
    {text : String}
    (hdecode : (decodeFile (ArrayFile.asciiBytes text.toList)).toOption = some text.toList)
    {text' : List Char} :
    Gives tableInvocation (tableSurroundings text) text' ↔ text' = text.toList := by
  have hread : (tableSurroundings text).files.read tableInvocation.program =
      .ok (ArrayFile.asciiBytes text.toList) := rfl
  rw [toOption_eq_some_iff] at hdecode
  rw [Gives, hread]
  constructor
  · rintro ⟨bytes, hbytes, htext⟩
    cases hbytes
    exact Except.ok.inj (htext.symm.trans hdecode)
  · rintro rfl
    exact ⟨_, rfl, hdecode⟩

/-- A state that looks like a terminal declaration. -/
def markedState : String :=
  "table:\n  '#a':\n    0: R\n"

/-- An input that has the form of a date, in the thirteenth month. -/
def thirteenthMonth : String :=
  "table:\n  a:\n    0: R\ninput: 2020-13-01\n"

theorem moderate_markedState :
    Table.Moderate Yaml.load (.int 4) markedState.toList where
  size_allShort := by decide +kernel
  le_maxCells n hn := by
    cases hn
    decide
  document_allShort d hd := by
    have hintegers : (Yaml.load (Table.quoteGroups markedState.toList)).toOption.map
        Datum.integers = some [0] := by decide +kernel
    rw [toOption_eq_some_iff.mpr hd] at hintegers
    rw [Option.some.inj hintegers]
    decide +kernel

/-! ## The faults of a table -/

/-- Whatever loads the tables, a text of moderate size is imported, or refused with a fault that is
reported, exactly when its scalars have values, and a launch with a file of no other text answers
under the same condition.  A scalar without a value ends the launch. -/
theorem reported_iff_hasValues
    {loader : Yaml.Loader} {size : Datum} {text : List Char}
    (h : Table.Moderate loader size text) :
    (FailsOnly TableFault.IsReported (Table.parse loader size text) ↔
        ((∃ n, tapeSize size = .ok n) → Table.HasValues loader text)) ∧
      ∀ invocation s, s.loader = loader → isTablePath invocation.program = true →
        size = .int invocation.tapeSize → (∀ text', Gives invocation s text' → text' = text) →
        (Answers invocation s ↔
            (0 < invocation.tapeSize → Gives invocation s text → Table.HasValues loader text)) ∧
          (0 < invocation.tapeSize → Gives invocation s text → ¬ Table.HasValues loader text →
            ∃ fault, start invocation s =
              ⟨.escaped (.load (.table (.document (.value fault)))), "", "", s.files⟩) := by
  refine ⟨Table.reported_parse_iff h, ?_⟩
  rintro invocation s rfl hpath hsize hfile
  refine ⟨?_, ?_⟩
  · have hmoderate (text' : List Char) (hgives : Gives invocation s text') :
        Table.Moderate s.loader (.int invocation.tapeSize) text' := by
      rw [hfile text' hgives, ← hsize]
      exact h
    rw [answers_iff_hasValues hpath hmoderate]
    constructor
    · exact fun hvalues hpos hgives => hvalues hpos text hgives
    · intro hvalues hpos text' hgives
      obtain rfl := hfile text' hgives
      exact hvalues hpos hgives
  · intro hpos hgives hvalues
    obtain ⟨fault, hload⟩ := load_of_not_hasValues hpath hpos hgives hvalues
    refine ⟨fault, ?_⟩
    rw [start_of_load hload]
    exact if_neg nofun

/-- The table is refused for its state, and the launch complains of it. -/
theorem reported_iff_hasValues_of_marked_state :
    ∃ invocation s text, isTablePath invocation.program = true ∧
      Table.Moderate s.loader (.int invocation.tapeSize) text ∧ 0 < invocation.tapeSize ∧
      Gives invocation s text ∧ (∀ text', Gives invocation s text' → text' = text) ∧
      Table.HasValues s.loader text ∧
      FailsOnly TableFault.IsReported (Table.parse s.loader (.int invocation.tapeSize) text) ∧
      Answers invocation s ∧
      (start invocation s).complaint =
        "error: State '#a' may not start with one of ';#~@'\n" := by
  have hvalues : Table.HasValues Yaml.load markedState.toList := by decide +kernel
  have hgives {text : List Char} :
      Gives tableInvocation (tableSurroundings markedState) text ↔ text = markedState.toList :=
    gives_iff (by decide +kernel)
  obtain ⟨hparse, hlaunch⟩ := reported_iff_hasValues moderate_markedState
  obtain ⟨hanswers, -⟩ := hlaunch tableInvocation (tableSurroundings markedState) rfl
    rfl rfl fun _ => hgives.mp
  exact ⟨tableInvocation, tableSurroundings markedState, markedState.toList, rfl,
    moderate_markedState, by decide, hgives.mpr rfl, fun _ => hgives.mp, hvalues,
    hparse.mpr fun _ => hvalues, hanswers.mpr fun _ _ => hvalues, by decide +kernel⟩

/-- A date in the thirteenth month is a fault that is not reported, and a launch that meets it does
not answer. -/
theorem exists_not_reported :
    (∃ size text, ¬ FailsOnly TableFault.IsReported (Table.parse Yaml.load size text)) ∧
      ∃ invocation s, s.loader = Yaml.load ∧ isTablePath invocation.program = true ∧
        ¬ Answers invocation s := by
  have hvalues : ¬ Table.HasValues Yaml.load thirteenthMonth.toList := by decide +kernel
  constructor
  · have hsize : tapeSize (.int 4) = .ok 4 := rfl
    obtain ⟨fault, hfault⟩ := Table.parse_of_not_hasValues hsize hvalues
    exact ⟨.int 4, thirteenthMonth.toList, fun hreported => hreported _ hfault⟩
  · have hgives : Gives tableInvocation (tableSurroundings thirteenthMonth)
        thirteenthMonth.toList := (gives_iff (by decide +kernel)).mpr rfl
    obtain ⟨fault, hload⟩ := load_of_not_hasValues rfl (by decide) hgives hvalues
    refine ⟨tableInvocation, tableSurroundings thirteenthMonth, rfl, rfl, fun hanswers => ?_⟩
    exact nomatch answers_iff.mp hanswers _ hload

end Launch

end RingTape
