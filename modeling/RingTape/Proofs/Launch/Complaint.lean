import RingTape.Proofs.Launch.Faults
import RingTape.Proofs.Launch.Modes
import RingTape.Proofs.Machine.Unlimited

/-!
# What a launch complains of

A launch can meet a fault while it loads its machine, while it runs it, and while it saves the
history of the run.  It complains of the faults of a file, of its encoding, of the configuration and
of the program, as long as it is loading.  A run meets no such fault, but an array file that cannot
be written ends the launch without a word.
-/

namespace RingTape

open CommandLine

/-! ## Kinds of faults -/

/-- What a fault is about. -/
inductive FaultKind where
  /-- A file cannot be read or written. -/
  | access
  /-- The bytes of a file are no text. -/
  | encoding
  | configuration
  /-- The text is no program and no table. -/
  | program
  | other
  deriving DecidableEq, Repr

/-- A launch is to complain of a fault of this kind. -/
def FaultKind.IsReportable (kind : FaultKind) : Prop :=
  kind ≠ .other

/-- What the refusal of a tape size is about.  A size that cannot be shown is no fault of the
configuration. -/
def TapeSizeFault.kind : TapeSizeFault → FaultKind
  | .illegal _ => .configuration
  | .unshowable _ => .other

/-- What a fault of a table is about.  A scalar without a value, an integer that cannot be shown and
a tape that cannot be counted are faults of another kind. -/
def TableFault.kind : TableFault → FaultKind
  | .tapeSize fault => fault.kind
  | .document .malformed | .noTable | .token _ | .noMapping _ | .transition (.noDirection _)
  | .transition (.unreadable _) | .inputTooLong .. => .program
  | .document (.value _) | .transition .unshowable | .unshowable | .tooManyCells => .other

/-- What a fault of loading is about. -/
def LoadFault.kind : LoadFault → FaultKind
  | .file _ => .access
  | .encoding _ => .encoding
  | .program (.tapeSize fault) | .machine (.tapeSize fault) => fault.kind
  | .program (.line ..) | .program .noInitialState => .program
  | .table fault => fault.kind
  | .machine .tooManyCells => .other

/-- What a fault of a launch is about. -/
def Escape.kind : Escape → FaultKind
  | .load fault => fault.kind
  | .save _ => .access
  | .step _ | .endOfInput | .history _ => .other

theorem LoadFault.isReported_iff
    (fault : LoadFault) :
    fault.isReported = true ↔ fault.kind.IsReportable := by
  unfold FaultKind.IsReportable
  cases fault with
  | file fault | encoding fault => simp [isReported, kind]
  | program fault => cases fault with
    | tapeSize fault => cases fault <;> simp [isReported, kind, TapeSizeFault.kind]
    | _ => simp [isReported, kind]
  | machine fault => cases fault with
    | tapeSize fault => cases fault <;> simp [isReported, kind, TapeSizeFault.kind]
    | tooManyCells => simp [isReported, kind]
  | table fault => cases fault with
    | tapeSize fault =>
        cases fault <;> simp [isReported, kind, TableFault.kind, TapeSizeFault.kind]
    | document fault => cases fault <;> simp [isReported, kind, TableFault.kind]
    | transition fault => cases fault <;> simp [isReported, kind, TableFault.kind]
    | _ => simp [isReported, kind, TableFault.kind]

/-! ## Runs -/

namespace Machine

/-- A playback of a sound machine ends well, or for want of a line that it awaits. -/
theorem Sound.ending_playSteps
    {m : Machine} (h : m.Sound) (wait : Wait) (limit input : Nat) :
    (m.playSteps wait limit input).ending = .finished ∨
      wait = .enter ∧ (m.playSteps wait limit input).ending = .endOfInput := by
  induction limit generalizing m input with
  | zero => exact .inl rfl
  | succ limit ih =>
      cases hfires : m.fires with
      | false =>
          simp only [playSteps, h.step_eq, hfires]
          exact .inl trivial
      | true =>
          simp only [playSteps, h.step_eq, hfires]
          cases wait with
          | none => exact ih h.next input
          | sleep milliseconds => exact ih h.next input
          | enter =>
              cases input with
              | zero => exact .inr ⟨rfl, rfl⟩
              | succ input => exact ih h.next input

end Machine

namespace Launch

/-- The run that a launch makes comes to an end.  A playback that awaits lines ends with its input
at the latest. -/
def RunEnds (invocation : Invocation) (m : Machine) : Prop :=
  m.Ends (.ofInt invocation.steps) ∨ invocation.finalOnly = false ∧ invocation.pause < 0

section

variable {invocation : Invocation} {s : Surroundings} {m : Machine} {fault : Escape}

/-- A run fails only for want of a line that it awaits. -/
theorem fault_perform
    (hsound : m.Sound) (input : List Char)
    (hfault : (perform invocation input m).fault = some fault) :
    fault = .endOfInput ∧ invocation.finalOnly = false ∧ invocation.pause < 0 := by
  rw [perform] at hfault
  split at hfault
  · rw [performFinal, hsound.fault_run] at hfault
    cases hfault
  · next hshown =>
      rw [performPlayback, Machine.play] at hfault
      rcases hsound.ending_playSteps (.ofPause invocation.pause) _ _ with hfinished | ⟨hwait, hend⟩
      · rw [hfinished] at hfault
        cases hfault
      · rw [hend] at hfault
        cases hfault
        refine ⟨rfl, Bool.eq_false_iff.mpr hshown, ?_⟩
        by_contra hpause
        rw [Wait.ofPause, if_neg hpause] at hwait
        cases hwait

/-- A launch meets a fault: while it loads its machine, while it runs it, or while it saves the
history of the run. -/
inductive Meets (invocation : Invocation) (s : Surroundings) : Escape → Prop
  | loading {fault : LoadFault} :
    Machine.load s.loader s.files invocation.program invocation.tapeSize = .error fault →
    Meets invocation s (.load fault)
  | running {m : Machine} {fault : Escape} :
    Machine.load s.loader s.files invocation.program invocation.tapeSize = .ok m →
    RunEnds invocation m → (perform invocation s.input m).fault = some fault →
    Meets invocation s fault
  | saving {m : Machine} {fault : Escape} :
    Machine.load s.loader s.files invocation.program invocation.tapeSize = .ok m →
    RunEnds invocation m → (perform invocation s.input m).fault = none →
    save s.files invocation.saveTo (perform invocation s.input m).history = .error fault →
    Meets invocation s fault

/-- Saving fails because the history is no array, or because the array file cannot be written. -/
theorem save_eq_error_iff
    {name : String} (hname : name.isEmpty = false) {history : History} :
    save s.files (some name) history = .error fault ↔
      (∃ cause, arrayBytes history = .error cause ∧ .history cause = fault) ∨
        ∃ bytes, arrayBytes history = .ok bytes ∧ ∃ cause,
          s.files.write (ArrayFile.path name) bytes = .error cause ∧ .save cause = fault := by
  rw [save_eq_bind hname, bind_eq_error_iff]
  simp only [mapError_eq_ok_iff, mapError_eq_error_iff]

theorem exists_name_of_save_eq_error
    {path : Option String} {history : History} (h : save s.files path history = .error fault) :
    ∃ name, path = some name ∧ name.isEmpty = false := by
  cases path with
  | none => cases h
  | some name =>
      refine ⟨name, rfl, ?_⟩
      by_contra hempty
      rw [save, if_pos (eq_true_of_ne_false hempty)] at h
      cases h

/-- The run of a launch has ended well, and its history is to be saved in a file that cannot be
written. -/
def CannotSave (invocation : Invocation) (s : Surroundings) (cause : FileFault) : Prop :=
  ∃ m name bytes, Machine.load s.loader s.files invocation.program invocation.tapeSize = .ok m ∧
    RunEnds invocation m ∧ (perform invocation s.input m).fault = none ∧
    invocation.saveTo = some name ∧ name.isEmpty = false ∧
    arrayBytes (perform invocation s.input m).history = .ok bytes ∧
    s.files.write (ArrayFile.path name) bytes = .error cause

/-- A launch meets a fault that it is to complain of while it loads its machine or because it cannot
save. -/
theorem meets_reportable_iff :
    Meets invocation s fault ∧ fault.kind.IsReportable ↔
      (∃ cause, fault = .load cause ∧ cause.kind.IsReportable ∧
        Machine.load s.loader s.files invocation.program invocation.tapeSize = .error cause) ∨
      ∃ cause, fault = .save cause ∧ CannotSave invocation s cause := by
  constructor
  · rintro ⟨hmeets, hkind⟩
    cases hmeets with
    | @loading cause hload => exact .inl ⟨cause, rfl, hkind, hload⟩
    | running hload _ hfault =>
        obtain ⟨hreachable, hdirected⟩ := Machine.reachable_of_load hload
        obtain ⟨rfl, -⟩ := fault_perform (hreachable.sound hdirected) s.input hfault
        exact absurd rfl hkind
    | saving hload hends hfault hsave =>
        obtain ⟨name, hname, hempty⟩ := exists_name_of_save_eq_error hsave
        rw [hname, save_eq_error_iff hempty] at hsave
        rcases hsave with ⟨cause, -, rfl⟩ | ⟨bytes, hbytes, cause, hwrite, rfl⟩
        · exact absurd rfl hkind
        · exact .inr ⟨cause, rfl, _, name, bytes, hload, hends, hfault, hname, hempty, hbytes,
            hwrite⟩
  · rintro (⟨cause, rfl, hkind, hload⟩ | ⟨cause, rfl, m, name, bytes, hload, hends, hfault, hname,
      hempty, hbytes, hwrite⟩)
    · exact ⟨.loading hload, hkind⟩
    · have hsave : save s.files invocation.saveTo (perform invocation s.input m).history =
          .error (.save cause) := by
        rw [hname, save_eq_error_iff hempty]
        exact .inr ⟨bytes, hbytes, cause, hwrite, rfl⟩
      exact ⟨.saving hload hends hfault hsave, nofun⟩

theorem start_of_running
    (hload : Machine.load s.loader s.files invocation.program invocation.tapeSize = .ok m)
    (hfault : (perform invocation s.input m).fault = some fault) :
    start invocation s = ⟨.escaped fault, (perform invocation s.input m).output, "", s.files⟩ := by
  rw [start, hload]
  dsimp only
  rw [conclude, hfault]

theorem start_of_saving
    (hload : Machine.load s.loader s.files invocation.program invocation.tapeSize = .ok m)
    (hfault : (perform invocation s.input m).fault = none)
    (hsave : save s.files invocation.saveTo (perform invocation s.input m).history =
      .error fault) :
    start invocation s = ⟨.escaped fault, (perform invocation s.input m).output, "", s.files⟩ := by
  rw [start, hload]
  dsimp only
  rw [conclude, hfault]
  dsimp only
  rw [hsave]

/-- A launch complains of a fault, or the fault ends it without a word. -/
theorem start_of_meets
    (h : Meets invocation s fault) :
    (∃ cause, fault = .load cause ∧ fault.kind.IsReportable ∧
        start invocation s = ⟨.status 2, "", "error: " ++ cause.message ++ "\n", s.files⟩) ∨
      (start invocation s).ending = .escaped fault ∧ (start invocation s).complaint = "" := by
  cases h with
  | @loading cause hload =>
      by_cases hreported : cause.isReported = true
      · refine .inl ⟨cause, rfl, cause.isReported_iff.mp hreported, ?_⟩
        rw [start_of_load hload, if_pos hreported]
      · right
        rw [start_of_load hload, if_neg hreported]
        exact ⟨rfl, rfl⟩
  | running hload _ hfault =>
      right
      rw [start_of_running hload hfault]
      exact ⟨rfl, rfl⟩
  | saving hload _ hfault hsave =>
      right
      rw [start_of_saving hload hfault hsave]
      exact ⟨rfl, rfl⟩

/-- A launch that ends without a word has met the fault that ends it. -/
theorem meets_of_escaped
    (hends : ∀ m, Machine.load s.loader s.files invocation.program invocation.tapeSize = .ok m →
      RunEnds invocation m)
    (h : (start invocation s).ending = .escaped fault) :
    Meets invocation s fault := by
  cases hload : Machine.load s.loader s.files invocation.program invocation.tapeSize with
  | error cause =>
      rw [start_of_load hload] at h
      split at h
      · cases h
      · cases h
        exact .loading hload
  | ok m =>
      cases hfault : (perform invocation s.input m).fault with
      | some cause =>
          rw [start_of_running hload hfault] at h
          cases h
          exact .running hload (hends m hload) hfault
      | none =>
          cases hsave : save s.files invocation.saveTo (perform invocation s.input m).history with
          | error cause =>
              rw [start_of_saving hload hfault hsave] at h
              cases h
              exact .saving hload (hends m hload) hfault hsave
          | ok files =>
              rw [start, hload] at h
              dsimp only at h
              rw [conclude, hfault] at h
              dsimp only at h
              rw [hsave] at h
              cases h

/-- The environment and the command line of a launch are accepted and ask for this. -/
def Asks (s : Surroundings) (words : List String) (invocation : Invocation) : Prop :=
  ∃ defaults, s.environment.defaults = .ok defaults ∧
    CommandLine.parse defaults words = .ok (.run invocation)

theorem Asks.run_eq
    {words : List String} (h : Asks s words invocation) :
    run words s = start invocation s := by
  obtain ⟨defaults, hdefaults, hwords⟩ := h
  rw [run, hdefaults]
  dsimp only
  rw [hwords]

/-- A launch complains of each fault that it is to complain of, and no such fault ends it without a
word. -/
structure Complains (invocation : Invocation) (s : Surroundings) (o : Outcome) : Prop where
  reported : ∀ fault, Meets invocation s fault → fault.kind.IsReportable →
    o.ending = .status 2 ∧ o.complaint = "error: " ++ fault.message ++ "\n"
  contained : ∀ fault, o.ending = .escaped fault → ¬ fault.kind.IsReportable

theorem start_of_reportable_load
    {cause : LoadFault} (hkind : cause.kind.IsReportable)
    (hload : Machine.load s.loader s.files invocation.program invocation.tapeSize = .error cause) :
    start invocation s = ⟨.status 2, "", "error: " ++ cause.message ++ "\n", s.files⟩ := by
  rw [start_of_load hload, if_pos (cause.isReported_iff.mpr hkind)]

theorem escaped_of_cannotSave
    {cause : FileFault} (h : CannotSave invocation s cause) :
    (start invocation s).ending = .escaped (.save cause) ∧ (start invocation s).complaint = "" := by
  have hmeets := (meets_reportable_iff.mpr (.inr ⟨cause, rfl, h⟩)).1
  rcases start_of_meets hmeets with ⟨_, hload, -⟩ | hescaped
  · cases hload
  · exact hescaped

theorem complains_start_iff
    (hends : ∀ m, Machine.load s.loader s.files invocation.program invocation.tapeSize = .ok m →
      RunEnds invocation m) :
    Complains invocation s (start invocation s) ↔ ∀ cause, ¬ CannotSave invocation s cause := by
  constructor
  · intro hcomplains cause hcannot
    exact hcomplains.contained _ (escaped_of_cannotSave hcannot).1 nofun
  · intro hsaves
    constructor
    case reported =>
      intro fault hmeets hkind
      rcases meets_reportable_iff.mp ⟨hmeets, hkind⟩ with
        ⟨cause, rfl, hcause, hload⟩ | ⟨cause, -, hcannot⟩
      · rw [start_of_reportable_load hcause hload]
        exact ⟨rfl, rfl⟩
      · exact absurd hcannot (hsaves cause)
    case contained =>
      intro fault hescaped hkind
      rcases meets_reportable_iff.mp ⟨meets_of_escaped hends hescaped, hkind⟩ with
        ⟨cause, rfl, hcause, hload⟩ | ⟨cause, -, hcannot⟩
      · rw [start_of_reportable_load hcause hload] at hescaped
        cases hescaped
      · exact hsaves cause hcannot

end

/-! ## Saving -/

/-- A launch with an accepted command line complains of all that it is to complain of while it loads
its machine.  It complains of all there is unless its array file cannot be written; then it ends
without a word. -/
theorem complains_iff
    {s : Surroundings} {words : List String} {invocation : Invocation}
    (hasks : Asks s words invocation)
    (hends : ∀ m, Machine.load s.loader s.files invocation.program invocation.tapeSize = .ok m →
      RunEnds invocation m) :
    (∀ cause, Machine.load s.loader s.files invocation.program invocation.tapeSize = .error cause →
        cause.kind.IsReportable →
        run words s = ⟨.status 2, "", "error: " ++ cause.message ++ "\n", s.files⟩) ∧
      (Complains invocation s (run words s) ↔ ∀ cause, ¬ CannotSave invocation s cause) ∧
      ∀ cause, CannotSave invocation s cause →
        (run words s).ending = .escaped (.save cause) ∧ (run words s).complaint = "" := by
  rw [hasks.run_eq]
  refine ⟨fun cause hload hkind => ?_, complains_start_iff hends, fun cause hcannot => ?_⟩
  · exact start_of_reportable_load hkind hload
  · exact escaped_of_cannotSave hcannot

theorem runEnds_of_load_oneRule
    {m : Machine}
    (h : Machine.load oneRuleSurroundings.loader oneRuleSurroundings.files
      oneRuleInvocation.program oneRuleInvocation.tapeSize = .ok m) :
    RunEnds oneRuleInvocation m := by
  rw [bothWays_oneRule.loaded] at h
  cases h
  exact .inl ends_oneRule

/-- A launch that can save its history, and one whose program is not there. -/
theorem complains_iff_of_missing_program :
    ∃ s words invocation otherWords other,
      Asks s words invocation ∧
      (∀ m, Machine.load s.loader s.files invocation.program invocation.tapeSize = .ok m →
        RunEnds invocation m) ∧
      Complains invocation s (run words s) ∧
      Asks s otherWords other ∧
      (∀ m, Machine.load s.loader s.files other.program other.tapeSize = .ok m → RunEnds other m) ∧
      run otherWords s =
        ⟨.status 2, "", "error: [Errno 2] No such file or directory: 'q.tm'\n", s.files⟩ := by
  have hasks : Asks oneRuleSurroundings ["p.tm", "3", "-1", "0", "--save-npy", "h.npy"]
      oneRuleInvocation := ⟨⟨32, -1, 0, "_"⟩, rfl, rfl⟩
  have hends := fun m => runEnds_of_load_oneRule (m := m)
  have hsaves : ∀ cause, ¬ CannotSave oneRuleInvocation oneRuleSurroundings cause := by
    rintro cause ⟨m, name, bytes, -, -, -, hname, -, -, hwrite⟩
    obtain ⟨files, hfiles⟩ := bothWays_oneRule.writable bytes
    cases hname
    rw [hfiles] at hwrite
    cases hwrite
  have hother : Asks oneRuleSurroundings ["q.tm"] ⟨"q.tm", 32, -1, 0, "_", false, none⟩ :=
    ⟨⟨32, -1, 0, "_"⟩, rfl, rfl⟩
  have hmissing : Machine.load oneRuleSurroundings.loader oneRuleSurroundings.files "q.tm" 32 =
      .error (.file (.missing "q.tm")) := rfl
  have hnone : ∀ m,
      Machine.load oneRuleSurroundings.loader oneRuleSurroundings.files "q.tm" 32 = .ok m →
        RunEnds ⟨"q.tm", 32, -1, 0, "_", false, none⟩ m := by
    intro m hm
    rw [hmissing] at hm
    cases hm
  obtain ⟨-, hcomplains, -⟩ := complains_iff hasks hends
  refine ⟨_, _, _, _, _, hasks, hends, hcomplains.mpr hsaves, hother, hnone, ?_⟩
  exact (complains_iff hother hnone).1 _ hmissing nofun

/-- A history that is to be saved below a directory that is not there. -/
theorem exists_not_complains :
    ∃ s words invocation, Asks s words invocation ∧
      (∀ m, Machine.load s.loader s.files invocation.program invocation.tapeSize = .ok m →
        RunEnds invocation m) ∧
      (run words s).ending = .escaped (.save (.missing "no/h.npy")) ∧
      ¬ Complains invocation s (run words s) := by
  have hends : (run ["p.tm", "3", "0", "0", "--save-npy", "no/h.npy"] oneRuleSurroundings).ending =
      .escaped (.save (.missing "no/h.npy")) := rfl
  refine ⟨oneRuleSurroundings, ["p.tm", "3", "0", "0", "--save-npy", "no/h.npy"],
    ⟨"p.tm", 3, 0, 0, "_", false, some "no/h.npy"⟩, ⟨⟨32, -1, 0, "_"⟩, rfl, rfl⟩, ?_, hends, ?_⟩
  · exact fun m _ => .inl trivial
  · exact fun hcomplains => hcomplains.contained _ hends nofun

end Launch

end RingTape
