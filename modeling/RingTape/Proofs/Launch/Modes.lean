import RingTape.Proofs.History.ArrayFile
import RingTape.Proofs.Launch.Load
import RingTape.Proofs.Machine.Playback
import RingTape.Yaml.Value

/-!
# The two ways of a launch

A launch that shows the final tape only makes a run, and any other launch makes a playback.  Both
print the same last line, but where a run ends untold the playback saves one tape more.
-/

namespace RingTape

theorem FileTree.eq_of_write
    {t u : FileTree} {path : String} {bytes bytes' : List UInt8} (h : t.write path bytes = .ok u)
    (h' : t.write path bytes' = .ok u) :
    bytes = bytes' := by
  have hput : ∀ place, put place bytes t.files = put place bytes' t.files → bytes = bytes' := by
    intro place hput
    have hlookup := congrArg (List.lookup place) hput
    rw [lookup_put, lookup_put] at hlookup
    exact Option.some.inj hlookup
  unfold write at h h'
  cases htarget : t.target path with
  | error fault =>
      rw [htarget] at h
      cases h
  | ok target =>
      rw [htarget] at h h'
      cases target with
      | directory => cases h
      | vacant place slash =>
          cases slash with
          | true => cases h
          | false =>
              cases h
              exact hput place (congrArg files (Except.ok.inj h')).symm
      | file place =>
          cases h
          exact hput place (congrArg files (Except.ok.inj h')).symm

namespace Launch

/-- Two launches print the status line of one machine last. -/
def TellAlike (first second : Outcome) : Prop :=
  ∃ m shown shown', first.output = shown ++ statusLine m ∧ second.output = shown' ++ statusLine m

/-- Two launches end well, have saved the same bytes under a path, and tell alike. -/
structure Agree (files : FileTree) (path : String) (first second : Outcome) : Prop where
  ends : first.ending = .status 0 ∧ second.ending = .status 0
  saved : ∃ bytes, files.write (ArrayFile.path path) bytes = .ok first.files ∧
    files.write (ArrayFile.path path) bytes = .ok second.files
  told : TellAlike first second

section

variable {files : FileTree} {path : String} {s : Surroundings} {m : Machine}
  {invocation : CommandLine.Invocation}

theorem save_eq_bind
    (hpath : path.isEmpty = false) (history : History) :
    save files (some path) history =
      ((arrayBytes history).mapError .history >>= fun bytes =>
        (files.write (ArrayFile.path path) bytes).mapError .save) := by
  rw [save, hpath, arrayBytes, History.save]
  cases history.toMatrix none with
  | error fault => rfl
  | ok result =>
      obtain ⟨m, used⟩ := result
      cases hwrite : files.write (ArrayFile.path path) (ArrayFile.bytes m) with
      | error fault => simp [Functor.map, Except.map, Except.mapError, bind, Except.bind, hwrite]
      | ok saved => simp [Functor.map, Except.map, Except.mapError, bind, Except.bind, hwrite]

theorem save_eq_ok_iff
    (hpath : path.isEmpty = false) {history : History} {files' : FileTree} :
    save files (some path) history = .ok files' ↔
      ∃ bytes, arrayBytes history = .ok bytes ∧
        files.write (ArrayFile.path path) bytes = .ok files' := by
  rw [save_eq_bind hpath, bind_eq_ok_iff]
  simp only [mapError_eq_ok_iff]

theorem conclude_of_saved
    (hsave : invocation.saveTo = some path) (hpath : path.isEmpty = false)
    (hfault : (perform invocation s.input m).fault = none) {bytes : List UInt8}
    (hbytes : arrayBytes (perform invocation s.input m).history = .ok bytes)
    (hwrite : s.files.write (ArrayFile.path path) bytes = .ok files) :
    conclude invocation s m =
      ⟨.status 0, (perform invocation s.input m).output ++
        statusLine (perform invocation s.input m).machine, "", files⟩ := by
  have hsaved : save s.files invocation.saveTo (perform invocation s.input m).history =
      .ok files := by
    rw [hsave]
    exact (save_eq_ok_iff hpath).mpr ⟨bytes, hbytes, hwrite⟩
  rw [conclude, hfault]
  dsimp only
  rw [hsaved]

/-- A launch that ends well has saved its history and printed its status line. -/
theorem saved_of_conclude
    (hsave : invocation.saveTo = some path) (hpath : path.isEmpty = false)
    (hend : (conclude invocation s m).ending = .status 0) :
    ∃ bytes files, arrayBytes (perform invocation s.input m).history = .ok bytes ∧
      s.files.write (ArrayFile.path path) bytes = .ok files ∧
      conclude invocation s m =
        ⟨.status 0, (perform invocation s.input m).output ++
          statusLine (perform invocation s.input m).machine, "", files⟩ := by
  unfold conclude at hend ⊢
  dsimp only at hend ⊢
  cases hfault : (perform invocation s.input m).fault with
  | some fault =>
      rw [hfault] at hend
      cases hend
  | none =>
      cases hsaved : save s.files invocation.saveTo (perform invocation s.input m).history with
      | error fault =>
          rw [hfault, hsaved] at hend
          cases hend
      | ok files =>
          rw [hsave, save_eq_ok_iff hpath] at hsaved
          obtain ⟨bytes, hbytes, hwrite⟩ := hsaved
          exact ⟨bytes, files, hbytes, hwrite, rfl⟩

end

/-! ## What the two ways perform -/

section

variable {s : Surroundings} {m : Machine} {invocation : CommandLine.Invocation}

theorem perform_final_eq
    (hfinal : invocation.finalOnly = true) {count : Nat}
    (hrun : m.run (.ofInt invocation.steps) = ⟨m.after count, m.tapes count, none⟩) :
    perform invocation s.input m = ⟨m.after count, m.tapes count,
      (m.after count).tape.line invocation.blank ++ "\n", none⟩ := by
  rw [perform, if_pos hfinal, performFinal, hrun]

theorem perform_playback_eq
    (hshown : invocation.finalOnly = false) {p : Playback}
    (hplay : m.play (.ofInt invocation.steps) invocation.pause (inputLines s.input) = p)
    (hfinished : p.ending = .finished) :
    perform invocation s.input m =
      ⟨p.machine, p.history, p.text invocation.blank, none⟩ := by
  rw [perform, if_neg (Bool.eq_false_iff.mp hshown), performPlayback, hplay, hfinished]

/-- The playback and the run that the two ways perform, by the number of steps of the run. -/
theorem exists_perform_eq
    (s : Surroundings) (hreachable : m.Reachable) (hdirected : m.ruleset.Directed)
    (hshown : invocation.finalOnly = false) (hends : m.Ends (.ofInt invocation.steps))
    (hpause : 0 ≤ invocation.pause) :
    ∃ count p, m.run (.ofInt invocation.steps) = ⟨m.after count, m.tapes count, none⟩ ∧
      perform invocation s.input m = ⟨p.machine, p.history, p.text invocation.blank, none⟩ ∧
      perform { invocation with finalOnly := true } s.input m = ⟨m.after count, m.tapes count,
        (m.after count).tape.line invocation.blank ++ "\n", none⟩ ∧
      m.Accompanies (m.stepLimit (.ofInt invocation.steps)) count p ∧
      (m.EndsUntold (.ofInt invocation.steps) ↔
        m.HaltsUntold (m.stepLimit (.ofInt invocation.steps)) count) := by
  obtain ⟨count, -, hrun, hplay, huntold⟩ := (hreachable.sound hdirected).exists_accompanies_play
    hends hpause (inputLines s.input)
  exact ⟨count, _, hrun, perform_playback_eq hshown rfl hplay.finished,
    perform_final_eq rfl hrun, hplay, huntold⟩

/-- The status line of a machine does not tell whether it has a head position. -/
theorem statusLine_halt
    (h : m.halted = true) :
    statusLine m.halt = statusLine m := by
  rw [statusLine, statusLine, h]
  rfl

theorem statusLine_perform_eq
    (hreachable : m.Reachable) (hdirected : m.ruleset.Directed)
    (hshown : invocation.finalOnly = false) (hends : m.Ends (.ofInt invocation.steps))
    (hpause : 0 ≤ invocation.pause) :
    statusLine (perform invocation s.input m).machine =
      statusLine (perform { invocation with finalOnly := true } s.input m).machine := by
  obtain ⟨count, p, -, hshows, hfinal, hplay, -⟩ :=
    exists_perform_eq s hreachable hdirected hshown hends hpause
  rw [hshows, hfinal]
  dsimp only
  by_cases huntold : m.HaltsUntold (m.stepLimit (.ofInt invocation.steps)) count
  · rw [(hplay.untold huntold).1, statusLine_halt huntold.halted]
  · rw [(hplay.told huntold).1]

theorem fault_perform_eq
    (hreachable : m.Reachable) (hdirected : m.ruleset.Directed)
    (hshown : invocation.finalOnly = false) (hends : m.Ends (.ofInt invocation.steps))
    (hpause : 0 ≤ invocation.pause) :
    (perform invocation s.input m).fault = none ∧
      (perform { invocation with finalOnly := true } s.input m).fault = none := by
  obtain ⟨count, p, -, hshows, hfinal, -, -⟩ :=
    exists_perform_eq s hreachable hdirected hshown hends hpause
  rw [hshows, hfinal]
  exact ⟨rfl, rfl⟩

/-- The two ways agree on the bytes they save, unless the run ends untold or its history is no
array. -/
theorem exists_bytes_iff
    (hreachable : m.Reachable) (hdirected : m.ruleset.Directed)
    (hshown : invocation.finalOnly = false) (hends : m.Ends (.ofInt invocation.steps))
    (hpause : 0 ≤ invocation.pause) :
    (∃ bytes, arrayBytes (perform invocation s.input m).history = .ok bytes ∧
      arrayBytes (perform { invocation with finalOnly := true } s.input m).history = .ok bytes) ↔
      ¬ m.EndsUntold (.ofInt invocation.steps) ∧
        ∃ bytes, arrayBytes (m.run (.ofInt invocation.steps)).history = .ok bytes := by
  obtain ⟨count, p, hrun, hshows, hfinal, hplay, huntold⟩ :=
    exists_perform_eq s hreachable hdirected hshown hends hpause
  rw [hshows, hfinal, hrun]
  dsimp only
  constructor
  · rintro ⟨bytes, hbytes, hbytes'⟩
    refine ⟨fun hend => ?_, bytes, hbytes'⟩
    have hlength := length_eq_of_arrayBytes_eq hbytes hbytes'
    rw [(hplay.untold (huntold.mp hend)).2, Machine.length_tapes, Machine.length_tapes] at hlength
    omega
  · rintro ⟨hend, bytes, hbytes⟩
    rw [(hplay.told (mt huntold.mpr hend)).2]
    exact ⟨bytes, hbytes, hbytes⟩

end

/-! ## Where the two ways agree -/

/-- Two command lines that differ in the flag for the final tape only, on a file that loads, with no
pause and with a path under which a history can be saved. -/
structure BothWays (s : Surroundings) (words finalWords : List String)
    (invocation : CommandLine.Invocation) (m : Machine) (path : String) : Prop where
  parsed : ∃ defaults, s.environment.defaults = .ok defaults ∧
    CommandLine.parse defaults words = .ok (.run invocation) ∧
    CommandLine.parse defaults finalWords = .ok (.run { invocation with finalOnly := true })
  shown : invocation.finalOnly = false
  loaded : Machine.load s.loader s.files invocation.program invocation.tapeSize = .ok m
  pause : invocation.pause = 0
  saveTo : invocation.saveTo = some path
  path_isEmpty : path.isEmpty = false
  writable : ∀ bytes, ∃ files, s.files.write (ArrayFile.path path) bytes = .ok files

namespace BothWays

variable {s : Surroundings} {words finalWords : List String} {invocation : CommandLine.Invocation}
  {m : Machine} {path : String}

theorem run_eq
    (h : BothWays s words finalWords invocation m path) :
    run words s = conclude invocation s m ∧
      run finalWords s = conclude { invocation with finalOnly := true } s m := by
  obtain ⟨defaults, hdefaults, hwords, hfinalWords⟩ := h.parsed
  constructor
  · rw [run, hdefaults]
    dsimp only
    rw [hwords]
    dsimp only
    rw [start, h.loaded]
  · rw [run, hdefaults]
    dsimp only
    rw [hfinalWords]
    dsimp only
    rw [start, h.loaded]

/-- Two launches that end well print the same status line. -/
theorem tellAlike
    (h : BothWays s words finalWords invocation m path)
    (hends : m.Ends (.ofInt invocation.steps))
    (hfirst : (run words s).ending = .status 0) (hsecond : (run finalWords s).ending = .status 0) :
    TellAlike (run words s) (run finalWords s) := by
  obtain ⟨hreachable, hdirected⟩ := Machine.reachable_of_load h.loaded
  have hline : statusLine (perform invocation s.input m).machine = _ :=
    statusLine_perform_eq hreachable hdirected h.shown hends h.pause.ge
  have hsaveTo : { invocation with finalOnly := true }.saveTo = some path := h.saveTo
  obtain ⟨hrun, hrunFinal⟩ := h.run_eq
  rw [hrun] at hfirst
  rw [hrunFinal] at hsecond
  obtain ⟨_, _, _, _, hconclude⟩ := saved_of_conclude h.saveTo h.path_isEmpty hfirst
  obtain ⟨_, _, _, _, hconclude'⟩ := saved_of_conclude hsaveTo h.path_isEmpty hsecond
  rw [hrun, hrunFinal, hconclude, hconclude', hline]
  exact ⟨_, _, _, rfl, rfl⟩

/-- Two launches agree when their histories are saved in the same bytes. -/
theorem agree_iff_exists_bytes
    (h : BothWays s words finalWords invocation m path)
    (hends : m.Ends (.ofInt invocation.steps)) :
    Agree s.files path (run words s) (run finalWords s) ↔
      ∃ bytes, arrayBytes (perform invocation s.input m).history = .ok bytes ∧
        arrayBytes (perform { invocation with finalOnly := true } s.input m).history =
          .ok bytes := by
  obtain ⟨hreachable, hdirected⟩ := Machine.reachable_of_load h.loaded
  have hsaveTo : { invocation with finalOnly := true }.saveTo = some path := h.saveTo
  obtain ⟨hrun, hrunFinal⟩ := h.run_eq
  constructor
  · rintro ⟨⟨hfirst, hsecond⟩, ⟨common, hfiles, hfiles'⟩, -⟩
    rw [hrun] at hfirst hfiles
    rw [hrunFinal] at hsecond hfiles'
    obtain ⟨bytes, files, hbytes, hwrite, hconclude⟩ :=
      saved_of_conclude h.saveTo h.path_isEmpty hfirst
    obtain ⟨bytes', files', hbytes', hwrite', hconclude'⟩ :=
      saved_of_conclude hsaveTo h.path_isEmpty hsecond
    rw [hconclude] at hfiles
    rw [hconclude'] at hfiles'
    obtain rfl := FileTree.eq_of_write hwrite hfiles
    obtain rfl := FileTree.eq_of_write hwrite' hfiles'
    exact ⟨bytes', hbytes, hbytes'⟩
  · rintro ⟨bytes, hbytes, hbytes'⟩
    obtain ⟨files, hwrite⟩ := h.writable bytes
    obtain ⟨hfault, hfault'⟩ := fault_perform_eq hreachable hdirected h.shown hends h.pause.ge
    have hfirst := conclude_of_saved h.saveTo h.path_isEmpty hfault hbytes hwrite
    have hsecond := conclude_of_saved hsaveTo h.path_isEmpty hfault' hbytes' hwrite
    have hends₁ : (run words s).ending = .status 0 := by rw [hrun, hfirst]
    have hends₂ : (run finalWords s).ending = .status 0 := by rw [hrunFinal, hsecond]
    refine ⟨⟨hends₁, hends₂⟩, ⟨bytes, ?_, ?_⟩, h.tellAlike hends hends₁ hends₂⟩
    · rw [hrun, hfirst]
      exact hwrite
    · rw [hrunFinal, hsecond]
      exact hwrite

end BothWays

/-! ## A run that ends untold -/

/-- A program whose only rule leads into the halt state. -/
def oneRule : Ruleset :=
  ⟨[⟨some "a", none, none, some "x", .toward .right⟩], some "a", .ofNames [], none, 3⟩

/-- The file of that program, in the line `a ! ! x R`. -/
def oneRuleSurroundings : Surroundings :=
  ⟨[], ⟨[(["p.tm"], [97, 32, 33, 32, 33, 32, 120, 32, 82, 10])], []⟩, [], Yaml.load⟩

/-- The playback of that program, without a budget. -/
def oneRuleInvocation : CommandLine.Invocation :=
  ⟨"p.tm", 3, -1, 0, "_", false, some "h.npy"⟩

theorem bothWays_oneRule :
    BothWays oneRuleSurroundings ["p.tm", "3", "-1", "0", "--save-npy", "h.npy"]
      ["p.tm", "3", "-1", "0", "--final", "--save-npy", "h.npy"] oneRuleInvocation
      (.start oneRule 3) "h.npy" where
  parsed := ⟨⟨32, -1, 0, "_"⟩, rfl, rfl, rfl⟩
  shown := rfl
  loaded := rfl
  pause := rfl
  saveTo := rfl
  path_isEmpty := rfl
  writable := fun _ => ⟨_, rfl⟩

theorem ends_oneRule :
    (Machine.start oneRule 3).Ends (.ofInt oneRuleInvocation.steps) := by
  change (Machine.start oneRule 3).Ends .unlimited
  exact ⟨1, rfl⟩

theorem endsUntold_oneRule :
    (Machine.start oneRule 3).EndsUntold (.ofInt oneRuleInvocation.steps) := by
  have hfires : (Machine.start oneRule 3).FiresThrough 1 := by
    intro i hi
    obtain rfl : i = 0 := Nat.lt_one_iff.mp hi
    rfl
  change (Machine.start oneRule 3).EndsUntold .unlimited
  exact ⟨rfl, trivial, hfires⟩

/-- The two ways of a launch print the same status line, and they save the same bytes unless the run
ends untold or its history is no array. -/
theorem agree_iff
    {s : Surroundings} {words finalWords : List String} {invocation : CommandLine.Invocation}
    {m : Machine} {path : String} (h : BothWays s words finalWords invocation m path)
    (hends : m.Ends (.ofInt invocation.steps)) :
    ((run words s).ending = .status 0 → (run finalWords s).ending = .status 0 →
        TellAlike (run words s) (run finalWords s)) ∧
      (Agree s.files path (run words s) (run finalWords s) ↔
        ¬ m.EndsUntold (.ofInt invocation.steps) ∧
          ∃ bytes, arrayBytes (m.run (.ofInt invocation.steps)).history = .ok bytes) := by
  obtain ⟨hreachable, hdirected⟩ := Machine.reachable_of_load h.loaded
  refine ⟨h.tellAlike hends, ?_⟩
  rw [h.agree_iff_exists_bytes hends]
  exact exists_bytes_iff hreachable hdirected h.shown hends h.pause.ge

/-- With a budget for its only step the machine has none left when it halts, and the two ways save
the same bytes. -/
theorem agree_of_one_step :
    ∃ s words finalWords invocation m path, BothWays s words finalWords invocation m path ∧
      m.Ends (.ofInt invocation.steps) ∧ Agree s.files path (run words s) (run finalWords s) := by
  let invocation : CommandLine.Invocation := ⟨"p.tm", 3, 1, 0, "_", false, some "h.npy"⟩
  have hways : BothWays oneRuleSurroundings ["p.tm", "3", "1", "0", "--save-npy", "h.npy"]
      ["p.tm", "3", "1", "0", "--final", "--save-npy", "h.npy"] invocation (.start oneRule 3)
      "h.npy" :=
    { bothWays_oneRule with parsed := ⟨⟨32, -1, 0, "_"⟩, rfl, rfl, rfl⟩ }
  have hends : (Machine.start oneRule 3).Ends (.ofInt invocation.steps) := trivial
  have htold : ¬ (Machine.start oneRule 3).EndsUntold (.ofInt invocation.steps) :=
    fun huntold => absurd huntold.leaves (lt_irrefl 1)
  exact ⟨_, _, _, _, _, _, hways, hends, (agree_iff hways hends).2.mpr ⟨htold, _, rfl⟩⟩

/-- Where the only rule leads into the halt state, the two ways save different bytes. -/
theorem exists_not_agree :
    ∃ s words finalWords invocation m path, BothWays s words finalWords invocation m path ∧
      m.Ends (.ofInt invocation.steps) ∧
      ¬ Agree s.files path (run words s) (run finalWords s) := by
  refine ⟨_, _, _, _, _, _, bothWays_oneRule, ends_oneRule, fun hagree => ?_⟩
  obtain ⟨hreachable, hdirected⟩ := Machine.reachable_of_load bothWays_oneRule.loaded
  have hbytes := (bothWays_oneRule.agree_iff_exists_bytes ends_oneRule).mp hagree
  have hpause := bothWays_oneRule.pause.ge
  rw [exists_bytes_iff hreachable hdirected bothWays_oneRule.shown ends_oneRule hpause] at hbytes
  exact hbytes.1 endsUntold_oneRule

end Launch

end RingTape
