import RingTape.Proofs.Launch.Modes

/-!
# What the environment decides

The environment fills in what the command line leaves open.  Where the command line leaves nothing
open, the environment decides no more than whether the launch begins at all: its variables are read
before the command line, and one that should hold an integer and does not ends the launch even if
nothing asks for it.
-/

namespace RingTape

open Text

/-! ## Readable variables -/

namespace Environment

/-- The variables that should hold integers, in the order in which they are read. -/
def integerNames : List String := ["TURING_TAPE_SIZE", "TURING_STEPS", "TURING_PAUSE_MS"]

/-- A variable that holds an integer, or is blank or missing. -/
def Readable (env : Environment) (name : String) : Prop :=
  ∀ value, List.lookup name env = some value →
    (trim value.toList).isEmpty = true ∨ (integer? value.toList).isSome = true

/-- The complaint about the first variable that is not readable. -/
def complaint (env : Environment) : Option String :=
  match env.defaults with
  | .ok _ => none
  | .error fault => some fault.message

variable {env : Environment} {name : String}

theorem readable_iff
    (default : Int) :
    env.Readable name ↔ ∃ n, env.integer name default = .ok n := by
  unfold Readable integer
  cases hvalue : List.lookup name env with
  | none => simp
  | some value =>
      simp only [Option.some.injEq, forall_eq']
      by_cases hblank : (trim value.toList).isEmpty = true
      · simp [hblank]
      · cases hn : integer? value.toList with
        | none => simp [hblank]
        | some n => simp [hblank]

theorem exists_defaults_iff :
    (∃ d, env.defaults = .ok d) ↔ ∀ name ∈ integerNames, env.Readable name := by
  simp only [integerNames, List.forall_mem_cons, List.not_mem_nil, false_imp_iff, implies_true,
    and_true]
  rw [readable_iff 32, readable_iff (-1), readable_iff 0]
  simp only [defaults, bind_eq_ok_iff]
  constructor
  · rintro ⟨_, tapeSize, htapeSize, steps, hsteps, pause, hpause, -⟩
    exact ⟨⟨tapeSize, htapeSize⟩, ⟨steps, hsteps⟩, pause, hpause⟩
  · rintro ⟨⟨tapeSize, htapeSize⟩, ⟨steps, hsteps⟩, pause, hpause⟩
    exact ⟨_, tapeSize, htapeSize, steps, hsteps, pause, hpause, rfl⟩

theorem complaint_eq_none_iff :
    env.complaint = none ↔ ∀ name ∈ integerNames, env.Readable name := by
  rw [← exists_defaults_iff, complaint]
  cases hdefaults : env.defaults with
  | ok d => simp
  | error fault => simp

end Environment

/-! ## What a command line gives -/

namespace CommandLine

/-- What a command line can give and the environment can fill in. -/
inductive Choice where
  | setting (setting : Setting)
  | blank
  deriving DecidableEq, Repr

/-- Two defaults do not differ in what a choice is about. -/
def Choice.Agrees (d d' : Defaults) : Choice → Prop
  | .setting .tapeSize => d.tapeSize = d'.tapeSize
  | .setting .steps => d.steps = d'.steps
  | .setting .pause => d.pause = d'.pause
  | .blank => d.blank = d'.blank

/-- The settings that may still follow a flag. -/
def behindFlag (known : Bool) (expected : List Setting) : List Setting :=
  if known then [] else expected

/-- What words give, once the program is known or before, with the settings that may still follow.
The first value is the program, and two dashes in the place of a setting give nothing. -/
def given (known : Bool) (expected : List Setting) : List Word → List Choice
  | [] => []
  | .value word :: rest =>
    match known, expected with
    | false, _ => given true expected rest
    | true, [] => given true [] rest
    | true, setting :: expected =>
      if word == "--" then given true expected rest
      else .setting setting :: given true expected rest
  | .separator :: rest => given known expected rest
  | .flag .blank (some _) :: rest => .blank :: given known (behindFlag known expected) rest
  | .flag .blank none :: .value _ :: rest => .blank :: given known (behindFlag known expected) rest
  | .flag .saveArray none :: .value _ :: rest => given known (behindFlag known expected) rest
  | _ :: rest => given known (behindFlag known expected) rest

/-- A command line that gives the program, the three settings and the blank, so far as it can be
told into words at all. -/
def GivesAll (words : List String) : Prop :=
  ∀ ws, classifyAll words = .ok ws →
    ∀ choice, choice ∈ given false [.tapeSize, .steps, .pause] ws

section

variable {d d' : Defaults} {r : Reading} {ws : List Word}

theorem eq_of_agrees
    (h : ∀ choice : Choice, choice.Agrees d d') :
    d = d' := by
  obtain ⟨tapeSize, steps, pause, blank⟩ := d
  obtain ⟨tapeSize', steps', pause', blank'⟩ := d'
  obtain rfl : tapeSize = tapeSize' := h (.setting .tapeSize)
  obtain rfl : steps = steps' := h (.setting .steps)
  obtain rfl : pause = pause' := h (.setting .pause)
  obtain rfl : blank = blank' := h .blank
  rfl

/-- A reading may go on with other defaults, which differ in nothing but what the words still
give. -/
def Reading.Settled (r : Reading) (d : Defaults) (ws : List Word) : Prop :=
  ∀ choice, choice ∈ given r.program.isSome r.expected ws ∨ choice.Agrees r.defaults d

theorem Reading.agrees_set
    {setting : Setting} {choice : Choice} (n : Int)
    (h : choice = .setting setting ∨ choice.Agrees r.defaults d) :
    choice.Agrees (r.set setting n).defaults ({ r with defaults := d }.set setting n).defaults := by
  rcases h with rfl | hagrees
  · cases setting <;> rfl
  · cases choice with
    | blank => cases setting <;> exact hagrees
    | setting other => cases setting <;> cases other <;> first | exact hagrees | rfl

/-- A value is taken alike with such other defaults, or refused alike. -/
theorem Reading.Settled.take
    {word : String} (h : r.Settled d (.value word :: ws)) :
    (∃ fault, r.take word = .error fault ∧ { r with defaults := d }.take word = .error fault) ∨
      ∃ next next', r.take word = .ok next ∧ { r with defaults := d }.take word = .ok next' ∧
        next' = { next with defaults := next'.defaults } ∧ next.Settled next'.defaults ws := by
  obtain ⟨program, expected, engaged, defaults, finalOnly, saveTo, surplus⟩ := r
  unfold Settled at h
  simp only [Reading.take]
  cases program with
  | none => exact .inr ⟨_, _, rfl, rfl, rfl, h⟩
  | some program =>
      cases expected with
      | nil => exact .inr ⟨_, _, rfl, rfl, rfl, h⟩
      | cons setting expected =>
          dsimp only [Option.isSome_some] at h ⊢
          by_cases hdashes : (word == "--") = true
          · simp only [given, if_pos hdashes] at h ⊢
            exact .inr ⟨_, _, rfl, rfl, rfl, h⟩
          · simp only [given, if_neg hdashes, List.mem_cons] at h ⊢
            cases hn : integer? word.toList with
            | none => exact .inl ⟨_, rfl, rfl⟩
            | some n =>
                refine .inr ⟨_, _, rfl, rfl, ?_, fun choice => ?_⟩
                · cases setting <;> rfl
                · rcases h choice with (hset | hgiven) | hagrees
                  · exact .inr (agrees_set n (.inl hset))
                  · cases setting <;> exact .inl hgiven
                  · exact .inr (agrees_set n (.inr hagrees))

theorem Reading.Settled.readWords
    (h : r.Settled d ws) :
    readWords r ws = readWords { r with defaults := d } ws := by
  induction r, ws using readWords.induct generalizing d with
  | case1 r =>
      have hagrees : r.defaults = d := eq_of_agrees fun choice => (h choice).resolve_left nofun
      rw [← hagrees]
  | case2 r word rest ih =>
      rw [CommandLine.readWords, CommandLine.readWords]
      rcases h.take with ⟨fault, hfault, hfault'⟩ | ⟨next, next', hnext, hnext', hsame, hsettled⟩
      · rw [hfault, hfault']
      · rw [hnext, hnext', hsame]
        exact ih next hsettled
  | case3 r rest placed =>
      rename_i ih
      rw [CommandLine.readWords, CommandLine.readWords]
      dsimp only [placed] at ih ⊢
      by_cases hplaced : (r.engaged || r.program.isNone && !rest.isEmpty) = true
      · rw [if_pos hplaced] at ih ⊢
        rw [if_pos hplaced]
        exact ih h
      · rw [if_neg hplaced] at ih ⊢
        rw [if_neg hplaced]
        exact ih h
  | case4 r word rest ih | case7 r rest ih | case11 r value rest ih | case13 r word rest ih =>
      rw [CommandLine.readWords, CommandLine.readWords]
      exact ih h
  | case10 r value rest ih | case12 r word rest ih =>
      rw [CommandLine.readWords, CommandLine.readWords]
      -- the flag settles the blank, whatever the default was
      refine ih fun choice => ?_
      rcases h choice with hgiven | hagrees
      · rcases List.mem_cons.mp hgiven with rfl | hgiven
        · exact .inr rfl
        · exact .inl hgiven
      · right
        cases choice with
        | setting setting => cases setting <;> exact hagrees
        | blank => rfl
  | case5 | case6 | case8 | case9 => rfl
  | case14 r flag tail hhelp hfinal hblank hsave =>
      rw [CommandLine.readWords, CommandLine.readWords]
      all_goals assumption

/-- A command line that gives all is read alike with all defaults. -/
theorem GivesAll.parse_eq
    {words : List String} (h : GivesAll words) (d d' : Defaults) :
    parse d words = parse d' words := by
  unfold parse
  cases hwords : classifyAll words with
  | error fault => rfl
  | ok ws =>
      have hsettled :
          Reading.Settled ⟨none, [.tapeSize, .steps, .pause], false, d, false, none, []⟩ d' ws :=
        fun choice => .inl (h ws hwords choice)
      simp only [bind, Except.bind, hsettled.readWords]

end

end CommandLine

/-! ## Launches -/

namespace Launch

open CommandLine

variable {s : Surroundings} {words : List String}

theorem ending_start_ne
    (invocation : Invocation) (s : Surroundings) :
    (start invocation s).ending ≠ .status 1 := by
  unfold start conclude
  dsimp only
  repeat' split
  all_goals nofun

/-- A launch that reads its environment never ends with status 1. -/
theorem ending_run_ne
    (words : List String) (h : s.environment.complaint = none) :
    (run words s).ending ≠ .status 1 := by
  obtain ⟨d, hdefaults⟩ :=
    Environment.exists_defaults_iff.mpr (Environment.complaint_eq_none_iff.mp h)
  rw [run, hdefaults]
  dsimp only
  split
  · exact fun hstatus => by cases hstatus
  · exact fun hstatus => by cases hstatus
  · exact ending_start_ne _ s

/-- A launch that cannot read its environment ends with status 1, and does nothing else. -/
theorem run_of_complaint
    {text : String} (h : s.environment.complaint = some text) :
    run words s = ⟨.status 1, "", text ++ "\n", s.files⟩ := by
  unfold Environment.complaint at h
  cases hdefaults : s.environment.defaults with
  | ok d =>
      rw [hdefaults] at h
      cases h
  | error fault =>
      rw [hdefaults] at h
      cases h
      rw [run, hdefaults]

theorem run_of_readable
    {env env' : Environment} (hgives : GivesAll words) (h : env.complaint = none)
    (h' : env'.complaint = none) (files : FileTree) (input : List Char)
    (loader : Yaml.Loader) :
    run words ⟨env, files, input, loader⟩ = run words ⟨env', files, input, loader⟩ := by
  obtain ⟨d, hd⟩ := Environment.exists_defaults_iff.mpr (Environment.complaint_eq_none_iff.mp h)
  obtain ⟨d', hd'⟩ := Environment.exists_defaults_iff.mpr (Environment.complaint_eq_none_iff.mp h')
  unfold run
  dsimp only
  rw [hd, hd']
  dsimp only
  rw [hgives.parse_eq d d']
  rfl

theorem complaint_eq_some_of_run_eq
    {env env' : Environment} {files : FileTree} {input : List Char} {loader : Yaml.Loader}
    {text : String}
    (hrun : run words ⟨env, files, input, loader⟩ = run words ⟨env', files, input, loader⟩)
    (htext : env.complaint = some text) :
    env'.complaint = some text := by
  rw [run_of_complaint (s := ⟨env, files, input, loader⟩) htext] at hrun
  cases htext' : env'.complaint with
  | none =>
      have hending := ending_run_ne words (s := ⟨env', files, input, loader⟩) htext'
      rw [← hrun] at hending
      exact absurd rfl hending
  | some text' =>
      rw [run_of_complaint (s := ⟨env', files, input, loader⟩) htext'] at hrun
      have htexts : text ++ "\n" = text' ++ "\n" := congrArg Outcome.complaint hrun
      rw [(String.append_left_inj "\n").mp htexts]

/-- Where the command line gives all, the environment decides nothing as long as its variables are
readable.  Two environments lead to different launches exactly when a variable of one of them is not
readable and they are not complained of alike; such a complaint is all that the launch does. -/
theorem run_eq_iff_complaint_eq
    (hgives : GivesAll words) (env env' : Environment) (files : FileTree) (input : List Char)
    (loader : Yaml.Loader) :
    ((∀ name ∈ Environment.integerNames, env.Readable name ∧ env'.Readable name) →
        run words ⟨env, files, input, loader⟩ = run words ⟨env', files, input, loader⟩) ∧
      (run words ⟨env, files, input, loader⟩ = run words ⟨env', files, input, loader⟩ ↔
        env.complaint = env'.complaint) ∧
      ∀ text, env.complaint = some text →
        run words ⟨env, files, input, loader⟩ = ⟨.status 1, "", text ++ "\n", files⟩ := by
  refine ⟨fun hreadable => ?_, ⟨fun hrun => ?_, fun hcomplaint => ?_⟩, fun text htext => ?_⟩
  · apply run_of_readable hgives
    · exact Environment.complaint_eq_none_iff.mpr fun name hname => (hreadable name hname).1
    · exact Environment.complaint_eq_none_iff.mpr fun name hname => (hreadable name hname).2
  · exact Option.ext fun text =>
      ⟨complaint_eq_some_of_run_eq hrun, complaint_eq_some_of_run_eq hrun.symm⟩
  · cases htext : env.complaint with
    | none => exact run_of_readable hgives htext (hcomplaint.symm.trans htext) files input loader
    | some text =>
        rw [run_of_complaint (s := ⟨env, files, input, loader⟩) htext,
          run_of_complaint (s := ⟨env', files, input, loader⟩) (hcomplaint.symm.trans htext)]
  · exact run_of_complaint (s := ⟨env, files, input, loader⟩) htext

/-- A command line that gives all, for the program of one rule. -/
def fullWords : List String := ["p.tm", "3", "1", "0", "--blank", "_"]

theorem givesAll_fullWords :
    GivesAll fullWords := by
  intro ws hwords choice
  have hknown : classifyAll fullWords =
      .ok [.value "p.tm", .value "3", .value "1", .value "0", .flag .blank none, .value "_"] := rfl
  rw [hknown] at hwords
  cases hwords
  rcases choice with ⟨_ | _ | _⟩ | _ <;> decide

/-- No environment, and one that says something else in every variable. -/
theorem run_eq_of_other_environment :
    ∃ env : Environment,
      env = [("TURING_TAPE_SIZE", " 7 "), ("TURING_STEPS", ""), ("TURING_PAUSE_MS", "-1"),
        ("TURING_BLANK", "%")] ∧
      GivesAll fullWords ∧
      (∀ name ∈ Environment.integerNames, Environment.Readable [] name ∧ env.Readable name) ∧
      run fullWords ⟨[], oneRuleSurroundings.files, [], Yaml.load⟩ =
        run fullWords ⟨env, oneRuleSurroundings.files, [], Yaml.load⟩ := by
  refine ⟨_, rfl, givesAll_fullWords, ?readable, ?alike⟩
  case readable =>
    intro name hname
    constructor
    · exact Environment.complaint_eq_none_iff.mp rfl name hname
    · exact Environment.complaint_eq_none_iff.mp rfl name hname
  case alike =>
    exact (run_eq_iff_complaint_eq givesAll_fullWords _ _ _ _ _).2.1.mpr rfl

/-- A variable that nothing asks for, and that is no integer. -/
theorem exists_run_ne_of_unreadable :
    ∃ words env files input loader, GivesAll words ∧
      run words ⟨[], files, input, loader⟩ =
        ⟨.status 0, "_ _ _\nMachine halted after 1 steps.\n", "", files⟩ ∧
      run words ⟨env, files, input, loader⟩ =
        ⟨.status 1, "", "error: TURING_STEPS must be an integer, got 'x'\n", files⟩ ∧
      run words ⟨[], files, input, loader⟩ ≠ run words ⟨env, files, input, loader⟩ := by
  have hrun : run fullWords ⟨[], oneRuleSurroundings.files, [], Yaml.load⟩ =
      ⟨.status 0, "_ _ _\nMachine halted after 1 steps.\n", "", oneRuleSurroundings.files⟩ := rfl
  have hcomplains :
      run fullWords ⟨[("TURING_STEPS", "x")], oneRuleSurroundings.files, [], Yaml.load⟩ =
        ⟨.status 1, "", "error: TURING_STEPS must be an integer, got 'x'\n",
        oneRuleSurroundings.files⟩ := rfl
  refine ⟨_, _, _, _, _, givesAll_fullWords, hrun, hcomplains, ?_⟩
  rw [hrun, hcomplains]
  nofun

end Launch

end RingTape
