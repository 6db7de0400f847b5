import RingTape.Launch.Defaults

/-!
# Command lines

A command line is a list of words: the program, up to three integers, and flags anywhere between
them.  A flag may be shortened as long as no other flag starts that way, and its value may follow an
equals sign.  The integers stand together with the program: once a flag follows it, no more of them
are read.  A word of two dashes ends the flags.
-/

namespace RingTape

open Text

/-- The flags. -/
inductive Flag where
  | help
  | blank
  | final
  | saveArray
  deriving DecidableEq, Repr

/-- The integers after the program. -/
inductive Setting where
  | tapeSize
  | steps
  | pause
  deriving DecidableEq, Repr

/-- Why a command line is refused. -/
inductive UsageFault where
  /-- The word is the start of several flags. -/
  | ambiguous (word : String) (candidates : List String)
  /-- The flag takes no value, and the word gives it one. -/
  | needlessValue (flag : Flag) (value : String)
  /-- The flag takes a value, and there is none after it. -/
  | noValue (flag : Flag)
  | notAnInteger (setting : Setting) (word : String)
  | noProgram
  /-- There are words that nothing asks for. -/
  | unrecognized (words : List String)
  deriving DecidableEq, Repr

def Flag.name : Flag → String
  | .help => "--help"
  | .blank => "--blank"
  | .final => "--final"
  | .saveArray => "--save-npy"

def Flag.forms : Flag → String
  | .help => "-h/--help"
  | flag => flag.name

def Setting.name : Setting → String
  | .tapeSize => "tape_size"
  | .steps => "steps"
  | .pause => "pause_ms"

def UsageFault.message : UsageFault → String
  | .ambiguous word candidates =>
    "ambiguous option: " ++ word ++ " could match " ++ String.intercalate ", " candidates
  | .needlessValue flag value =>
    "argument " ++ flag.forms ++ ": ignored explicit argument " ++ quoted value
  | .noValue flag => "argument " ++ flag.forms ++ ": expected one argument"
  | .notAnInteger setting word =>
    "argument " ++ setting.name ++ ": invalid int value: " ++ quoted word
  | .noProgram => "the following arguments are required: program"
  | .unrecognized words => "unrecognized arguments: " ++ String.intercalate " " words

namespace CommandLine

/-! ## Words -/

/-- What a word of a command line is. -/
inductive Word where
  /-- The program, a setting, or the value of a flag. -/
  | value (text : String)
  /-- The end of the flags. -/
  | separator
  | flag (flag : Flag) (attached : Option String)
  /-- The short form of the flag for help, with more characters after it. -/
  | shortHelp (attached : String)
  /-- A word that looks like a flag and is none. -/
  | unknown (text : String)
  deriving DecidableEq, Repr

/-- The forms of flags in the order in which a word is compared with them. -/
def flags : List Flag := [.help, .blank, .final, .saveArray]

/-- A word up to its first equals sign, and what follows that sign, if there is one. -/
def splitAtEquals (word : List Char) : List Char × Option (List Char) :=
  (word.takeWhile (· != '='),
    match word.dropWhile (· != '=') with
    | [] => none
    | _ :: value => some value)

def isDigits (cs : List Char) : Bool :=
  !cs.isEmpty && cs.all fun c => (decimalValue? c).isSome

/-- Whether a word is a minus sign and a number.  One line feed may follow. -/
def isNegativeNumber (word : List Char) : Bool :=
  match word with
  | '-' :: rest =>
    let body := if rest.getLast? = some '\n' then rest.dropLast else rest
    isDigits body ||
      match body.dropWhile (· != '.') with
      | '.' :: fraction =>
        (body.takeWhile (· != '.')).all (fun c => (decimalValue? c).isSome) && isDigits fraction
      | _ => false
  | _ => false

/-- A word that starts with a dash and is no flag: a value if it is a negative number or holds a
space. -/
def unflagged (word : String) : Word :=
  if isNegativeNumber word.toList || word.toList.contains ' ' then .value word else .unknown word

/-- What a word with two dashes at its start is. -/
def longWord (word : String) : Except UsageFault Word :=
  let (start, attached) := splitAtEquals word.toList
  let attached := attached.map String.ofList
  let byName (p : String → Bool) := flags.filter fun flag => p flag.name
  match byName (· == word), byName (· == String.ofList start),
      byName fun name => start.isPrefixOf name.toList with
  | flag :: _, _, _ => .ok (.flag flag none)
  | [], flag :: _, _ => .ok (.flag flag attached)
  | [], [], [] => .ok (unflagged word)
  | [], [], [flag] => .ok (.flag flag attached)
  | [], [], several => .error (.ambiguous word (several.map Flag.name))

/-- What a word is, before the end of the flags. -/
def classify (word : String) : Except UsageFault Word :=
  match word.toList with
  | ['-'] => .ok (.value word)
  | ['-', '-'] => .ok .separator
  | '-' :: '-' :: _ => longWord word
  | ['-', 'h'] => .ok (.flag .help none)
  | '-' :: 'h' :: attached => .ok (.shortHelp (String.ofList attached))
  | '-' :: _ => .ok (unflagged word)
  | _ => .ok (.value word)

/-- What the words of a command line are. -/
def classifyAll : List String → Except UsageFault (List Word)
  | [] => .ok []
  | word :: rest => do
    match ← classify word with
    | .separator => return .separator :: rest.map .value
    | other => return other :: (← classifyAll rest)

/-! ## Reading the words -/

/-- What a command line asks for. -/
structure Invocation where
  program : String
  tapeSize : Int
  steps : Int
  pause : Int
  blank : String
  finalOnly : Bool
  saveTo : Option String
  deriving DecidableEq, Repr

/-- A command line as far as it is read. -/
structure Reading where
  program : Option String
  /-- The settings that may still follow. -/
  expected : List Setting
  /-- Whether the last word was the program or a setting. -/
  engaged : Bool
  defaults : Defaults
  finalOnly : Bool
  saveTo : Option String
  surplus : List String
  deriving DecidableEq, Repr

/-- What comes of a command line that is accepted. -/
inductive Request where
  | help
  | run (invocation : Invocation)
  deriving DecidableEq, Repr

/-- Looks at the characters after the short form of the flag for help.  They may repeat it, but not
give it a value, nor start another flag. -/
def checkHelp : List Char → Except UsageFault Unit
  | 'h' :: rest => checkHelp rest
  | '=' :: value => .error (.needlessValue .help (String.ofList value))
  | '-' :: rest => .error (.needlessValue .help (String.ofList ('-' :: rest)))
  | _ => .ok ()

/-- The defaults with a setting in place of one. -/
def Reading.set (r : Reading) (setting : Setting) (n : Int) : Reading :=
  match setting with
  | .tapeSize => { r with defaults.tapeSize := n }
  | .steps => { r with defaults.steps := n }
  | .pause => { r with defaults.pause := n }

/-- After one more word that nothing asks for. -/
def Reading.leave (r : Reading) (word : String) : Reading :=
  { r with surplus := r.surplus ++ [word], engaged := false }

/-- At a flag.  Once the program is known, no setting is expected behind the flag. -/
def Reading.close (r : Reading) : Reading :=
  { r with expected := if r.program.isSome then [] else r.expected, engaged := false }

/-- After a value that belongs to no flag.  Two dashes after the end of the flags leave a setting as
it is. -/
def Reading.take (r : Reading) (word : String) : Except UsageFault Reading :=
  match r.program, r.expected with
  | none, _ => .ok { r with program := some word, engaged := true }
  | some _, [] => .ok (r.leave word)
  | some _, setting :: expected =>
    let r := { r with expected }
    if word == "--" then .ok r
    else match integer? word.toList with
      | some n => .ok (r.set setting n)
      | none => .error (.notAnInteger setting word)

/-- Reads words.  The result is nothing where help is asked for.  The end of the flags stands before
the program or right after it or a setting. -/
def readWords (r : Reading) : List Word → Except UsageFault (Option Reading)
  | [] => .ok (some r)
  | .value word :: rest => do readWords (← r.take word) rest
  | .separator :: rest =>
    let placed := r.engaged || (r.program.isNone && !rest.isEmpty)
    readWords (if placed then r else r.leave "--") rest
  | .unknown word :: rest => readWords (r.close.leave word) rest
  | .shortHelp attached :: _ => do
    checkHelp attached.toList
    return none
  | .flag .help none :: _ => .ok none
  | .flag .final none :: rest => readWords { r.close with finalOnly := true } rest
  | .flag .help (some value) :: _ => .error (.needlessValue .help value)
  | .flag .final (some value) :: _ => .error (.needlessValue .final value)
  | .flag .blank (some value) :: rest => readWords { r.close with defaults.blank := value } rest
  | .flag .saveArray (some value) :: rest => readWords { r.close with saveTo := some value } rest
  | .flag .blank none :: .value word :: rest =>
    readWords { r.close with defaults.blank := word } rest
  | .flag .saveArray none :: .value word :: rest =>
    readWords { r.close with saveTo := some word } rest
  | .flag flag none :: _ => .error (.noValue flag)

/-- What a command line asks for. -/
def parse (defaults : Defaults) (words : List String) : Except UsageFault Request := do
  let words ← classifyAll words
  let start : Reading := ⟨none, [.tapeSize, .steps, .pause], false, defaults, false, none, []⟩
  match ← readWords start words with
  | none => return .help
  | some r =>
    match r.program with
    | none => throw .noProgram
    | some program =>
      if !r.surplus.isEmpty then throw (.unrecognized r.surplus)
      return .run
        { program
          tapeSize := r.defaults.tapeSize
          steps := r.defaults.steps
          pause := r.defaults.pause
          blank := r.defaults.blank
          finalOnly := r.finalOnly
          saveTo := r.saveTo }

end CommandLine

end RingTape
