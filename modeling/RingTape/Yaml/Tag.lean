import RingTape.Yaml.Timestamp

/-!
# Tags

A tag says what kind of value a node is.  A plain scalar without a tag has the one that its text
calls for: a truth value, a number, a date, the null, or else a text.
-/

namespace RingTape.Yaml

/-- The tags that have a meaning, and one for all others. -/
inductive Tag where
  | null
  | bool
  | int
  | float
  | binary
  | date
  | text
  | sequence
  | mapping
  | set
  | orderedMapping
  | pairs
  /-- The tag of a key under which other mappings are merged. -/
  | merge
  /-- The tag of the key of a default value. -/
  | value
  | unknown
  deriving DecidableEq, Repr, Inhabited

/-- The meaning of the handle of standard tags. -/
def standardTags : List Char := "tag:yaml.org,2002:".toList

/-- The tag that a full name stands for. -/
def Tag.ofName (name : List Char) : Tag :=
  if standardTags.isPrefixOf name then
    match String.ofList (name.drop standardTags.length) with
    | "null" => .null
    | "bool" => .bool
    | "int" => .int
    | "float" => .float
    | "binary" => .binary
    | "timestamp" => .date
    | "str" => .text
    | "seq" => .sequence
    | "map" => .mapping
    | "set" => .set
    | "omap" => .orderedMapping
    | "pairs" => .pairs
    | "merge" => .merge
    | "value" => .value
    | _ => .unknown
  else .unknown

/-! ## Forms of plain scalars -/

def trueTexts : List String :=
  ["yes", "Yes", "YES", "true", "True", "TRUE", "on", "On", "ON"]

def falseTexts : List String :=
  ["no", "No", "NO", "false", "False", "FALSE", "off", "Off", "OFF"]

def nullTexts : List String := ["", "~", "null", "Null", "NULL"]

def dropSign : List Char → List Char
  | '-' :: rest => rest
  | '+' :: rest => rest
  | cs => cs

def isDigitOrUnderscore (c : Char) : Bool :=
  c.isDigit || c == '_'

/-- Whether a text is a digit and then digits and underscores. -/
def isDigits : List Char → Bool
  | [] => false
  | c :: rest => c.isDigit && rest.all isDigitOrUnderscore

/-- Whether a text is a number below sixty in one or two digits. -/
def isSixtieth : List Char → Bool
  | [d] => d.isDigit
  | [t, d] => '0' ≤ t && t ≤ '5' && d.isDigit
  | _ => false

/-- Whether a text is an integer in base ten without a zero at its front, or a zero. -/
def isDecimal : List Char → Bool
  | ['0'] => true
  | cs => isDigits cs && cs.head? != some '0'

/-- Whether a text has the form of an integer: in base two, eight, ten, sixteen or sixty. -/
def isIntegerForm (text : List Char) : Bool :=
  let body := dropSign text
  let inBase (digits : List Char) (p : Char → Bool) :=
    !digits.isEmpty && digits.all fun c => p c || c == '_'
  match body with
  | '0' :: 'b' :: digits => inBase digits fun c => c == '0' || c == '1'
  | '0' :: 'x' :: digits => inBase digits fun c =>
      c.isDigit || ('a' ≤ c && c ≤ 'f') || ('A' ≤ c && c ≤ 'F')
  | _ =>
    isDecimal body || (body.head? == some '0' && inBase body.tail fun c => '0' ≤ c && c ≤ '7') ||
      match Text.splitWhere (· == ':') body with
      | first :: second :: rest =>
        isDigits first && first.head? != some '0' && (second :: rest).all isSixtieth
      | _ => false

/-- Whether a text is empty, or the letter, sign and digits of an exponent. -/
def isExponent : List Char → Bool
  | [] => true
  | e :: sign :: digits =>
    (e == 'e' || e == 'E') && (sign == '-' || sign == '+') && !digits.isEmpty &&
      digits.all Char.isDigit
  | _ => false

/-- Whether a text has the form of a number with a point. -/
def isFloatForm (text : List Char) : Bool :=
  let body := dropSign text
  let whole := body.takeWhile (· != '.')
  let afterPoint := body.dropWhile (· != '.')
  if ["inf", "Inf", "INF"].contains (String.ofList (body.drop 1)) && body.head? == some '.' then true
  else match afterPoint with
    | '.' :: fraction =>
      let tail := fraction.dropWhile isDigitOrUnderscore
      if whole.isEmpty then
        body == text &&
          (["nan", "NaN", "NAN"].contains (String.ofList fraction) ||
            (fraction.head?.any Char.isDigit && isExponent tail))
      else if whole.contains ':' then
        match Text.splitWhere (· == ':') whole with
        | first :: rest => isDigits first && rest.all isSixtieth && tail.isEmpty
        | [] => false
      else isDigits whole && isExponent tail
    | _ => false

/-- The marks of tags, anchors and aliases, which stand for no value. -/
def markTexts : List String := ["!", "&", "*"]

/-- The tag that the text of a plain scalar calls for. -/
def Tag.ofPlain (text : List Char) : Tag :=
  let s := String.ofList text
  if nullTexts.contains s then .null
  else if trueTexts.contains s || falseTexts.contains s then .bool
  else if isFloatForm text then .float
  else if isIntegerForm text then .int
  else if s == "<<" then .merge
  else if Timestamp.isForm text then .date
  else if s == "=" then .value
  else if markTexts.contains s then .unknown
  else .text

end RingTape.Yaml
