import RingTape.Yaml.Token.Scalar

/-!
# From text to tokens

The layout of a document decides where its collections start and end.  In a block the columns do,
and the key of an entry is recognised only when the colon after it is reached.  So each token that
may turn out to be such a key is remembered with its place, and the tokens that it then needs are
put in front of it.
-/

namespace RingTape.Yaml

/-- A token that is a key if a colon follows on the same line, not too far away. -/
structure KeyCandidate where
  /-- How many tokens stand before it. -/
  tokens : Nat
  /-- Whether no other token may stand in its place, so that the colon must follow. -/
  required : Bool
  index : Nat
  line : Nat
  column : Nat
  deriving DecidableEq, Repr

/-- The state between two tokens. -/
structure LexState where
  cursor : Cursor
  /-- How many flow collections are open. -/
  flow : Nat
  /-- The column of the innermost block collection, and those around it. -/
  indent : Int
  outer : List Int
  /-- Whether a key may start here. -/
  keyAllowed : Bool
  /-- The candidates for keys, by the number of flow collections around them. -/
  candidates : List (Nat × KeyCandidate)
  /-- The tokens so far, the last one first, and their number. -/
  tokens : List Token
  count : Nat
  deriving Repr

namespace LexState

def start (text : List Char) : LexState :=
  ⟨.start text, 0, -1, [], true, [], [], 0⟩

def push (token : Token) (s : LexState) : LexState :=
  { s with tokens := token :: s.tokens, count := s.count + 1 }

/-- The state with a token put in front of all but the first `before` tokens. -/
def insert (before : Nat) (token : Token) (s : LexState) : LexState :=
  let later := s.count - before
  { s with
    tokens := s.tokens.take later ++ token :: s.tokens.drop later
    count := s.count + 1 }

def moveTo (cursor : Cursor) (s : LexState) : LexState :=
  { s with cursor }

/-- The farthest that a key may stand before its colon. -/
def maxKeyLength : Nat := 1024

/-- Whether a candidate can no longer become a key here. -/
def isStale (s : LexState) (k : KeyCandidate) : Bool :=
  k.line != s.cursor.line || maxKeyLength < s.cursor.index - k.index

/-- The candidates that can still become keys here.  One that no longer can but has to is a
fault. -/
def dropStale (s : LexState) : Except Fault LexState :=
  if s.candidates.any fun (_, k) => s.isStale k && k.required then .error .malformed
  else .ok { s with candidates := s.candidates.filter fun (_, k) => !s.isStale k }

/-- How many tokens are given out before more of the text is looked at: those in front of the first
one of which it is not known yet whether it is a key. -/
def settled (s : LexState) : Nat :=
  (s.candidates.filter fun (_, k) => !s.isStale k).foldl (fun n (_, k) => min n k.tokens) s.count

/-- The tokens up to a place beyond which the text cannot be read.  The fault is met before a token
that is not settled. -/
def broken (fault : Fault) (s : LexState) : List Token :=
  s.tokens.reverse.take s.settled ++ [.broken fault]

def candidate? (s : LexState) : Option KeyCandidate :=
  s.candidates.lookup s.flow

/-- The state without a candidate at this depth.  One that has to become a key is a fault. -/
def dropCandidate (s : LexState) : Except Fault LexState :=
  if s.candidate?.any (·.required) then .error .malformed
  else .ok { s with candidates := s.candidates.filter (·.1 != s.flow) }

/-- The state in which the next token is a candidate for a key, if a key may start here. -/
def saveCandidate (s : LexState) : Except Fault LexState :=
  if s.keyAllowed then do
    let required := s.flow == 0 && s.indent == s.cursor.column
    let s ← s.dropCandidate
    let candidate : KeyCandidate :=
      ⟨s.count, required, s.cursor.index, s.cursor.line, s.cursor.column⟩
    return { s with candidates := (s.flow, candidate) :: s.candidates }
  else .ok s

/-- The state after the ends of the block collections in columns after `column`. -/
def unwind (column : Int) (s : LexState) : LexState :=
  if s.flow == 0 then go s.outer s else s
where
  go : List Int → LexState → LexState
    | [], s => s
    | indent :: outer, s =>
      if column < s.indent then go outer ({ s with indent, outer }.push .blockEnd) else s

/-- The state in a block collection of the given column, and whether that collection starts here. -/
def indentTo (column : Int) (s : LexState) : Bool × LexState :=
  if s.indent < column then (true, { s with indent := column, outer := s.indent :: s.outer })
  else (false, s)

/-- The state after the start of a block collection here, if it starts here. -/
def openBlock (token : Token) (s : LexState) : Except Fault LexState :=
  if s.flow != 0 then .ok s
  else if !s.keyAllowed then .error .malformed
  else
    let (starts, s) := s.indentTo s.cursor.column
    .ok (if starts then s.push token else s)

/-! ## Between tokens -/

/-- The place of the next token, after spaces, comments and line ends, and whether a line ended. -/
def skipToToken : Nat → Cursor → Bool × Cursor
  | 0, c => (false, c)
  | fuel + 1, c =>
    let c := c.skipSpaces.skipComment
    match c.takeBreak with
    | ([], _) => (false, c)
    | (_, next) => (true, (skipToToken fuel next).2)

/-- The state at the next token.  A key may start on a new line, except in a flow collection. -/
def toToken (s : LexState) : LexState :=
  let c := if s.cursor.index == 0 && s.cursor.at? byteOrderMark then s.cursor.next else s.cursor
  let (lineEnded, c) := skipToToken (c.rest.length + 1) c
  { s with cursor := c, keyAllowed := s.keyAllowed || (lineEnded && s.flow == 0) }

/-! ## One token -/

/-- A directive, or a line that starts or ends a document. -/
def separate (token : Token) (after : Cursor) (s : LexState) : Except Fault LexState := do
  let s ← (s.unwind (-1)).dropCandidate
  return ({ s with keyAllowed := false, cursor := after }).push token

def openFlow (token : Token) (s : LexState) : Except Fault LexState := do
  let s ← s.saveCandidate
  return ({ s with flow := s.flow + 1, keyAllowed := true, cursor := s.cursor.next }).push token

/-- The end of a flow collection.  There must be one. -/
def closeFlow (token : Token) (s : LexState) : Except Fault LexState := do
  let s ← s.dropCandidate
  if s.flow == 0 then throw .malformed
  return ({ s with flow := s.flow - 1, keyAllowed := false, cursor := s.cursor.next }).push token

/-- A comma between the members of a flow collection. -/
def flowEntry (s : LexState) : Except Fault LexState := do
  let s ← s.dropCandidate
  return ({ s with keyAllowed := true, cursor := s.cursor.next }).push .flowEntry

/-- A dash before the member of a block sequence. -/
def blockEntry (s : LexState) : Except Fault LexState := do
  let s ← s.openBlock .blockSequenceStart
  let s ← s.dropCandidate
  return ({ s with keyAllowed := true, cursor := s.cursor.next }).push .blockEntry

/-- A question mark before a key. -/
def explicitKey (s : LexState) : Except Fault LexState := do
  let s ← s.openBlock .blockMappingStart
  let s ← s.dropCandidate
  return ({ s with keyAllowed := s.flow == 0, cursor := s.cursor.next }).push .key

/-- A colon before a value.  The candidate at this depth, if there is one, is the key. -/
def valueMark (s : LexState) : Except Fault LexState := do
  match s.candidate? with
  | some k =>
    let s := { s with candidates := s.candidates.filter (·.1 != s.flow) }
    let s := s.insert k.tokens .key
    let (starts, s) := if s.flow == 0 then s.indentTo k.column else (false, s)
    let s := if starts then s.insert k.tokens .blockMappingStart else s
    return ({ s with keyAllowed := false, cursor := s.cursor.next }).push .value
  | none =>
    let s ← s.openBlock .blockMappingStart
    let s ← s.dropCandidate
    return ({ s with keyAllowed := s.flow == 0, cursor := s.cursor.next }).push .value

/-- A token that may be a key or belong to one. -/
def keyPart (reader : Reader Token) (s : LexState) : Except Fault LexState := do
  let s ← s.saveCandidate
  let (token, c) ← reader s.cursor
  return ({ s with keyAllowed := false, cursor := c }).push token

/-- A block scalar. -/
def blockScalar (folded : Bool) (s : LexState) : Except Fault LexState := do
  let s ← s.dropCandidate
  let (token, c) ← readBlock folded s.indent s.cursor
  return ({ s with keyAllowed := true, cursor := c }).push token

/-- A plain scalar.  When it ends with its line, a key may start after it. -/
def plainScalar (s : LexState) : Except Fault LexState := do
  let s ← s.saveCandidate
  let (text, ended, c) :=
    plainText (s.flow != 0) (s.indent + 1) (s.cursor.rest.length + 1) [] [] false s.cursor
  return ({ s with keyAllowed := ended, cursor := c }).push (.scalar true text)

/-- Whether a plain scalar starts with the character `x`. -/
def startsPlain (s : LexState) (x : Char) : Bool :=
  let indicators := "-?:,[]\x7b\x7d#&*!|>'\"%@`".toList
  (!isGap (some x) && !indicators.contains x) ||
    (!isGap (s.cursor.peekAt? 1) && (x == '-' || (s.flow == 0 && (x == '?' || x == ':'))))

/-- Whether a mark before a key or a value stands here: any such character in a flow collection, and
one before a gap in a block. -/
def atMark (s : LexState) : Bool :=
  s.flow != 0 || isGap (s.cursor.peekAt? 1)

/-- The state after the token that starts with the character `x` here. -/
def readToken (s : LexState) (x : Char) : Except Fault LexState :=
  let c := s.cursor
  let separator := c.column == 0 && c.atSeparator
  if x == '%' && c.column == 0 then do
    let (token, after) ← readDirective c
    s.separate token after
  else if x == '-' && separator then s.separate .documentStart (c.advance 3)
  else if x == '.' && separator then s.separate .documentEnd (c.advance 3)
  else if x == '[' then s.openFlow .flowSequenceStart
  else if x == '{' then s.openFlow .flowMappingStart
  else if x == ']' then s.closeFlow .flowSequenceEnd
  else if x == '}' then s.closeFlow .flowMappingEnd
  else if x == ',' then s.flowEntry
  else if x == '-' && isGap (c.peekAt? 1) then s.blockEntry
  else if x == '?' && s.atMark then s.explicitKey
  else if x == ':' && s.atMark then s.valueMark
  else if x == '*' then s.keyPart fun c => do
    let (name, c) ← readAnchorName c
    return (.alias name, c)
  else if x == '&' then s.keyPart fun c => do
    let (name, c) ← readAnchorName c
    return (.anchor name, c)
  else if x == '!' then s.keyPart readTag
  else if x == '|' && s.flow == 0 then s.blockScalar false
  else if x == '>' && s.flow == 0 then s.blockScalar true
  else if x == '\'' || x == '"' then s.keyPart (readQuoted x)
  else if s.startsPlain x then s.plainScalar
  else .error .malformed

/-- The state after one more token, or nothing at the end of the text, where the open block
collections end. -/
def next (s : LexState) : Except Fault (LexState × Bool) := do
  let s ← s.toToken.dropStale
  let s := s.unwind s.cursor.column
  match s.cursor.peek? with
  | none =>
    let s ← (s.unwind (-1)).dropCandidate
    return (s, true)
  | some x => return (← s.readToken x, false)

/-- The tokens from here to the end of the text, or to the place beyond which it cannot be read. -/
def finish : Nat → LexState → List Token
  | 0, s => s.broken .malformed
  | fuel + 1, s =>
    match s.next with
    | .error fault => s.broken fault
    | .ok (s, true) => s.tokens.reverse
    | .ok (s, false) => finish fuel s

end LexState

/-- The tokens of a text.  Each token takes at least one character. -/
def tokens (text : List Char) : List Token :=
  if text.all isAllowed then (LexState.start text).finish (text.length + 2)
  else [.broken .malformed]

end RingTape.Yaml
