import Mathlib.Tactic.MkIffOfInductiveProp
import RingTape.Proofs.Yaml.Cursor
import RingTape.Proofs.Yaml.Rows

/-!
# Texts in block style

A document of mappings in writing: an entry stands on a line of its own, and the entries of a
mapping inside of it follow on deeper lines.  The value of an entry may also stand on its line, as a
scalar or as a mapping between braces.  Blank lines and comments may stand anywhere between the
lines.  Beside the characters of such a text stand the tokens and the rows that are read from it.
-/

namespace RingTape.Yaml

/-! ## Scalars -/

/-- A scalar as it is written within a line. -/
inductive Written where
  | plain (text : List Char)
  | quoted (quote : Char) (text : List Char)
  deriving DecidableEq, Repr

/-- The characters that no plain scalar starts with, unless by exception. -/
def indicators : List Char :=
  "-?:,[]\x7b\x7d#&*!|>'\"%@`".toList

/-- The characters of the words of a plain scalar, inside of a flow mapping or outside. -/
def isPlainChar (flow : Bool) (c : Char) : Bool :=
  isInline c && !(" \t:#".toList.contains c) && !(flow && ",?[]\x7b\x7d".toList.contains c)

/-- Whether a plain scalar can start like this.  A dash or a question mark needs more after it. -/
def startsWord (flow : Bool) : List Char → Bool
  | [] => false
  | c :: rest =>
    !indicators.contains c || ((c == '-' || c == '?') && rest.head?.any (isPlainChar flow))

/-- The words of a plain scalar, with spaces only in between. -/
@[mk_iff] structure IsWords (flow : Bool) (text : List Char) : Prop where
  ne_nil : text ≠ []
  first : text.head? ≠ some ' '
  chars : ∀ c ∈ text, c = ' ' ∨ isPlainChar flow c = true
  last : text.getLast? ≠ some ' '

/-- A text that can be written as a plain scalar. -/
@[mk_iff] structure IsPlain (flow : Bool) (text : List Char) : Prop extends IsWords flow text where
  starts : startsWord flow text = true

/-- A text that can be written between these quotes as it is. -/
@[mk_iff] structure IsQuotable (quote : Char) (text : List Char) : Prop where
  isQuote : quote = '\'' ∨ quote = '"'
  chars : IsInline text
  notQuote : quote ∉ text
  notEscape : quote = '"' → '\\' ∉ text

instance (flow : Bool) (text : List Char) : Decidable (IsWords flow text) :=
  have := List.decidableBAll (fun c => c = ' ' ∨ isPlainChar flow c = true) text
  decidable_of_iff' _ (isWords_iff flow text)

instance (flow : Bool) (text : List Char) : Decidable (IsPlain flow text) :=
  decidable_of_iff' _ (isPlain_iff flow text)

instance (quote : Char) (text : List Char) : Decidable (IsQuotable quote text) :=
  decidable_of_iff' _ (isQuotable_iff quote text)

namespace Written

/-- The characters of a scalar. -/
def chars : Written → List Char
  | plain text => text
  | quoted quote text => quote :: text ++ [quote]

/-- The token of a scalar. -/
def token : Written → Token
  | plain text => .scalar true text
  | quoted _ text => .scalar false text

/-- What a scalar is read as. -/
def leaf : Written → Leaf
  | plain text => ⟨.ofPlain text, text⟩
  | quoted _ text => ⟨.text, text⟩

/-- A scalar that can be read where it stands. -/
def Legible (flow : Bool) : Written → Prop
  | plain text => IsPlain flow text
  | quoted quote text => IsQuotable quote text

instance (flow : Bool) : (w : Written) → Decidable (w.Legible flow)
  | plain text => inferInstanceAs (Decidable (IsPlain flow text))
  | quoted quote text => inferInstanceAs (Decidable (IsQuotable quote text))

end Written

/-! ## Values on the line of their key -/

/-- An entry of a mapping between braces, with the spaces before it, before its value and after
it. -/
structure FlowEntry where
  before : Nat
  key : Written
  value : Option (Nat × Written)
  after : Nat
  deriving Repr

namespace FlowEntry

/-- The characters of the value and the colon before it. -/
def valueChars : Option (Nat × Written) → List Char
  | none => []
  | some (n, value) => ':' :: (spaces (n + 1) ++ value.chars)

/-- The characters of an entry. -/
def chars (e : FlowEntry) : List Char :=
  spaces e.before ++ (e.key.chars ++ (valueChars e.value ++ spaces e.after))

/-- The tokens of an entry. -/
def tokens (e : FlowEntry) : List Token :=
  match e.value with
  | none => [e.key.token]
  | some (_, value) => [.key, e.key.token, .value, value.token]

/-- The value of an entry.  Where none is written it is the null. -/
def leaf (e : FlowEntry) : Leaf :=
  match e.value with
  | none => ⟨.null, []⟩
  | some (_, value) => value.leaf

/-- An entry that can be read. -/
@[mk_iff] structure Legible (e : FlowEntry) : Prop where
  key : e.key.Legible true
  value : ∀ value ∈ e.value, value.2.Legible true
  near : e.key.chars.length ≤ LexState.maxKeyLength
  unmerged : e.key.leaf.tag ≠ .merge

instance (e : FlowEntry) : Decidable e.Legible :=
  decidable_of_iff' _ (legible_iff e)

/-- The characters of several entries, with commas in between. -/
def charsOf : List FlowEntry → List Char
  | [] => []
  | e :: es => e.chars ++ es.flatMap fun e => ',' :: e.chars

/-- The tokens of several entries. -/
def tokensOf : List FlowEntry → List Token
  | [] => []
  | e :: es => e.tokens ++ es.flatMap fun e => .flowEntry :: e.tokens

/-- The rows of several entries. -/
def rowsOf : List FlowEntry → Rows
  | [] => .nil
  | e :: es => .leaf e.key.leaf e.leaf (rowsOf es)

end FlowEntry

/-- What stands on the line of a key after the colon. -/
inductive Inline where
  | empty
  | scalar (spaces : Nat) (value : Written)
  | flow (spaces : Nat) (entries : List FlowEntry)
  deriving Repr

namespace Inline

/-- The characters after the colon. -/
def chars : Inline → List Char
  | empty => []
  | scalar n value => spaces (n + 1) ++ value.chars
  | flow n entries => spaces (n + 1) ++ '{' :: (FlowEntry.charsOf entries ++ ['}'])

/-- The tokens after the colon. -/
def tokens : Inline → List Token
  | empty => []
  | scalar _ value => [value.token]
  | flow _ entries => .flowMappingStart :: (FlowEntry.tokensOf entries ++ [.flowMappingEnd])

/-- A value that can be read. -/
def Legible : Inline → Prop
  | empty => True
  | scalar _ value => value.Legible false
  | flow _ entries => ∀ e ∈ entries, e.Legible

instance : (value : Inline) → Decidable value.Legible
  | empty => .isTrue trivial
  | scalar _ value => inferInstanceAs (Decidable (value.Legible false))
  | flow _ entries => inferInstanceAs (Decidable (∀ e ∈ entries, e.Legible))

/-- The row under a key, and then others. -/
def row (key : Leaf) (value : Inline) (rest : Rows) : Rows :=
  match value with
  | empty => .leaf key ⟨.null, []⟩ rest
  | scalar _ value => .leaf key value.leaf rest
  | flow _ entries => .mapping key (FlowEntry.rowsOf entries) rest

end Inline

/-! ## Lines -/

/-- The end of a line, or a line without an entry: spaces, and perhaps a comment. -/
structure Pad where
  width : Nat
  comment : Option (List Char)
  deriving Repr

namespace Pad

/-- The characters up to the end of the line. -/
def chars (p : Pad) : List Char :=
  spaces p.width ++ (p.comment.elim [] ('#' :: ·) ++ ['\n'])

/-- The characters of several lines. -/
def charsOf (pads : List Pad) : List Char :=
  pads.flatMap chars

theorem charsOf_cons
    (p : Pad) (pads : List Pad) :
    charsOf (p :: pads) = p.chars ++ charsOf pads :=
  List.flatMap_cons

/-- A comment stays on its line. -/
def Legible (p : Pad) : Prop :=
  ∀ text ∈ p.comment, IsInline text

instance (p : Pad) : Decidable p.Legible :=
  inferInstanceAs (Decidable (∀ text ∈ p.comment, IsInline text))

/-- A comment does not touch what is written before it. -/
def Apart (p : Pad) : Prop :=
  p.comment ≠ none → 0 < p.width

instance (p : Pad) : Decidable p.Apart :=
  inferInstanceAs (Decidable (p.comment ≠ none → 0 < p.width))

end Pad

/-- The entries of a mapping on lines of their own. -/
inductive Block where
  | nil
  | row (pads : List Pad) (key : Written) (value : Inline) (tail : Pad) (rest : Block)
  | nest (pads : List Pad) (key : Written) (tail : Pad) (column : Nat) (inner rest : Block)
  deriving Repr

/-- A scalar that can be read as a key in the given column.  A line that starts with three dashes or
three dots may be read as the border of a document. -/
@[mk_iff] structure Written.IsKey (column : Nat) (key : Written) : Prop where
  legible : key.Legible false
  near : key.chars.length ≤ LexState.maxKeyLength
  unmerged : key.leaf.tag ≠ .merge
  noBorder : column = 0 → key.chars.take 3 ≠ ['-', '-', '-'] ∧ key.chars.take 3 ≠ ['.', '.', '.']

instance (column : Nat) (key : Written) : Decidable (key.IsKey column) :=
  decidable_of_iff' _ (Written.isKey_iff column key)

namespace Block

/-- The characters of the lines, in the given column. -/
def chars (column : Nat) : Block → List Char
  | nil => []
  | row pads key value tail rest =>
    Pad.charsOf pads ++ (spaces column ++ (key.chars ++ ':' :: (value.chars ++
      (tail.chars ++ rest.chars column))))
  | nest pads key tail inside inner rest =>
    Pad.charsOf pads ++ (spaces column ++ (key.chars ++ ':' ::
      (tail.chars ++ (inner.chars inside ++ rest.chars column))))

/-- The lines and then others. -/
def append : Block → Block → Block
  | nil, more => more
  | row pads key value tail rest, more => row pads key value tail (rest.append more)
  | nest pads key tail inside inner rest, more =>
    nest pads key tail inside inner (rest.append more)

/-- Lines under one another with the same value.  What stands before them are the lines `pads`. -/
def lines (pads : List Pad) (value : Inline) (tail : Pad) : List Written → Block
  | [] => nil
  | key :: keys => row pads key value tail (lines [] value tail keys)

/-- Whether there are no lines. -/
def isNil : Block → Bool
  | nil => true
  | _ => false

/-- The tokens of the lines. -/
def tokens : Block → List Token
  | nil => []
  | row _ key value _ rest => .key :: key.token :: .value :: (value.tokens ++ rest.tokens)
  | nest _ key _ _ inner rest =>
    .key :: key.token :: .value :: .blockMappingStart :: (inner.tokens ++ .blockEnd :: rest.tokens)

/-- What the lines are read as. -/
def rows : Block → Rows
  | nil => .nil
  | row _ key value _ rest => value.row key.leaf rest.rows
  | nest _ key _ _ inner rest => .mapping key.leaf inner.rows rest.rows

/-- Lines that can be read in the given column. -/
def Legible (column : Nat) : Block → Prop
  | nil => True
  | row pads key value tail rest =>
    (∀ p ∈ pads, p.Legible) ∧ key.IsKey column ∧ value.Legible ∧ (tail.Legible ∧ tail.Apart) ∧
      rest.Legible column
  | nest pads key tail inside inner rest =>
    (∀ p ∈ pads, p.Legible) ∧ key.IsKey column ∧ (tail.Legible ∧ tail.Apart) ∧
      (column < inside ∧ inner.isNil = false ∧ inner.Legible inside) ∧ rest.Legible column

instance decidableLegible : (column : Nat) → (b : Block) → Decidable (b.Legible column)
  | _, nil => .isTrue trivial
  | column, row pads key value tail rest =>
    have := decidableLegible column rest
    inferInstanceAs (Decidable ((∀ p ∈ pads, p.Legible) ∧ key.IsKey column ∧ value.Legible ∧
      (tail.Legible ∧ tail.Apart) ∧ rest.Legible column))
  | column, nest pads key tail inside inner rest =>
    have := decidableLegible inside inner
    have := decidableLegible column rest
    inferInstanceAs (Decidable ((∀ p ∈ pads, p.Legible) ∧ key.IsKey column ∧
      (tail.Legible ∧ tail.Apart) ∧
      (column < inside ∧ inner.isNil = false ∧ inner.Legible inside) ∧ rest.Legible column))

end Block

/-- The line of a key whose mapping follows on deeper lines. -/
structure Heading where
  pads : List Pad
  key : Written
  tail : Pad
  column : Nat
  deriving Repr

/-- The lines under a heading, with lines before it and after them. -/
def Heading.block (h : Heading) (around : Block × Block) (inner : Block) : Block :=
  around.1.append (.nest h.pads h.key h.tail h.column inner around.2)

end RingTape.Yaml
