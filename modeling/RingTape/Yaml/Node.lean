import RingTape.Yaml.Tag
import RingTape.Yaml.Token.Basic

/-!
# Nodes of a document

The tokens of a document form nodes: scalars, sequences and mappings.  A node may be given a name
and be used in several places, inside of itself too, so the nodes are kept in a numbered list and
refer to each other by number.
-/

namespace RingTape.Yaml

/-- What a node holds.  The members of collections are numbers of nodes. -/
inductive Content where
  | scalar (text : List Char)
  | sequence (items : List Nat)
  | mapping (entries : List (Nat × Nat))
  deriving DecidableEq, Repr, Inhabited

/-- A node. -/
structure Node where
  tag : Tag
  content : Content
  deriving DecidableEq, Repr, Inhabited

/-- The nodes of a document and the number of the outermost one. -/
structure Graph where
  nodes : Array Node
  root : Nat
  deriving Repr

/-- What is known when part of the tokens are read: the rest of them, the meanings of handles, the
nodes so far, and the nodes that have names. -/
structure Builder where
  tokens : List Token
  handles : List (List Char × List Char)
  nodes : Array Node
  anchors : List (List Char × Nat)
  deriving Repr

/-- A step in reading tokens. -/
abbrev Build := StateT Builder (Except Fault)

namespace Build

/-- The next token, if there is one.  Beyond the place where the text is broken there is none to
see. -/
def peek : Build (Option Token) := do
  match (← get).tokens with
  | [] => return none
  | .broken fault :: _ => throw fault
  | token :: _ => return some token

def skip : Build Unit :=
  modify fun s => { s with tokens := s.tokens.tail }

/-- Passes over the next token, which must be the given one. -/
def expect (token : Token) : Build Unit := do
  if (← peek) = some token then skip else throw .malformed

/-- Passes over the next token if it is the given one, and tells whether it was. -/
def accept (token : Token) : Build Bool := do
  if (← peek) = some token then
    skip
    return true
  else return false

/-- Whether the next token is one of these. -/
def nextIn (tokens : List Token) : Build Bool := do
  match ← peek with
  | some token => return tokens.contains token
  | none => return false

def add (node : Node) : Build Nat := do
  let s ← get
  set { s with nodes := s.nodes.push node }
  return s.nodes.size

/-- Replaces a node that was added before its members were known. -/
def complete (id : Nat) (node : Node) : Build Unit :=
  modify fun s => { s with nodes := s.nodes.setIfInBounds id node }

/-- Adds the node of a place where nothing is written. -/
def addEmpty : Build Nat :=
  add ⟨.null, .scalar []⟩

/-- Gives a node a name.  A name is given once. -/
def name (anchor : Option (List Char)) (id : Nat) : Build Unit := do
  match anchor with
  | none => return ()
  | some anchor =>
    if ((← get).anchors.lookup anchor).isSome then throw .malformed
    else modify fun s => { s with anchors := (anchor, id) :: s.anchors }

def tagName (handle : Option (List Char)) (suffix : List Char) : Build (List Char) := do
  match handle with
  | none => return suffix
  | some handle =>
    match (← get).handles.lookup handle with
    | none => throw .malformed
    | some meaning => return meaning ++ suffix

/-- The anchor and the tag before a node, in either order. -/
def properties : Build (Option (List Char) × Option (List Char)) := do
  match ← peek with
  | some (.anchor anchor) => do
    skip
    match ← peek with
    | some (.tag handle suffix) => do
      skip
      return (some anchor, some (← tagName handle suffix))
    | _ => return (some anchor, none)
  | some (.tag handle suffix) => do
    skip
    match ← peek with
    | some (.anchor anchor) => do
      skip
      return (some anchor, some (← tagName handle suffix))
    | _ => return (none, some (← tagName handle suffix))
  | _ => return (none, none)

/-- The tag of a scalar.  Without one, or with one that says nothing, a plain text tells it. -/
def scalarTag (tag : Option (List Char)) (plain : Bool) (text : List Char) : Tag :=
  match tag with
  | none => if plain then .ofPlain text else .text
  | some tag => if tag = ['!'] then .ofPlain text else .ofName tag

/-- The tag of a collection. -/
def collectionTag (tag : Option (List Char)) (default : Tag) : Tag :=
  match tag with
  | none => default
  | some tag => if tag = ['!'] then default else .ofName tag

mutual

/-- A node.  Only in a block do block collections start, and only in a mapping does a sequence start
without one. -/
def node : Nat → Bool → Bool → Build Nat
  | 0, _, _ => throw .malformed
  | fuel + 1, block, indentless => do
    match ← peek with
    | some (.alias anchor) => do
      skip
      match (← get).anchors.lookup anchor with
      | some id => return id
      | none => throw .malformed
    | _ => do
      let (anchor, tag) ← properties
      let following ← peek
      let sequence (members : Build (List Nat)) : Build Nat := do
        let tag := collectionTag tag .sequence
        let id ← add ⟨tag, .sequence []⟩
        name anchor id
        complete id ⟨tag, .sequence (← members)⟩
        return id
      let mapping (members : Build (List (Nat × Nat))) : Build Nat := do
        let tag := collectionTag tag .mapping
        let id ← add ⟨tag, .mapping []⟩
        name anchor id
        complete id ⟨tag, .mapping (← members)⟩
        return id
      match following with
      | some (.scalar plain text) => do
        skip
        let id ← add ⟨scalarTag tag plain text, .scalar text⟩
        name anchor id
        return id
      | some .flowSequenceStart => do
        skip
        sequence (flowItems fuel true)
      | some .flowMappingStart => do
        skip
        mapping (flowEntries fuel true)
      | _ =>
        if indentless && following = some .blockEntry then sequence (indentlessItems fuel)
        else if block && following = some .blockSequenceStart then do
          skip
          sequence (blockItems fuel)
        else if block && following = some .blockMappingStart then do
          skip
          mapping (blockEntries fuel)
        else if anchor.isSome || tag.isSome then do
          let id ← add ⟨scalarTag tag true [], .scalar []⟩
          name anchor id
          return id
        else throw .malformed

/-- The items of a block sequence, up to its end. -/
def blockItems : Nat → Build (List Nat)
  | 0 => throw .malformed
  | fuel + 1 => do
    if ← accept .blockEntry then
      let item ←
        if ← nextIn [.blockEntry, .blockEnd] then addEmpty else node fuel true false
      return item :: (← blockItems fuel)
    else
      expect .blockEnd
      return []

/-- The items of a block sequence that has no start and no end of its own. -/
def indentlessItems : Nat → Build (List Nat)
  | 0 => throw .malformed
  | fuel + 1 => do
    if ← accept .blockEntry then
      let item ←
        if ← nextIn [.blockEntry, .key, .value, .blockEnd] then addEmpty
        else node fuel true false
      return item :: (← indentlessItems fuel)
    else return []

/-- The entries of a block mapping, up to its end.  The value of an entry may be missing, but not
the mark of its key. -/
def blockEntries : Nat → Build (List (Nat × Nat))
  | 0 => throw .malformed
  | fuel + 1 => do
    if ← accept .key then
      let key ← if ← nextIn [.key, .value, .blockEnd] then addEmpty else node fuel true true
      let value ←
        if ← accept .value then
          if ← nextIn [.key, .value, .blockEnd] then addEmpty else node fuel true true
        else addEmpty
      return (key, value) :: (← blockEntries fuel)
    else
      expect .blockEnd
      return []

/-- The items of a flow sequence, up to its end.  An item may be a mapping of one entry without
brackets. -/
def flowItems : Nat → Bool → Build (List Nat)
  | 0, _ => throw .malformed
  | fuel + 1, first => do
    if ← accept .flowSequenceEnd then return []
    if !first then expect .flowEntry
    if ← accept .flowSequenceEnd then return []
    let item ←
      if ← accept .key then do
        let id ← add ⟨.mapping, .mapping []⟩
        let key ←
          if ← nextIn [.value, .flowEntry, .flowSequenceEnd] then addEmpty
          else node fuel false false
        let value ←
          if ← accept .value then
            if ← nextIn [.flowEntry, .flowSequenceEnd] then addEmpty else node fuel false false
          else addEmpty
        complete id ⟨.mapping, .mapping [(key, value)]⟩
        pure id
      else node fuel false false
    return item :: (← flowItems fuel false)

/-- The entries of a flow mapping, up to its end. -/
def flowEntries : Nat → Bool → Build (List (Nat × Nat))
  | 0, _ => throw .malformed
  | fuel + 1, first => do
    if ← accept .flowMappingEnd then return []
    if !first then expect .flowEntry
    if ← accept .flowMappingEnd then return []
    if ← accept .key then
      let key ←
        if ← nextIn [.value, .flowEntry, .flowMappingEnd] then addEmpty
        else node fuel false false
      let value ←
        if ← accept .value then
          if ← nextIn [.flowEntry, .flowMappingEnd] then addEmpty else node fuel false false
        else addEmpty
      return (key, value) :: (← flowEntries fuel false)
    else
      let key ← node fuel false false
      let value ← addEmpty
      return (key, value) :: (← flowEntries fuel false)

end

/-! ## Documents -/

/-- The handles that have a meaning without a directive. -/
def standardHandles : List (List Char × List Char) :=
  [(['!'], ['!']), (['!', '!'], standardTags)]

/-- The handles that the directives define, each of which stands once.  Only the first major version
of the format is read. -/
def directives : Nat → Bool → List (List Char × List Char) →
    Build (List (List Char × List Char))
  | 0, _, _ => throw .malformed
  | fuel + 1, versioned, handles => do
    match ← peek with
    | some (.version major) => do
      skip
      if versioned || major != 1 then throw .malformed
      directives fuel true handles
    | some (.handle name meaning) => do
      skip
      if (handles.lookup name).isSome then throw .malformed
      directives fuel versioned ((name, meaning) :: handles)
    | some .reserved => do
      skip
      directives fuel versioned handles
    | _ => return handles

/-- Passes over all marks of the end of a document. -/
def documentEnds : Nat → Build Unit
  | 0 => throw .malformed
  | fuel + 1 => do
    if ← accept .documentEnd then documentEnds fuel else return ()

/-- Whether a document starts with a directive or a mark. -/
def startsExplicitly : Option Token → Bool
  | some (.version _) | some (.handle ..) | some .reserved | some .documentStart => true
  | _ => false

/-- The outermost node of the only document, if there is one. -/
def document (fuel : Nat) : Build (Option Nat) := do
  let following ← peek
  if following.isNone then return none
  let root ←
    if startsExplicitly following then do
      let handles ← directives fuel false []
      modify fun s => { s with handles := handles ++ standardHandles }
      expect .documentStart
      let following ← peek
      if following.isNone || following = some .documentEnd || startsExplicitly following then
        addEmpty
      else node fuel true false
    else node fuel true false
  documentEnds fuel
  if (← peek).isSome then throw .malformed
  return some root

end Build

/-- The nodes that tokens form, if there is a document.  Each call of `node` and of the functions
for its members goes with a token, or with one of the few calls around a token. -/
def Graph.ofTokens (tokens : List Token) : Except Fault (Option Graph) := do
  let (root, s) ← (Build.document (4 * tokens.length + 8)).run
    ⟨tokens, Build.standardHandles, #[], []⟩
  return root.map fun root => ⟨s.nodes, root⟩

end RingTape.Yaml
