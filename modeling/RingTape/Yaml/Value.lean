import RingTape.Yaml.Node
import RingTape.Yaml.Scalar
import RingTape.Yaml.Token.Lexer

/-!
# Values of documents

The value of a document is read off its nodes.  A mapping may merge the entries of others into its
own, a collection may stand inside of itself, and a fault inside of a collection is found level by
level: first in the members of the outermost node, then in the members of these, and so on.
-/

namespace RingTape.Yaml

def Tag.isCollection : Tag → Bool
  | .sequence | .mapping | .set | .orderedMapping | .pairs => true
  | _ => false

/-- What a collection is made of. -/
inductive Shape where
  | items (ids : List Nat)
  | entries (ids : List (Nat × Nat))
  /-- The members of a set, each with a value that says nothing. -/
  | members (ids : List (Nat × Nat))
  /-- Pairs, and the places where there is no pair. -/
  | pairs (ids : List (Option (Nat × Nat)))
  deriving Repr

/-- A thing to look at inside of a collection. -/
inductive Part where
  | key (id : Nat)
  | member (id : Nat)
  | missing
  deriving DecidableEq, Repr

/-- The parts of a collection in the order in which they are looked at. -/
def Shape.parts : Shape → List Part
  | .items ids => ids.map .member
  | .entries ids | .members ids => ids.flatMap fun (k, v) => [.key k, .member v]
  | .pairs ids => ids.flatMap fun
    | some (k, v) => [.member k, .member v]
    | none => [.missing]

namespace Graph

def node (g : Graph) (id : Nat) : Node :=
  g.nodes[id]?.getD default

/-- A bound on the length of a path that meets no node twice. -/
def depth (g : Graph) : Nat :=
  g.nodes.size + 1

/-! ## Merged entries -/

/-- Whether a key says that other mappings are merged. -/
def isMergeKey (g : Graph) (id : Nat) : Bool :=
  (g.node id).tag = .merge

/-- The entries of a mapping, after those that it merges from others.  Of several mappings that are
merged together the last one comes first.  The mappings on the path are being merged already and
give only what is written in them. -/
def mergedEntries (g : Graph) : Nat → List Nat → Nat → Except Fault (List (Nat × Nat))
  | 0, _, _ => .error .malformed
  | fuel + 1, path, id =>
    match (g.node id).content with
    | .mapping written => do
      let own := written.filter fun entry => !g.isMergeKey entry.1
      if path.contains id then return own
      let merged ← (written.filter fun entry => g.isMergeKey entry.1).mapM fun (_, source) => do
        match (g.node source).content with
        | .sequence sources =>
          return (← sources.mapM (g.mergedEntries fuel (id :: path))).reverse.flatten
        | _ => g.mergedEntries fuel (id :: path) source
      return merged.flatten ++ own
    | _ => .error .malformed

/-! ## Scalars -/

/-- The text of a node, if it has one: that of a scalar, and that of the default value of a
mapping. -/
def text? (g : Graph) : Nat → Nat → Option (List Char)
  | 0, _ => none
  | fuel + 1, id =>
    match (g.node id).content with
    | .scalar text => some text
    | .sequence _ => none
    | .mapping entries =>
      match entries.find? fun entry => (g.node entry.1).tag = .value with
      | some (_, value) => g.text? fuel value
      | none => none

/-- The value of a node that is read from its text, by the given tag. -/
def atom (g : Graph) (tag : Tag) (id : Nat) : Except Fault Datum :=
  match g.text? g.depth id with
  | some text => scalarValue tag text
  | none => .error .malformed

/-- The value of a key.  It is no collection, and the key of a default value is an ordinary one
here. -/
def key (g : Graph) (id : Nat) : Except Fault Datum :=
  match (g.node id).tag with
  | .value => g.atom .text id
  | tag => if tag.isCollection then .error .malformed else g.atom tag id

/-! ## Collections -/

/-- What a collection is made of. -/
def shape (g : Graph) (id : Nat) : Except Fault Shape :=
  let node := g.node id
  let pair (item : Nat) : Option (Nat × Nat) :=
    match (g.node item).content with
    | .mapping [entry] => some entry
    | _ => none
  match node.tag, node.content with
  | .sequence, .sequence items => .ok (.items items)
  | .mapping, _ => .entries <$> g.mergedEntries g.depth [] id
  | .set, _ => .members <$> g.mergedEntries g.depth [] id
  | .orderedMapping, .sequence items | .pairs, .sequence items => .ok (.pairs (items.map pair))
  | _, _ => .error .malformed

/-- Looks at a part, which has to have a value.  A collection is left for later. -/
def examine (g : Graph) : Part → Except Fault (Option Nat)
  | .key id => (fun _ => none) <$> g.key id
  | .member id =>
    let tag := (g.node id).tag
    if tag.isCollection then .ok (some id) else (fun _ => none) <$> g.atom tag id
  | .missing => .error .malformed

/-- Looks at the collections in the queue and at those inside of them, each one once.  `found` holds
those that are in the queue or have been. -/
def survey (g : Graph) : Nat → List Nat → List Nat → Except Fault Unit
  | 0, _, _ => .ok ()
  | _ + 1, _, [] => .ok ()
  | fuel + 1, found, id :: queue => do
    let shape ← g.shape id
    let inside ← shape.parts.mapM g.examine
    let fresh := ((inside.filterMap fun x => x).filter fun x => !found.contains x).eraseDups
    g.survey fuel (found ++ fresh) (queue ++ fresh)

/-- The value of a node inside of the collections on the path. -/
def datum (g : Graph) : Nat → List Nat → Nat → Except Fault Datum
  | 0, _, _ => .error .malformed
  | fuel + 1, path, id =>
    let tag := (g.node id).tag
    if !tag.isCollection then g.atom tag id
    else if path.contains id then .ok (.enclosing id (tag = .mapping))
    else do
      let inside := g.datum fuel (id :: path)
      match ← g.shape id with
      | .items ids => return .list id (← ids.mapM inside)
      | .entries ids =>
        let written ← ids.mapM fun (k, v) => do return (← g.key k, ← inside v)
        return .mapping id (Datum.entriesOf written)
      | .members ids => return .set (Datum.membersOf (← ids.mapM fun (k, _) => g.key k))
      | .pairs ids => .list id <$> ids.mapM fun
        | some (k, v) => do return .pair (← inside k) (← inside v)
        | none => .error .malformed

/-- The value of the outermost node. -/
def value (g : Graph) : Except Fault Datum := do
  match ← g.examine (.member g.root) with
  | none => g.datum g.depth [] g.root
  | some root =>
    g.survey g.depth [root] [root]
    g.datum g.depth [] root

end Graph

/-- The value of the document in a text.  A text without a document has the null. -/
def load (text : List Char) : Except Fault Datum := do
  match ← Graph.ofTokens (tokens text) with
  | none => return .null
  | some g => g.value

end RingTape.Yaml
