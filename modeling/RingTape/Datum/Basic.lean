import RingTape.Datum.DateTime
import RingTape.Decimal.Binary64

/-!
# Data

The untyped data that reach the library from outside: the values of a document, and settings of any
kind.  Collections of a document may contain themselves.  Such a collection is kept as a finite
tree: each list and mapping has a label, and where the tree would enter a collection that it is
already inside of, it holds a reference `enclosing` to that label instead.  `Datum.view` turns the
tree around so that it starts at a member.
-/

namespace RingTape

open Decimal (Binary64)

/-- A piece of untyped data. -/
inductive Datum where
  | null
  | bool (value : Bool)
  | int (value : Int)
  | float (value : Binary64)
  | text (value : String)
  | bytes (value : List UInt8)
  | date (year month day : Nat)
  | dateTime (value : DateTime)
  /-- A key and its value, as a member of an ordered mapping. -/
  | pair (first second : Datum)
  | list (label : Nat) (items : List Datum)
  | mapping (label : Nat) (entries : List (Datum × Datum))
  | set (items : List Datum)
  /-- The list or mapping with this label, around the place where this stands. -/
  | enclosing (label : Nat) (isMapping : Bool)
  deriving Repr, Inhabited

namespace Datum

/-- The integer that a datum counts as, truth values being zero and one. -/
def int? : Datum → Option Int
  | .bool b => some (if b then 1 else 0)
  | .int n => some n
  | _ => none

/-- Whether two data are the same key of a mapping.  Numbers are compared by value, whatever their
kind; collections are no keys. -/
def sameKey : Datum → Datum → Bool
  | .float x, .float y => x.same y
  | .float x, other => other.int?.any x.isInt
  | other, .float y => other.int?.any y.isInt
  | .null, .null => true
  | .text s, .text t => s == t
  | .bytes a, .bytes b => a == b
  | .date y m d, .date y' m' d' => y == y' && m == m' && d == d'
  | .dateTime a, .dateTime b => a.same b
  | a, b =>
    match a.int?, b.int? with
    | some m, some n => m == n
    | _, _ => false

/-- Whether a datum can be a key. -/
def isKey : Datum → Bool
  | .null | .bool _ | .int _ | .float _ | .text _ | .bytes _ | .date .. | .dateTime _ => true
  | _ => false

/-- Whether a datum counts as absent: the null, the false, a zero, and what is empty. -/
def isEmpty : Datum → Bool
  | .null => true
  | .bool b => !b
  | .int n => n == 0
  | .float x => x.isZero
  | .text s => s.isEmpty
  | .bytes b => b.isEmpty
  | .list _ items => items.isEmpty
  | .mapping _ entries => entries.isEmpty
  | .set items => items.isEmpty
  | .date .. | .dateTime _ | .pair .. | .enclosing .. => false

def isNull : Datum → Bool
  | .null => true
  | _ => false

/-- The entries with one more.  A key that is already there keeps its place and its form, and gets
the new value. -/
def insertEntry (key value : Datum) : List (Datum × Datum) → List (Datum × Datum)
  | [] => [(key, value)]
  | (k, v) :: rest =>
    if k.sameKey key then (k, value) :: rest else (k, v) :: insertEntry key value rest

/-- The entries of a mapping that is written entry by entry. -/
def entriesOf (written : List (Datum × Datum)) : List (Datum × Datum) :=
  written.foldl (fun entries (k, v) => insertEntry k v entries) []

/-- The members of a set that is written member by member. -/
def membersOf (written : List Datum) : List Datum :=
  written.foldl (fun members x => if members.any (·.sameKey x) then members else members ++ [x]) []

/-- The value under a key. -/
def lookup (key : Datum) (entries : List (Datum × Datum)) : Option Datum :=
  (entries.find? fun entry => entry.1.sameKey key).map (·.2)

mutual

/-- The tree with a reference in the place of every collection on the path. -/
def prune (path : List Nat) : Datum → Datum
  | .list label items =>
    if path.contains label then .enclosing label false else .list label (pruneItems path items)
  | .mapping label entries =>
    if path.contains label then .enclosing label true
    else .mapping label (pruneEntries path entries)
  | .pair first second => .pair (prune path first) (prune path second)
  | other => other

def pruneItems (path : List Nat) : List Datum → List Datum
  | [] => []
  | item :: items => prune path item :: pruneItems path items

def pruneEntries (path : List Nat) : List (Datum × Datum) → List (Datum × Datum)
  | [] => []
  | (key, value) :: entries => (key, prune path value) :: pruneEntries path entries

end

def label? : Datum → Option Nat
  | .list label _ | .mapping label _ => some label
  | _ => none

mutual

/-- The tree with `whole` unfolded at every reference to it.  `path` holds the labels around the
tree, below `whole`. -/
def unfoldWithin (whole : Datum) (path : List Nat) : Datum → Datum
  | .enclosing label isMapping =>
    if whole.label? = some label then prune path whole else .enclosing label isMapping
  | .list label items => .list label (unfoldItems whole (label :: path) items)
  | .mapping label entries => .mapping label (unfoldEntries whole (label :: path) entries)
  | .pair first second =>
    .pair (unfoldWithin whole path first) (unfoldWithin whole path second)
  | other => other

def unfoldItems (whole : Datum) (path : List Nat) : List Datum → List Datum
  | [] => []
  | item :: items => unfoldWithin whole path item :: unfoldItems whole path items

def unfoldEntries (whole : Datum) (path : List Nat) :
    List (Datum × Datum) → List (Datum × Datum)
  | [] => []
  | (key, value) :: entries =>
    (key, unfoldWithin whole path value) :: unfoldEntries whole path entries

end

/-- A member of `whole`, as a tree of its own. -/
def view (whole member : Datum) : Datum :=
  unfoldWithin whole [] member

/-- The entries of a mapping, each value as a tree of its own. -/
def entries? (d : Datum) : Option (List (Datum × Datum)) :=
  match d with
  | .mapping _ entries => some (entries.map fun (key, value) => (key, d.view value))
  | _ => none

end Datum

end RingTape
