import RingTape.Proofs.Checked
import RingTape.Proofs.Datum.Labels
import RingTape.Yaml.Value

/-!
# Documents of mappings

A document of mappings within mappings, in which nothing is named and nothing is merged.  Its nodes
are numbered in the order in which they are written, so that the members of a mapping come after it,
and its value is read off row by row.
-/

namespace RingTape.Yaml

/-- A scalar with its tag. -/
structure Leaf where
  tag : Tag
  text : List Char
  deriving DecidableEq, Repr

/-- The entries of a mapping: the value under each key is a scalar, or a mapping again. -/
inductive Rows where
  | nil
  | leaf (key value : Leaf) (rest : Rows)
  | mapping (key : Leaf) (inner rest : Rows)
  deriving Repr

namespace Leaf

/-- The node of a scalar. -/
def node (l : Leaf) : Node :=
  ⟨l.tag, .scalar l.text⟩

/-- What a scalar stands for as a key. -/
def key (l : Leaf) : Except Fault Datum :=
  if l.tag = .value then .ok (.text (String.ofList l.text)) else scalarValue l.tag l.text

/-- What a scalar stands for as a value. -/
def value (l : Leaf) : Except Fault Datum :=
  scalarValue l.tag l.text

end Leaf

namespace Rows

/-- The rows and then others. -/
def append : Rows → Rows → Rows
  | nil, more => more
  | leaf key value rest, more => leaf key value (rest.append more)
  | mapping key inner rest, more => mapping key inner (rest.append more)

/-- How many nodes the rows have. -/
def size : Rows → Nat
  | nil => 0
  | leaf _ _ rest => rest.size + 2
  | mapping _ inner rest => inner.size + rest.size + 2

/-- The numbers of the keys and the values, when the first node has the number `id`. -/
def entries : Nat → Rows → List (Nat × Nat)
  | _, nil => []
  | id, leaf _ _ rest => (id, id + 1) :: rest.entries (id + 2)
  | id, mapping _ inner rest => (id, id + 1) :: rest.entries (id + 2 + inner.size)

/-- The nodes in the order of their numbers. -/
def nodes : Nat → Rows → List Node
  | _, nil => []
  | id, leaf key value rest => key.node :: value.node :: rest.nodes (id + 2)
  | id, mapping key inner rest =>
    key.node :: ⟨.mapping, .mapping (inner.entries (id + 2))⟩ ::
      (inner.nodes (id + 2) ++ rest.nodes (id + 2 + inner.size))

/-- The keys and values that are written, in order. -/
def written : Rows → Except Fault (List (Datum × Datum))
  | nil => .ok []
  | leaf key value rest => do
    let key ← key.key
    let value ← value.value
    return (key, value) :: (← rest.written)
  | mapping key inner rest => do
    let key ← key.key
    let inner ← inner.written
    return (key, .mapping 0 (Datum.entriesOf inner)) :: (← rest.written)

/-- The value of the mapping with these rows. -/
def value (r : Rows) : Except Fault Datum := do
  return .mapping 0 (Datum.entriesOf (← r.written))

/-- The scalars are no collections, and no key asks for other mappings to be merged. -/
def Ordinary : Rows → Prop
  | nil => True
  | leaf key value rest =>
    (key.tag.isCollection = false ∧ key.tag ≠ .merge ∧ value.tag.isCollection = false) ∧
      rest.Ordinary
  | mapping key inner rest =>
    (key.tag.isCollection = false ∧ key.tag ≠ .merge) ∧ inner.Ordinary ∧ rest.Ordinary

theorem length_nodes
    (r : Rows) (id : Nat) :
    (r.nodes id).length = r.size := by
  induction r generalizing id with
  | nil => rfl
  | leaf key value rest ih => rw [nodes, List.length_cons, List.length_cons, ih, size]
  | mapping key inner rest ihInner ihRest =>
      rw [nodes, List.length_cons, List.length_cons, List.length_append, ihInner, ihRest, size]

end Rows

/-! ## Nodes in their places -/

/-- The nodes from number `id` on are these. -/
def Holds (g : Graph) (id : Nat) (nodes : List Node) : Prop :=
  ∀ i < nodes.length, g.nodes[id + i]? = nodes[i]?

variable {g : Graph} {id : Nat}

theorem holds_cons
    {node : Node} {nodes : List Node} (h : Holds g id (node :: nodes)) :
    g.node id = node ∧ Holds g (id + 1) nodes := by
  constructor
  · have hfirst := h 0 (by simp)
    rw [Graph.node]
    simpa using congrArg (Option.getD · default) hfirst
  · intro i hi
    have hnext := h (i + 1) (by simpa using hi)
    rwa [← Nat.add_assoc, Nat.add_right_comm, List.getElem?_cons_succ] at hnext

theorem holds_append
    {nodes more : List Node} (h : Holds g id (nodes ++ more)) :
    Holds g id nodes ∧ Holds g (id + nodes.length) more := by
  constructor
  · intro i hi
    rw [h i (by simp; omega), List.getElem?_append_left hi]
  · intro i hi
    have hnext := h (nodes.length + i) (by simpa using hi)
    rwa [← Nat.add_assoc, List.getElem?_append_right (by omega), Nat.add_sub_cancel_left] at hnext

theorem holds_leaf
    {key value : Leaf} {rest : Rows} (h : Holds g id ((Rows.leaf key value rest).nodes id)) :
    g.node id = key.node ∧ g.node (id + 1) = value.node ∧ Holds g (id + 2) (rest.nodes (id + 2)) := by
  obtain ⟨hkey, h⟩ := holds_cons h
  obtain ⟨hvalue, h⟩ := holds_cons h
  exact ⟨hkey, hvalue, h⟩

theorem holds_mapping
    {key : Leaf} {inner rest : Rows} (h : Holds g id ((Rows.mapping key inner rest).nodes id)) :
    g.node id = key.node ∧
      g.node (id + 1) = ⟨.mapping, .mapping (inner.entries (id + 2))⟩ ∧
      Holds g (id + 2) (inner.nodes (id + 2)) ∧
      Holds g (id + 2 + inner.size) (rest.nodes (id + 2 + inner.size)) := by
  obtain ⟨hkey, h⟩ := holds_cons h
  obtain ⟨hvalue, h⟩ := holds_cons h
  obtain ⟨hinner, hrest⟩ := holds_append h
  rw [Rows.length_nodes] at hrest
  exact ⟨hkey, hvalue, hinner, hrest⟩

/-! ## Scalars -/

theorem atom_of_leaf
    {l : Leaf} (h : g.node id = l.node) (tag : Tag) :
    g.atom tag id = scalarValue tag l.text := by
  rw [Graph.atom, Graph.depth, Graph.text?, h]
  rfl

theorem key_of_leaf
    {l : Leaf} (h : g.node id = l.node) (hl : l.tag.isCollection = false) :
    g.key id = l.key := by
  have htag : (g.node id).tag = l.tag := congrArg Node.tag h
  rw [Graph.key, Leaf.key, htag]
  by_cases hvalue : l.tag = .value
  · rw [hvalue]
    exact atom_of_leaf h .text
  · rw [if_neg hvalue, ← atom_of_leaf h l.tag]
    simp [hl]

theorem datum_of_leaf
    {l : Leaf} (h : g.node id = l.node) (hl : l.tag.isCollection = false) (fuel : Nat)
    (path : List Nat) :
    g.datum (fuel + 1) path id = l.value := by
  have htag : (g.node id).tag = l.tag := congrArg Node.tag h
  rw [Graph.datum]
  dsimp only
  rw [htag, hl]
  exact atom_of_leaf h l.tag

/-! ## Mappings -/

theorem isMergeKey_of_mem_entries
    {r : Rows} (hr : r.Ordinary) (h : Holds g id (r.nodes id)) :
    ∀ entry ∈ r.entries id, g.isMergeKey entry.1 = false := by
  induction r generalizing id with
  | nil => exact nofun
  | leaf key value rest ih =>
      obtain ⟨hkey, -, hrest⟩ := holds_leaf h
      refine List.forall_mem_cons.mpr ⟨?_, ih hr.2 hrest⟩
      rw [Graph.isMergeKey, hkey]
      exact decide_eq_false hr.1.2.1
  | mapping key inner rest _ ih =>
      obtain ⟨hkey, -, -, hrest⟩ := holds_mapping h
      refine List.forall_mem_cons.mpr ⟨?_, ih hr.2.2 hrest⟩
      rw [Graph.isMergeKey, hkey]
      exact decide_eq_false hr.1.2

/-- A mapping without merged ones is made of the entries that are written in it. -/
theorem shape_of_mapping
    {r : Rows} {first : Nat} (hnode : g.node id = ⟨.mapping, .mapping (r.entries first)⟩)
    (hr : r.Ordinary) (h : Holds g first (r.nodes first)) :
    g.shape id = .ok (.entries (r.entries first)) := by
  have hmerge := isMergeKey_of_mem_entries hr h
  have hown : (r.entries first).filter (fun entry => !g.isMergeKey entry.1) = r.entries first := by
    rw [List.filter_eq_self]
    intro entry hentry
    rw [hmerge entry hentry]
    rfl
  have hmerged : (r.entries first).filter (fun entry => g.isMergeKey entry.1) = [] := by
    rw [List.filter_eq_nil_iff]
    intro entry hentry
    rw [hmerge entry hentry]
    exact Bool.false_ne_true
  have hentries : g.mergedEntries g.depth [] id = .ok (r.entries first) := by
    rw [Graph.depth, Graph.mergedEntries, hnode]
    dsimp only
    rw [hown, hmerged]
    rfl
  rw [Graph.shape, hnode]
  dsimp only
  rw [hentries]
  rfl

/-- The key and the value of an entry. -/
def readEntry (g : Graph) (fuel : Nat) (path : List Nat) (entry : Nat × Nat) :
    Except Fault (Datum × Datum) := do
  return (← g.key entry.1, ← g.datum fuel path entry.2)

theorem datum_of_mapping
    {r : Rows} {first : Nat} (hnode : g.node id = ⟨.mapping, .mapping (r.entries first)⟩)
    (hr : r.Ordinary) (h : Holds g first (r.nodes first)) (fuel : Nat) {path : List Nat}
    (hpath : id ∉ path) :
    g.datum (fuel + 1) path id = do
      let written ← (r.entries first).mapM (readEntry g fuel (id :: path))
      return .mapping id (Datum.entriesOf written) := by
  have hnot : path.contains id = false := by simpa using hpath
  rw [Graph.datum, shape_of_mapping hnode hr h, hnode]
  dsimp only
  rw [hnot]
  rfl

theorem isKey_of_intValue
    {text : List Char} {d : Datum} (h : intValue text = .ok d) :
    d.isKey = true := by
  have hmade {x : Except Fault Int} {f : Int → Int}
      (hx : (do let n ← x; return Datum.int (f n)) = .ok d) : d.isKey = true := by
    obtain ⟨n, -, hn⟩ := bind_eq_ok_iff.mp hx
    cases hn
    rfl
  unfold intValue at h
  dsimp only at h
  split at h
  · cases h
  · exact hmade h
  · exact hmade h
  · exact hmade h
  · exact hmade h
  · split at h
    · exact hmade h
    · exact hmade h

theorem isKey_of_floatValue
    {text : List Char} {d : Datum} (h : floatValue text = .ok d) :
    d.isKey = true := by
  have hmade {x : Except Fault Decimal.Binary64} {f : Decimal.Binary64 → Decimal.Binary64}
      (hx : (do let n ← x; return Datum.float (f n)) = .ok d) : d.isKey = true := by
    obtain ⟨n, -, hn⟩ := bind_eq_ok_iff.mp hx
    cases hn
    rfl
  unfold floatValue at h
  dsimp only at h
  split at h
  · cases h
  · split at h
    · exact hmade h
    · split at h
      · exact hmade h
      · split at h
        · obtain ⟨digits, -, hdigits⟩ := bind_eq_ok_iff.mp h
          exact hmade hdigits
        · exact hmade h

theorem Timestamp.isKey_of_value
    {t : Timestamp} {d : Datum} (h : t.value = .ok d) :
    d.isKey = true := by
  unfold Timestamp.value at h
  split at h <;> split at h <;> cases h <;> rfl

theorem isKey_of_dateValue
    {text : List Char} {d : Datum} (h : dateValue text = .ok d) :
    d.isKey = true := by
  unfold dateValue at h
  dsimp only at h
  split at h
  · exact Timestamp.isKey_of_value (mapError_eq_ok_iff.mp h)
  · cases h

/-- A scalar stands for something that can be a key, which no collection can. -/
theorem isKey_of_scalarValue
    {tag : Tag} {text : List Char} {d : Datum} (h : scalarValue tag text = .ok d) :
    d.isKey = true := by
  unfold scalarValue at h
  split at h
  · cases h
    rfl
  · unfold boolValue at h
    dsimp only at h
    split_ifs at h <;> cases h <;> rfl
  · exact isKey_of_intValue h
  · exact isKey_of_floatValue h
  · exact isKey_of_dateValue h
  · unfold binaryValue at h
    split_ifs at h
    split at h
    · cases h
      rfl
    · cases h
  · cases h
    rfl
  · cases h

/-- The entries of a mapping have the keys and the values that are written, but for labels. -/
theorem mapM_readEntry
    {r : Rows} (hr : r.Ordinary) (h : Holds g id (r.nodes id)) {fuel : Nat} {path : List Nat}
    (hpath : ∀ other ∈ path, other < id) (hfuel : r.size < fuel) :
    Datum.unlabeledEntries <$> (r.entries id).mapM (readEntry g fuel path) = r.written := by
  induction r generalizing id fuel path with
  | nil => rfl
  | leaf key value rest ih =>
      obtain ⟨hkey, hvalue, hrest⟩ := holds_leaf h
      rw [Rows.size] at hfuel
      obtain ⟨fuel, rfl⟩ := Nat.exists_eq_succ_of_ne_zero (Nat.ne_zero_of_lt hfuel)
      have hbelow : ∀ other ∈ path, other < id + 2 :=
        fun other hother => Nat.lt_add_right 2 (hpath other hother)
      have hwritten := ih hr.2 hrest hbelow (Nat.lt_of_add_right_lt hfuel)
      rw [Rows.entries, List.mapM_cons, readEntry, key_of_leaf hkey hr.1.1,
        datum_of_leaf hvalue hr.1.2.2, Rows.written, ← hwritten]
      cases key.key with
      | error fault => rfl
      | ok k =>
          cases hv : value.value with
          | error fault => rfl
          | ok v =>
              have hunlabeled : v.unlabeled = v := Datum.unlabeled_of_isKey (isKey_of_scalarValue hv)
              cases (rest.entries (id + 2)).mapM (readEntry g (fuel + 1) path) with
              | error fault => rfl
              | ok others =>
                  exact congrArg (fun d => Except.ok ((k, d) :: Datum.unlabeledEntries others))
                    hunlabeled
  | mapping key inner rest ihInner ih =>
      obtain ⟨hkey, hnode, hinner, hrest⟩ := holds_mapping h
      rw [Rows.size] at hfuel
      obtain ⟨fuel, rfl⟩ := Nat.exists_eq_succ_of_ne_zero (Nat.ne_zero_of_lt hfuel)
      have hbelow : ∀ other ∈ (id + 1) :: path, other < id + 2 := by
        intro other hother
        rcases List.mem_cons.mp hother with rfl | hother
        · omega
        · exact Nat.lt_add_right 2 (hpath other hother)
      have hnot : id + 1 ∉ path := fun hmem => absurd (hpath _ hmem) (by omega)
      have hafter : ∀ other ∈ path, other < id + 2 + inner.size := fun other hother =>
        Nat.lt_add_right inner.size (hbelow other (List.mem_cons_of_mem _ hother))
      have hsizeRest : rest.size < fuel + 1 := by omega
      have hsizeInner : inner.size < fuel := by omega
      have hwritten := ih hr.2.2 hrest hafter hsizeRest
      have hinside := ihInner hr.2.1 hinner hbelow hsizeInner
      rw [Rows.entries, List.mapM_cons, readEntry, key_of_leaf hkey hr.1.1,
        datum_of_mapping hnode hr.2.1 hinner fuel hnot, Rows.written, ← hwritten, ← hinside]
      cases key.key with
      | error fault => rfl
      | ok k =>
          cases (inner.entries (id + 2)).mapM (readEntry g fuel ((id + 1) :: path)) with
          | error fault => rfl
          | ok members =>
              cases (rest.entries (id + 2 + inner.size)).mapM (readEntry g (fuel + 1) path) with
              | error fault => rfl
              | ok others =>
                  exact congrArg (fun ms => Except.ok ((k, .mapping 0 ms) ::
                    Datum.unlabeledEntries others)) (Datum.unlabeledEntries_entriesOf members)

theorem isTree_of_mem_written
    {r : Rows} {written : List (Datum × Datum)} (h : r.written = .ok written) :
    ∀ entry ∈ written, entry.2.isTree = true := by
  induction r generalizing written with
  | nil =>
      cases h
      exact nofun
  | leaf key value rest ih =>
      obtain ⟨k, -, h⟩ := bind_eq_ok_iff.mp h
      obtain ⟨v, hv, h⟩ := bind_eq_ok_iff.mp h
      obtain ⟨others, hothers, h⟩ := bind_eq_ok_iff.mp h
      cases h
      exact List.forall_mem_cons.mpr
        ⟨Datum.isTree_of_isKey (isKey_of_scalarValue hv), ih hothers⟩
  | mapping key inner rest ihInner ih =>
      obtain ⟨k, -, h⟩ := bind_eq_ok_iff.mp h
      obtain ⟨members, hmembers, h⟩ := bind_eq_ok_iff.mp h
      obtain ⟨others, hothers, h⟩ := bind_eq_ok_iff.mp h
      cases h
      exact List.forall_mem_cons.mpr ⟨Datum.isTree_mapping (ihInner hmembers), ih hothers⟩

/-! ## The order in which collections are looked at -/

/-- A node is a mapping all of whose scalars have values. -/
def Sound (g : Graph) (id : Nat) : Prop :=
  ∃ (r : Rows) (first : Nat), g.node id = ⟨.mapping, .mapping (r.entries first)⟩ ∧
    Holds g first (r.nodes first) ∧ r.Ordinary ∧ ∃ written, r.written = .ok written

theorem isTree_of_rows
    {r : Rows} {d : Datum} (h : r.value = .ok d) :
    d.isTree = true := by
  obtain ⟨written, hwritten, hd⟩ := bind_eq_ok_iff.mp h
  cases hd
  exact Datum.isTree_mapping (isTree_of_mem_written hwritten)

theorem examine_key
    {l : Leaf} {d : Datum} (h : g.node id = l.node) (hl : l.tag.isCollection = false)
    (hkey : l.key = .ok d) :
    g.examine (.key id) = .ok none := by
  rw [Graph.examine, key_of_leaf h hl, hkey]
  rfl

theorem examine_member
    {l : Leaf} {d : Datum} (h : g.node id = l.node) (hl : l.tag.isCollection = false)
    (hvalue : l.value = .ok d) :
    g.examine (.member id) = .ok none := by
  have htag : (g.node id).tag = l.tag := congrArg Node.tag h
  have hatom : g.atom l.tag id = .ok d := (atom_of_leaf h l.tag).trans hvalue
  rw [Graph.examine, htag, hl, hatom]
  rfl

/-- Of the parts of a mapping only the mappings in it are left for later. -/
theorem exists_examine
    {r : Rows} (hr : r.Ordinary) (h : Holds g id (r.nodes id)) {written : List (Datum × Datum)}
    (hwritten : r.written = .ok written) :
    ∃ inside, (Shape.entries (r.entries id)).parts.mapM g.examine = .ok inside ∧
      ∀ found, some found ∈ inside → Sound g found := by
  induction r generalizing id written with
  | nil => exact ⟨[], rfl, nofun⟩
  | leaf key value rest ih =>
      obtain ⟨k, hk, hwritten⟩ := bind_eq_ok_iff.mp hwritten
      obtain ⟨v, hv, hwritten⟩ := bind_eq_ok_iff.mp hwritten
      obtain ⟨others, hothers, -⟩ := bind_eq_ok_iff.mp hwritten
      obtain ⟨hkey, hvalue, hrest⟩ := holds_leaf h
      obtain ⟨inside, hinside, hsound⟩ := ih hr.2 hrest hothers
      refine ⟨none :: none :: inside, ?_, ?_⟩
      · rw [mapM_eq_ok_iff] at hinside ⊢
        exact .cons (examine_key hkey hr.1.1 hk) (.cons (examine_member hvalue hr.1.2.2 hv) hinside)
      · intro found hfound
        exact hsound found (by simpa using hfound)
  | mapping key inner rest ihInner ih =>
      obtain ⟨k, hk, hwritten⟩ := bind_eq_ok_iff.mp hwritten
      obtain ⟨members, hmembers, hwritten⟩ := bind_eq_ok_iff.mp hwritten
      obtain ⟨others, hothers, -⟩ := bind_eq_ok_iff.mp hwritten
      obtain ⟨hkey, hnode, hinner, hrest⟩ := holds_mapping h
      obtain ⟨inside, hinside, hsound⟩ := ih hr.2.2 hrest hothers
      refine ⟨none :: some (id + 1) :: inside, ?_, ?_⟩
      · have hmember : g.examine (.member (id + 1)) = .ok (some (id + 1)) := by
          rw [Graph.examine, hnode]
          rfl
        rw [mapM_eq_ok_iff] at hinside ⊢
        exact .cons (examine_key hkey hr.1.1 hk) (.cons hmember hinside)
      · intro found hfound
        have hcases : found = id + 1 ∨ some found ∈ inside := by simpa using hfound
        rcases hcases with rfl | hfound
        · exact ⟨inner, id + 2, hnode, hinner, hr.2.1, members, hmembers⟩
        · exact hsound found hfound

/-- Where all scalars have values nothing is found in looking at the collections. -/
theorem survey_of_sound
    (fuel : Nat) {found queue : List Nat} (hqueue : ∀ id ∈ queue, Sound g id) :
    g.survey fuel found queue = .ok () := by
  induction fuel generalizing found queue with
  | zero => rfl
  | succ fuel ih =>
      cases queue with
      | nil => rfl
      | cons id queue =>
          rw [List.forall_mem_cons] at hqueue
          obtain ⟨⟨r, first, hnode, hholds, hr, written, hwritten⟩, hqueue⟩ := hqueue
          obtain ⟨inside, hinside, hsound⟩ := exists_examine hr hholds hwritten
          rw [Graph.survey, shape_of_mapping hnode hr hholds]
          refine bind_eq_ok_iff.mpr ⟨_, rfl, bind_eq_ok_iff.mpr ⟨inside, hinside, ih ?_⟩⟩
          intro other hother
          rcases List.mem_append.mp hother with hother | hother
          · exact hqueue other hother
          · apply hsound other
            simpa using (List.mem_filter.mp (List.mem_eraseDups.mp hother)).1

/-! ## The value of a document -/

/-- The nodes of a document of mappings, the outermost one first. -/
def Rows.document (r : Rows) : List Node :=
  ⟨.mapping, .mapping (r.entries 1)⟩ :: r.nodes 1

/-- A document of mappings has the value that its rows say, but for labels, if they say one. -/
theorem value_of_rows
    {r : Rows} (hr : r.Ordinary) :
    Datum.unlabeled <$> (Graph.mk r.document.toArray 0).value.toOption = r.value.toOption := by
  let g : Graph := ⟨r.document.toArray, 0⟩
  have hholds : Holds g 0 r.document := by
    intro i _
    rw [Nat.zero_add, List.getElem?_toArray]
  obtain ⟨hnode, hrows⟩ := holds_cons hholds
  have hdepth : g.depth = r.size + 1 + 1 := by
    simp [g, Graph.depth, Rows.document, Rows.length_nodes]
  have hexamine : g.examine (.member 0) = .ok (some 0) := by
    rw [Graph.examine, hnode]
    rfl
  have hpath : ∀ other ∈ [0], other < 0 + 1 := List.forall_mem_singleton.mpr Nat.one_pos
  have hwritten := mapM_readEntry hr hrows hpath (Nat.lt_succ_self r.size)
  have hdatum := datum_of_mapping hnode hr hrows (r.size + 1) (List.not_mem_nil (a := 0))
  have hvalue : g.value = (do g.survey g.depth [0] [0]; g.datum g.depth [] 0) := by
    rw [Graph.value]
    change (g.examine (.member 0) >>= _) = _
    rw [hexamine]
    rfl
  rw [Rows.value, ← hwritten]
  change Datum.unlabeled <$> g.value.toOption = _
  rw [hvalue]
  cases hmembers : (r.entries 1).mapM (readEntry g (r.size + 1) [0]) with
  | error fault =>
      rw [hmembers] at hdatum
      rw [hdepth, hdatum]
      cases g.survey (r.size + 1 + 1) [0] [0] <;> rfl
  | ok members =>
      rw [hmembers] at hwritten hdatum
      have hsound : ∀ id ∈ [0], Sound g id :=
        List.forall_mem_singleton.mpr ⟨r, 1, hnode, hrows, hr, _, hwritten.symm⟩
      rw [survey_of_sound g.depth hsound, hdepth, hdatum]
      exact congrArg (fun ms => some (Datum.mapping 0 ms)) (Datum.unlabeledEntries_entriesOf members)

end RingTape.Yaml
