import RingTape.Proofs.Yaml.Block

/-!
# The nodes of a text in block style

The tokens of lines in block style form the nodes of their rows, in the same order.
-/

namespace RingTape.Yaml

/-- Whether a token is there to see, and not the end of what can be read. -/
def Token.isWhole : Token → Bool
  | .broken _ => false
  | _ => true

/-- Whether a token is a scalar. -/
def Token.isScalar : Token → Bool
  | .scalar .. => true
  | _ => false

namespace Written

theorem isWhole_token
    (w : Written) :
    w.token.isWhole = true := by
  cases w <;> rfl

theorem token_ne
    (w : Written) {t : Token} (ht : t.isScalar = false) :
    w.token ≠ t := by
  rintro rfl
  cases w <;> cases ht

theorem not_contains_token
    (w : Written) {tokens : List Token} (h : ∀ t ∈ tokens, t.isScalar = false) :
    tokens.contains w.token = false := by
  by_contra hcontains
  rw [Bool.not_eq_false, List.contains_iff_mem] at hcontains
  exact w.token_ne (h w.token hcontains) rfl

end Written

namespace Build

/-- A step in reading tokens has a result and a state after it. -/
def Gives {α : Type} (x : Build α) (s : Builder) (a : α) (s' : Builder) : Prop :=
  x.run s = .ok (a, s')

theorem Gives.bind
    {α β : Type} {x : Build α} {f : α → Build β} {s s' s'' : Builder} {a : α} {b : β}
    (h : Gives x s a s') (hf : Gives (f a) s' b s'') :
    Gives (x >>= f) s b s'' := by
  rw [Gives, StateT.run_bind, h]
  exact hf

/-- What is done first decides what is left to do. -/
theorem Gives.bind_iff
    {α β : Type} {x : Build α} {f : α → Build β} {s s' s'' : Builder} {a : α} {b : β}
    (h : Gives x s a s') :
    Gives (x >>= f) s b s'' ↔ Gives (f a) s' b s'' := by
  rw [Gives, StateT.run_bind, h]
  rfl

theorem gives_pure
    {α : Type} (a : α) (s : Builder) :
    Gives (pure a) s a s :=
  rfl

theorem gives_pure_of_eq
    {α : Type} {a b : α} {s s' : Builder} (ha : a = b) (hs : s = s') :
    Gives (pure a) s b s' :=
  ha ▸ hs ▸ gives_pure a s

variable {ts : List Token} {handles : List (List Char × List Char)} {nodes : List Node}
  {anchors : List (List Char × Nat)} {fuel : Nat}

/-- What is known with these tokens ahead. -/
abbrev ahead (ts : List Token) (handles : List (List Char × List Char)) (nodes : List Node)
    (anchors : List (List Char × Nat)) : Builder :=
  ⟨ts, handles, nodes.toArray, anchors⟩

theorem gives_peek
    {t : Token} (ht : t.isWhole = true) :
    Gives peek (ahead (t :: ts) handles nodes anchors) (some t)
      (ahead (t :: ts) handles nodes anchors) := by
  cases t with
  | broken fault => cases ht
  | _ => rfl

theorem gives_accept
    {t : Token} (ht : t.isWhole = true) :
    Gives (accept t) (ahead (t :: ts) handles nodes anchors) true
      (ahead ts handles nodes anchors) := by
  refine (gives_peek ht).bind ?_
  rw [if_pos rfl]
  rfl

theorem gives_accept_of_ne
    {t other : Token} (ht : t.isWhole = true) (hne : t ≠ other) :
    Gives (accept other) (ahead (t :: ts) handles nodes anchors) false
      (ahead (t :: ts) handles nodes anchors) := by
  refine (gives_peek ht).bind ?_
  rw [if_neg (fun heq => hne (Option.some.inj heq))]
  rfl

theorem gives_expect
    {t : Token} (ht : t.isWhole = true) :
    Gives (expect t) (ahead (t :: ts) handles nodes anchors) ()
      (ahead ts handles nodes anchors) := by
  refine (gives_peek ht).bind ?_
  rw [if_pos rfl]
  rfl

theorem gives_nextIn
    {t : Token} (ht : t.isWhole = true) (tokens : List Token) :
    Gives (nextIn tokens) (ahead (t :: ts) handles nodes anchors) (tokens.contains t)
      (ahead (t :: ts) handles nodes anchors) :=
  (gives_peek ht).bind rfl

/-- A step that reads one node off some tokens: it adds the nodes that belong to it, of which the
first one is the node. -/
def ReadsNode (x : Build Nat) (tokens rest : List Token) (added : Nat → List Node) : Prop :=
  ∀ handles nodes anchors, Gives x (ahead tokens handles nodes anchors) nodes.length
    (ahead rest handles (nodes ++ added nodes.length) anchors)

/-- A step that reads rows off some tokens and adds their nodes. -/
def ReadsRows (x : Build (List (Nat × Nat))) (tokens rest : List Token) (r : Rows) : Prop :=
  ∀ handles nodes anchors, Gives x (ahead tokens handles nodes anchors) (r.entries nodes.length)
    (ahead rest handles (nodes ++ r.nodes nodes.length) anchors)

theorem readsNode_empty :
    ReadsNode addEmpty ts ts fun _ => [⟨.null, .scalar []⟩] := by
  intro handles nodes anchors
  rw [ahead, ahead, ← List.push_toArray]
  rfl

theorem readsNode_scalar
    (w : Written) (block indentless : Bool) :
    ReadsNode (node (fuel + 1) block indentless) (w.token :: ts) ts fun _ => [w.leaf.node] := by
  intro handles nodes anchors
  rw [ahead, ahead, ← List.push_toArray]
  cases w with
  | plain text =>
    unfold node
    rfl
  | quoted quote text =>
    unfold node
    rfl

/-! ## A row at a time -/

/-- Rows of which the first one has this key, and a value of `n` nodes. -/
structure StartsWith (whole : Rows) (key : Leaf) (value : Nat → List Node) (n : Nat) (r : Rows) :
    Prop where
  length : ∀ id, (value id).length = n
  entries : ∀ id, whole.entries id = (id, id + 1) :: r.entries (id + 1 + n)
  nodes : ∀ id, whole.nodes id = key.node :: (value (id + 1) ++ r.nodes (id + 1 + n))

theorem startsWith_leaf
    (key value : Leaf) (r : Rows) :
    StartsWith (.leaf key value r) key (fun _ => [value.node]) 1 r :=
  ⟨fun _ => rfl, fun _ => rfl, fun _ => rfl⟩

/-- The nodes of a mapping with these rows, its own one first. -/
def mappingNodes (r : Rows) (id : Nat) : List Node :=
  ⟨.mapping, .mapping (r.entries (id + 1))⟩ :: r.nodes (id + 1)

theorem startsWith_mapping
    (key : Leaf) (inner r : Rows) :
    StartsWith (.mapping key inner r) key (mappingNodes inner) (inner.size + 1) r := by
  have hplace (id : Nat) : id + 1 + (inner.size + 1) = id + 2 + inner.size := by omega
  refine ⟨fun id => ?_, fun id => ?_, fun id => ?_⟩
  · rw [mappingNodes, List.length_cons, Rows.length_nodes]
  · rw [Rows.entries, hplace]
  · rw [Rows.nodes, hplace]
    rfl

/-- After a key and its value the other rows are read. -/
theorem StartsWith.gives
    {whole r : Rows} {key : Leaf} {value : Nat → List Node} {n : Nat}
    (h : StartsWith whole key value n r) {more : Build (List (Nat × Nat))} {tokens rest : List Token}
    (hmore : ReadsRows more tokens rest r) (handles : List (List Char × List Char))
    (nodes : List Node) (anchors : List (List Char × Nat)) :
    Gives (do return (nodes.length, (nodes ++ [key.node]).length) :: (← more))
      (ahead tokens handles
        (nodes ++ [key.node] ++ value (nodes ++ [key.node]).length) anchors)
      (whole.entries nodes.length)
      (ahead rest handles (nodes ++ whole.nodes nodes.length) anchors) := by
  have hlength : (nodes ++ [key.node]).length = nodes.length + 1 := by
    rw [List.length_append, List.length_singleton]
  have hnext : (nodes ++ [key.node] ++ value (nodes.length + 1)).length = nodes.length + 1 + n := by
    rw [List.length_append, h.length, hlength]
  rw [hlength]
  refine (hmore handles _ anchors).bind (gives_pure_of_eq ?_ ?_)
  · rw [hnext, h.entries]
  · rw [hnext, h.nodes]
    simp

/-! ## Mappings between braces -/

theorem isWhole_token
    {e : FlowEntry} {t : Token} {rest : List Token} (h : e.tokens = t :: rest) :
    t.isWhole = true ∧ t ≠ .flowMappingEnd := by
  rw [FlowEntry.tokens] at h
  split at h
  · cases h
    exact ⟨e.key.isWhole_token, e.key.token_ne rfl⟩
  · cases h
    exact ⟨rfl, nofun⟩

theorem exists_tokens_eq_cons
    (e : FlowEntry) :
    ∃ t rest, e.tokens = t :: rest := by
  rw [FlowEntry.tokens]
  split
  · exact ⟨_, _, rfl⟩
  · exact ⟨_, _, rfl⟩

/-- Before every entry but the first one a comma is passed over. -/
theorem gives_flowEntries_of_comma
    {t : Token} (ht : t.isWhole = true) (hend : t ≠ .flowMappingEnd) {entries : List (Nat × Nat)}
    {s : Builder}
    (h : Gives (flowEntries fuel true) (ahead (t :: ts) handles nodes anchors) entries s) :
    Gives (flowEntries fuel false) (ahead (.flowEntry :: t :: ts) handles nodes anchors) entries
      s := by
  cases fuel with
  | zero => cases h
  | succ fuel =>
      unfold flowEntries at h ⊢
      refine (gives_accept_of_ne (by rfl) (by decide)).bind ?_
      refine (gives_expect (by rfl)).bind ?_
      exact (gives_accept_of_ne ht hend).bind_iff.mp h

theorem readsRows_flowEnd
    (first : Bool) :
    ReadsRows (flowEntries (fuel + 1) first) (.flowMappingEnd :: ts) ts .nil := by
  intro handles nodes anchors
  unfold flowEntries
  rw [Rows.nodes, List.append_nil]
  exact (gives_accept (by rfl)).bind (gives_pure _ _)

/-- What is left after an entry starts with a comma, or it is the end. -/
theorem readsRows_flowRest
    {es : List FlowEntry}
    (h : ReadsRows (flowEntries (fuel + 1) true) (FlowEntry.tokensOf es ++ .flowMappingEnd :: ts) ts
      (FlowEntry.rowsOf es)) :
    ReadsRows (flowEntries (fuel + 1) false)
      ((es.flatMap fun e => .flowEntry :: e.tokens) ++ .flowMappingEnd :: ts) ts
      (FlowEntry.rowsOf es) := by
  cases es with
  | nil => exact readsRows_flowEnd false
  | cons e es =>
      intro handles nodes anchors
      obtain ⟨t, more, htokens⟩ := exists_tokens_eq_cons e
      obtain ⟨hwhole, hend⟩ := isWhole_token htokens
      have hnext := h handles nodes anchors
      rw [FlowEntry.tokensOf, htokens] at hnext
      rw [List.flatMap_cons, htokens]
      exact gives_flowEntries_of_comma hwhole hend hnext

/-- The entries of a mapping between braces are read as their rows. -/
theorem readsRows_flowEntries
    (es : List FlowEntry) (hfuel : es.length + 1 < fuel) :
    ReadsRows (flowEntries fuel true) (FlowEntry.tokensOf es ++ .flowMappingEnd :: ts) ts
      (FlowEntry.rowsOf es) := by
  induction es generalizing fuel with
  | nil =>
      obtain ⟨fuel, rfl⟩ := Nat.exists_eq_succ_of_ne_zero (Nat.ne_zero_of_lt hfuel)
      exact readsRows_flowEnd true
  | cons e es ih =>
      rw [List.length_cons] at hfuel
      obtain ⟨fuel, rfl⟩ : ∃ n, fuel = n + 2 := ⟨fuel - 2, by omega⟩
      have hrest := readsRows_flowRest (ih (Nat.lt_of_add_lt_add_right hfuel))
      intro handles nodes anchors
      unfold flowEntries
      cases hvalue : e.value with
      | none =>
          have htokens : e.tokens = [e.key.token] := by rw [FlowEntry.tokens, hvalue]
          have hleaf : e.leaf = ⟨.null, []⟩ := by rw [FlowEntry.leaf, hvalue]
          have hstart := startsWith_leaf e.key.leaf ⟨.null, []⟩ (FlowEntry.rowsOf es)
          rw [FlowEntry.tokensOf, htokens, FlowEntry.rowsOf, hleaf]
          refine (gives_accept_of_ne e.key.isWhole_token (e.key.token_ne rfl)).bind ?_
          refine (gives_accept_of_ne e.key.isWhole_token (e.key.token_ne rfl)).bind ?_
          refine (gives_accept_of_ne e.key.isWhole_token (e.key.token_ne rfl)).bind ?_
          refine (readsNode_scalar e.key false false handles nodes anchors).bind ?_
          refine (readsNode_empty handles _ anchors).bind ?_
          exact hstart.gives hrest handles nodes anchors
      | some written =>
          obtain ⟨n, value⟩ := written
          have htokens : e.tokens = [.key, e.key.token, .value, value.token] := by
            rw [FlowEntry.tokens, hvalue]
          have hleaf : e.leaf = value.leaf := by rw [FlowEntry.leaf, hvalue]
          have hstart := startsWith_leaf e.key.leaf value.leaf (FlowEntry.rowsOf es)
          rw [FlowEntry.tokensOf, htokens, FlowEntry.rowsOf, hleaf]
          refine (gives_accept_of_ne (by rfl) (by decide)).bind ?_
          refine (gives_accept_of_ne (by rfl) (by decide)).bind ?_
          refine (gives_accept (by rfl)).bind ?_
          refine (gives_nextIn e.key.isWhole_token _).bind ?_
          rw [e.key.not_contains_token (by decide)]
          refine (readsNode_scalar e.key false false handles nodes anchors).bind ?_
          refine (gives_accept (by rfl)).bind ?_
          refine (gives_nextIn value.isWhole_token _).bind ?_
          rw [value.not_contains_token (by decide)]
          refine (readsNode_scalar value false false handles _ anchors).bind ?_
          exact hstart.gives hrest handles nodes anchors

/-! ## Mappings as nodes -/

/-- A mapping gets its node before its members are read, and its members afterwards. -/
theorem gives_mapping
    {members : Build (List (Nat × Nat))} {r : Rows} {tokens rest : List Token}
    (h : ReadsRows members tokens rest r) :
    ReadsNode (do
        let id ← add ⟨.mapping, .mapping []⟩
        name none id
        complete id ⟨.mapping, .mapping (← members)⟩
        return id)
      tokens rest (mappingNodes r) := by
  intro handles nodes anchors
  have hadd : Gives (add ⟨.mapping, .mapping []⟩) (ahead tokens handles nodes anchors) nodes.length
      (ahead tokens handles (nodes ++ [⟨.mapping, .mapping []⟩]) anchors) := by
    rw [ahead, ahead, ← List.push_toArray]
    rfl
  refine hadd.bind ?_
  refine (gives_pure () _).bind ?_
  refine (h handles _ anchors).bind ?_
  have hset : (nodes ++ [(⟨.mapping, .mapping []⟩ : Node)] ++ r.nodes (nodes.length + 1)).set
        nodes.length ⟨.mapping, .mapping (r.entries (nodes.length + 1))⟩ =
      nodes ++ mappingNodes r nodes.length := by
    simp [mappingNodes]
  have hcomplete : Gives (complete nodes.length
        ⟨.mapping, .mapping (r.entries (nodes.length + 1))⟩)
      (ahead rest handles (nodes ++ [⟨.mapping, .mapping []⟩] ++ r.nodes (nodes.length + 1)) anchors)
      () (ahead rest handles (nodes ++ mappingNodes r nodes.length) anchors) := by
    rw [ahead, ahead, ← hset, ← List.setIfInBounds_toArray]
    rfl
  rw [List.length_append]
  exact hcomplete.bind (gives_pure _ _)

theorem readsNode_block
    {r : Rows} {tokens rest : List Token} (h : ReadsRows (blockEntries fuel) tokens rest r)
    (indentless : Bool) :
    ReadsNode (node (fuel + 1) true indentless) (.blockMappingStart :: tokens) rest
      (mappingNodes r) := by
  intro handles nodes anchors
  have hmapping := gives_mapping h handles nodes anchors
  unfold node
  cases indentless
  · exact hmapping
  · exact hmapping

theorem readsNode_flow
    {r : Rows} {tokens rest : List Token} (h : ReadsRows (flowEntries fuel true) tokens rest r)
    (block indentless : Bool) :
    ReadsNode (node (fuel + 1) block indentless) (.flowMappingStart :: tokens) rest
      (mappingNodes r) := by
  intro handles nodes anchors
  have hmapping := gives_mapping h handles nodes anchors
  unfold node
  exact hmapping

/-! ## Lines -/

theorem length_le_tokensOf
    (es : List FlowEntry) :
    es.length ≤ (FlowEntry.tokensOf es).length := by
  have hmore : ∀ es : List FlowEntry,
      es.length ≤ (es.flatMap fun e => Token.flowEntry :: e.tokens).length := by
    intro es
    induction es with
    | nil => exact Nat.le_refl 0
    | cons e es ih =>
        rw [List.flatMap_cons, List.length_append, List.length_cons, List.length_cons]
        omega
  cases es with
  | nil => exact Nat.le_refl 0
  | cons e es =>
      obtain ⟨t, rest, htokens⟩ := exists_tokens_eq_cons e
      have hes := hmore es
      rw [FlowEntry.tokensOf, htokens, List.length_append, List.length_cons, List.length_cons]
      omega

/-- The tokens of a block and the end after it start with a key, or the block is at its end. -/
theorem exists_tokens_eq
    (b : Block) (ts : List Token) :
    ∃ t more, b.tokens ++ .blockEnd :: ts = t :: more ∧ (t = .key ∨ t = .blockEnd) := by
  cases b with
  | nil => exact ⟨_, _, rfl, .inr rfl⟩
  | row pads key value tail rest => exact ⟨_, _, rfl, .inl rfl⟩
  | nest pads key tail inside inner rest => exact ⟨_, _, rfl, .inl rfl⟩

/-- The entry of a block is read off its key and its value. -/
theorem readsRows_blockEntry
    {whole r : Rows} {key : Written} {value : Nat → List Node} {n : Nat}
    (hstart : StartsWith whole key.leaf value n r) {t : Token} (ht : t.isWhole = true)
    {tokens rest : List Token}
    (hvalue : ReadsNode (if [.key, .value, .blockEnd].contains t then addEmpty
      else node (fuel + 1) true true) (t :: tokens) rest value)
    (hrest : ReadsRows (blockEntries (fuel + 1)) rest ts r) :
    ReadsRows (blockEntries (fuel + 2)) (.key :: key.token :: .value :: t :: tokens) ts whole := by
  intro handles nodes anchors
  unfold blockEntries
  refine (gives_accept (by rfl)).bind ?_
  refine (gives_nextIn key.isWhole_token _).bind ?_
  rw [key.not_contains_token (by decide)]
  refine (readsNode_scalar key true true handles nodes anchors).bind ?_
  refine (gives_accept (by rfl)).bind ?_
  refine (gives_nextIn ht _).bind ?_
  have hgives := hstart.gives hrest handles nodes anchors
  by_cases hend : [Token.key, .value, .blockEnd].contains t = true
  · rw [if_pos hend] at hvalue ⊢
    exact (hvalue handles _ anchors).bind hgives
  · rw [if_neg hend] at hvalue ⊢
    exact (hvalue handles _ anchors).bind hgives

/-- The lines of a block are read as its rows. -/
theorem readsRows_blockEntries
    (b : Block) (hfuel : b.tokens.length + 1 < fuel) :
    ReadsRows (blockEntries fuel) (b.tokens ++ .blockEnd :: ts) ts b.rows := by
  induction b generalizing fuel ts with
  | nil =>
      obtain ⟨fuel, rfl⟩ := Nat.exists_eq_succ_of_ne_zero (Nat.ne_zero_of_lt hfuel)
      intro handles nodes anchors
      unfold blockEntries
      rw [Block.rows, Rows.nodes, List.append_nil]
      refine (gives_accept_of_ne (by rfl) (by decide)).bind ?_
      exact (gives_expect (by rfl)).bind (gives_pure _ _)
  | row pads key value tail rest ih =>
      rw [Block.tokens, List.length_cons, List.length_cons, List.length_cons,
        List.length_append] at hfuel
      obtain ⟨fuel, rfl⟩ : ∃ n, fuel = n + 3 := ⟨fuel - 3, by omega⟩
      have hrest : ReadsRows (blockEntries (fuel + 2)) (rest.tokens ++ .blockEnd :: ts) ts
        rest.rows := ih (by omega)
      rw [Block.tokens, List.cons_append, List.cons_append, List.cons_append, List.append_assoc]
      cases value with
      | empty =>
          obtain ⟨t, more, htokens, ht⟩ := exists_tokens_eq rest ts
          have hwhole : t.isWhole = true := by
            rcases ht with rfl | rfl <;> rfl
          have hnext : [Token.key, .value, .blockEnd].contains t = true := by
            rcases ht with rfl | rfl <;> rfl
          rw [Inline.tokens, List.nil_append]
          rw [htokens] at hrest ⊢
          refine readsRows_blockEntry (startsWith_leaf _ _ _) hwhole ?_ hrest
          rw [hnext]
          exact readsNode_empty
      | scalar n written =>
          refine readsRows_blockEntry (startsWith_leaf _ _ _) written.isWhole_token ?_ hrest
          rw [written.not_contains_token (by decide)]
          exact readsNode_scalar written true true
      | flow n entries =>
          have hlength := length_le_tokensOf entries
          rw [Inline.tokens, List.length_cons, List.length_append, List.length_singleton] at hfuel
          have hentries : ReadsRows (flowEntries (fuel + 1) true)
              (FlowEntry.tokensOf entries ++ .flowMappingEnd :: (rest.tokens ++ .blockEnd :: ts))
              (rest.tokens ++ .blockEnd :: ts) (FlowEntry.rowsOf entries) :=
            readsRows_flowEntries entries (by omega)
          rw [Inline.tokens, List.cons_append, List.append_assoc]
          exact readsRows_blockEntry (startsWith_mapping _ _ _) (by rfl)
            (readsNode_flow hentries true true) hrest
  | nest pads key tail inside inner rest ihInner ih =>
      rw [Block.tokens] at hfuel
      simp only [List.length_cons, List.length_append] at hfuel
      obtain ⟨fuel, rfl⟩ : ∃ n, fuel = n + 3 := ⟨fuel - 3, by omega⟩
      have hrest : ReadsRows (blockEntries (fuel + 2)) (rest.tokens ++ .blockEnd :: ts) ts
        rest.rows := ih (by omega)
      have hinner : ReadsRows (blockEntries (fuel + 1))
          (inner.tokens ++ .blockEnd :: (rest.tokens ++ .blockEnd :: ts))
          (rest.tokens ++ .blockEnd :: ts) inner.rows := ihInner (by omega)
      rw [Block.tokens, List.cons_append, List.cons_append, List.cons_append, List.cons_append,
        List.append_assoc]
      exact readsRows_blockEntry (startsWith_mapping _ _ _) (by rfl) (readsNode_block hinner true)
        hrest

end Build

/-- The tokens of a block form a document of its rows. -/
theorem ofTokens_block
    (b : Block) :
    Graph.ofTokens (.blockMappingStart :: (b.tokens ++ [.blockEnd])) =
      .ok (some ⟨b.rows.document.toArray, 0⟩) := by
  let start : Builder :=
    ⟨.blockMappingStart :: (b.tokens ++ [.blockEnd]), Build.standardHandles, #[], []⟩
  obtain ⟨fuel, hfuel, hlarge⟩ : ∃ fuel,
      4 * (Token.blockMappingStart :: (b.tokens ++ [.blockEnd])).length + 8 = fuel + 2 ∧
        b.tokens.length + 1 < fuel + 1 := by
    refine ⟨4 * (b.tokens.length + 2) + 6, ?_, by omega⟩
    simp
  have hrows : Build.ReadsRows (Build.blockEntries (fuel + 1)) (b.tokens ++ [.blockEnd]) [] b.rows :=
    Build.readsRows_blockEntries b hlarge
  have hnode := Build.readsNode_block hrows false Build.standardHandles [] []
  have hdocument : Build.Gives (Build.document (fuel + 2)) start (some 0)
      ⟨[], Build.standardHandles, b.rows.document.toArray, []⟩ := by
    have hpeek : Build.Gives Build.peek start (some .blockMappingStart) start := rfl
    refine hpeek.bind ?_
    refine hnode.bind ?_
    rfl
  rw [Graph.ofTokens, hfuel]
  change (Build.document (fuel + 2) start >>= _) = _
  rw [show Build.document (fuel + 2) start = _ from hdocument]
  rfl

end RingTape.Yaml
