import RingTape.Proofs.Yaml.Layout
import RingTape.Proofs.Yaml.Nodes

/-!
# The value of a text in block style

What is loaded from a text in block style is the value of its rows, up to the labels of the
mappings.
-/

namespace RingTape.Yaml

/-! ## Rows of lines -/

theorem isCollection_ofPlain
    (text : List Char) :
    (Tag.ofPlain text).isCollection = false := by
  rw [Tag.ofPlain]
  split_ifs <;> rfl

theorem isCollection_leaf
    (w : Written) :
    w.leaf.tag.isCollection = false := by
  cases w with
  | plain text => exact isCollection_ofPlain text
  | quoted quote text => rfl

theorem ordinary_rowsOf
    {es : List FlowEntry} (hes : ∀ e ∈ es, e.Legible) :
    (FlowEntry.rowsOf es).Ordinary := by
  induction es with
  | nil => trivial
  | cons e es ih =>
      rw [List.forall_mem_cons] at hes
      refine ⟨⟨isCollection_leaf e.key, hes.1.unmerged, ?_⟩, ih hes.2⟩
      rw [FlowEntry.leaf]
      cases e.value with
      | none => rfl
      | some value => exact isCollection_leaf value.2

theorem ordinary_row
    {key : Leaf} (hkey : key.tag.isCollection = false ∧ key.tag ≠ .merge) {value : Inline}
    (hvalue : value.Legible) {rest : Rows} (hrest : rest.Ordinary) :
    (value.row key rest).Ordinary := by
  cases value with
  | empty => exact ⟨⟨hkey.1, hkey.2, rfl⟩, hrest⟩
  | scalar n value => exact ⟨⟨hkey.1, hkey.2, isCollection_leaf value⟩, hrest⟩
  | flow n entries => exact ⟨hkey, ordinary_rowsOf hvalue, hrest⟩

theorem ordinary_rows
    {b : Block} {column : Nat} (hb : b.Legible column) :
    b.rows.Ordinary := by
  induction b generalizing column with
  | nil => trivial
  | row pads key value tail more ih =>
      obtain ⟨-, hkey, hvalue, -, hmore⟩ := hb
      exact ordinary_row ⟨isCollection_leaf key, hkey.unmerged⟩ hvalue (ih hmore)
  | nest pads key tail inside inner more ihinner ihmore =>
      obtain ⟨-, hkey, -, ⟨-, -, hinner⟩, hmore⟩ := hb
      exact ⟨⟨isCollection_leaf key, hkey.unmerged⟩, ihinner hinner, ihmore hmore⟩

/-- A text in block style is loaded as the value of its rows. -/
theorem load_block
    {b : Block} (hb : b.Legible 0) (hnil : b.isNil = false)
    {pads : List Pad} (hpads : ∀ p ∈ pads, p.Legible) :
    Datum.unlabeled <$> (load (b.chars 0 ++ Pad.charsOf pads)).toOption =
      b.rows.value.toOption := by
  rw [load, tokens_block hb hnil hpads, ofTokens_block]
  exact value_of_rows (ordinary_rows hb)

/-! ## What is written on the lines -/

theorem Rows.written_append
    (r more : Rows) :
    (r.append more).written = do
      let before ← r.written
      let after ← more.written
      return before ++ after := by
  induction r with
  | nil =>
      rw [Rows.append, Rows.written]
      cases more.written <;> rfl
  | leaf key value rest ih =>
      simp [Rows.append, Rows.written, ih]
  | mapping key inner rest _ ih =>
      simp [Rows.append, Rows.written, ih]

theorem Inline.row_append
    (value : Inline) (key : Leaf) (rest more : Rows) :
    (value.row key rest).append more = value.row key (rest.append more) := by
  cases value <;> rfl

theorem Block.rows_append
    (b more : Block) :
    (b.append more).rows = b.rows.append more.rows := by
  induction b with
  | nil => rfl
  | row pads key value tail rest ih =>
      rw [Block.append, Block.rows, Block.rows, ih, Inline.row_append]
  | nest pads key tail inside inner rest _ ih =>
      rw [Block.append, Block.rows, Block.rows, ih, Rows.append]

/-- What stands after the colon as a datum. -/
def Inline.value : Inline → Except Fault Datum
  | empty => .ok .null
  | scalar _ value => value.leaf.value
  | flow _ entries => (FlowEntry.rowsOf entries).value

theorem Inline.written_row
    (value : Inline) (key : Leaf) (rest : Rows) :
    (value.row key rest).written = do
      let key ← key.key
      let value ← value.value
      return (key, value) :: (← rest.written) := by
  cases value with
  | empty => rfl
  | scalar n value => rfl
  | flow n entries => simp [Inline.row, Inline.value, Rows.written, Rows.value]

variable {keys : List Written} {data : List Datum} {value : Inline}

theorem isTree_of_value
    {d : Datum} (h : value.value = .ok d) :
    d.isTree = true := by
  cases value with
  | empty =>
      cases h
      rfl
  | scalar n value => exact Datum.isTree_of_isKey (isKey_of_scalarValue h)
  | flow n entries => exact isTree_of_rows h

theorem written_lines_of_value
    (hkeys : List.Forall₂ (fun key d => key.leaf.key = .ok d) keys data) {d : Datum}
    (hvalue : value.value = .ok d) (pads : List Pad) (tail : Pad) :
    (Block.lines pads value tail keys).rows.written = .ok (data.map (·, d)) := by
  induction hkeys generalizing pads with
  | nil => rfl
  | cons hkey _ ih =>
      rw [Block.lines, Block.rows, Inline.written_row, hkey, hvalue, ih]
      rfl

/-- Lines with the same value have it under each of their keys. -/
theorem written_lines
    (hne : keys ≠ []) (hkeys : List.Forall₂ (fun key d => key.leaf.key = .ok d) keys data)
    (pads : List Pad) (tail : Pad) :
    (Block.lines pads value tail keys).rows.written =
      (fun d => data.map (·, d)) <$> value.value := by
  cases hvalue : value.value with
  | ok d => exact written_lines_of_value hkeys hvalue pads tail
  | error fault =>
      cases hkeys with
      | nil => exact absurd rfl hne
      | cons hkey _ =>
          rw [Block.lines, Block.rows, Inline.written_row, hkey, hvalue]
          rfl

end RingTape.Yaml
