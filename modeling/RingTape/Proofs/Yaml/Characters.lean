import RingTape.Proofs.Yaml.ScalarText

/-!
# The characters of a text in block style

What is written in block style is written with the characters that a document may hold.
-/

namespace RingTape.Yaml


theorem isInline_written
    {flow : Bool} {w : Written} (hw : w.Legible flow) :
    IsInline w.chars := by
  cases w with
  | plain text =>
      intro c hc
      obtain rfl | hchar := IsWords.chars hw.toIsWords c hc
      · decide
      · exact isInline_of_isPlainChar hchar
  | quoted quote text =>
      have hquote : isInline quote = true := by
        rcases hw.isQuote with rfl | rfl <;> decide
      exact isInline_append.mpr ⟨isInline_cons.mpr ⟨hquote, hw.chars⟩,
        isInline_cons.mpr ⟨hquote, nofun⟩⟩

theorem isInline_flowEntry
    {e : FlowEntry} (he : e.Legible) :
    IsInline e.chars := by
  have hvalue : IsInline (FlowEntry.valueChars e.value) := by
    cases hvalue : e.value with
    | none => nofun
    | some value =>
        rw [FlowEntry.valueChars]
        exact isInline_cons.mpr ⟨by decide, isInline_append.mpr
          ⟨isInline_spaces _, isInline_written (he.value value hvalue)⟩⟩
  rw [FlowEntry.chars, isInline_append, isInline_append, isInline_append]
  exact ⟨isInline_spaces _, isInline_written he.key, hvalue, isInline_spaces _⟩

theorem isInline_flowEntries
    {es : List FlowEntry} (hes : ∀ e ∈ es, e.Legible) :
    IsInline (FlowEntry.charsOf es) := by
  cases es with
  | nil => nofun
  | cons e es =>
      rw [List.forall_mem_cons] at hes
      rw [FlowEntry.charsOf, isInline_append]
      refine ⟨isInline_flowEntry hes.1, fun c hc => ?_⟩
      obtain ⟨e, he, hc⟩ := List.mem_flatMap.mp hc
      exact isInline_cons.mpr ⟨by decide, isInline_flowEntry (hes.2 e he)⟩ c hc

theorem isInline_inline
    {value : Inline} (hvalue : value.Legible) :
    IsInline value.chars := by
  cases value with
  | empty => nofun
  | scalar n value => exact isInline_append.mpr ⟨isInline_spaces _, isInline_written hvalue⟩
  | flow n entries =>
      rw [Inline.chars, isInline_append, isInline_cons, isInline_append, isInline_cons]
      exact ⟨isInline_spaces _, by decide, isInline_flowEntries hvalue, by decide, nofun⟩

/-- A text of characters that a document may hold. -/
def IsAllowed (text : List Char) : Prop :=
  ∀ c ∈ text, isAllowed c = true

theorem isAllowed_append
    {text more : List Char} :
    IsAllowed (text ++ more) ↔ IsAllowed text ∧ IsAllowed more :=
  List.forall_mem_append

theorem IsInline.isAllowed
    {text : List Char} (h : IsInline text) :
    IsAllowed text :=
  fun c hc => isAllowed_of_isInline (h c hc)

theorem isAllowed_pad
    {p : Pad} (hp : p.Legible) :
    IsAllowed p.chars := by
  have hfeed : IsAllowed ['\n'] := by
    intro c hc
    rw [List.eq_of_mem_singleton hc]
    decide
  rw [Pad.chars, isAllowed_append, isAllowed_append]
  refine ⟨(isInline_spaces _).isAllowed, ?_, hfeed⟩
  cases hcomment : p.comment with
  | none => nofun
  | some comment =>
      exact IsInline.isAllowed (isInline_cons.mpr ⟨by decide, hp comment hcomment⟩)

theorem isAllowed_pads
    {pads : List Pad} (hpads : ∀ p ∈ pads, p.Legible) :
    IsAllowed (Pad.charsOf pads) := by
  intro c hc
  obtain ⟨p, hp, hc⟩ := List.mem_flatMap.mp hc
  exact isAllowed_pad (hpads p hp) c hc

/-- The start of a line with an entry. -/
theorem isAllowed_key
    {pads : List Pad} (hpads : ∀ p ∈ pads, p.Legible) {column : Nat} {key : Written}
    (hkey : key.IsKey column) {rest : List Char} (hrest : IsAllowed rest) :
    IsAllowed (Pad.charsOf pads ++ (spaces column ++ (key.chars ++ ':' :: rest))) := by
  rw [isAllowed_append, isAllowed_append, isAllowed_append]
  exact ⟨isAllowed_pads hpads, (isInline_spaces _).isAllowed,
    (isInline_written hkey.legible).isAllowed, List.forall_mem_cons.mpr ⟨by decide, hrest⟩⟩

theorem isAllowed_block
    {b : Block} {column : Nat} (hb : b.Legible column) :
    IsAllowed (b.chars column) := by
  induction b generalizing column with
  | nil => nofun
  | row pads key value tail more ih =>
      obtain ⟨hpads, hkey, hvalue, ⟨htail, -⟩, hmore⟩ := hb
      refine isAllowed_key hpads hkey ?_
      rw [isAllowed_append, isAllowed_append]
      exact ⟨(isInline_inline hvalue).isAllowed, isAllowed_pad htail, ih hmore⟩
  | nest pads key tail inside inner more ihinner ihmore =>
      obtain ⟨hpads, hkey, ⟨htail, -⟩, ⟨-, -, hinner⟩, hmore⟩ := hb
      refine isAllowed_key hpads hkey ?_
      rw [isAllowed_append, isAllowed_append]
      exact ⟨isAllowed_pad htail, ihinner hinner, ihmore hmore⟩

end RingTape.Yaml
