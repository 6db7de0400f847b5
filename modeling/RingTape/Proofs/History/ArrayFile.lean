import RingTape.Launch.Outcome
import RingTape.Proofs.Checked
import RingTape.Proofs.Text.Numeral

/-!
# What an array file tells

The header of an array file says how many rows its matrix has, so that histories of different
lengths are never saved in the same bytes.
-/

namespace RingTape

open Text

theorem natText_injective :
    Function.Injective natText := by
  intro m n h
  have hvalue := congrArg (Nat.ofDigitChars 10 · 0) h
  simpa [natText, Nat.ofDigitChars_ten_toDigits] using hvalue

namespace ArrayFile

/-- The character of a byte of ASCII. -/
def asciiChar (b : UInt8) : Char :=
  Char.ofNat b.toNat

theorem toNat_asciiByte
    {c : Char} (h : c.toNat < 128) :
    (UInt8.ofNat c.toNat).toNat = c.toNat := by
  rw [UInt8.toNat_ofNat']
  exact Nat.mod_eq_of_lt (by omega)

theorem map_asciiChar_asciiBytes
    {cs : List Char} (h : ∀ c ∈ cs, c.toNat < 128) :
    (asciiBytes cs).map asciiChar = cs := by
  rw [asciiBytes, List.map_map]
  refine (List.map_congr_left fun c hc => ?_).trans (List.map_id cs)
  rw [Function.comp_apply, asciiChar, toNat_asciiByte (h c hc), Char.ofNat_toNat]
  rfl

/-- The comma after the number of rows. -/
def comma : UInt8 := 44

theorem ne_comma_of_mem_asciiBytes
    {n : Nat} {b : UInt8} (hb : b ∈ asciiBytes (natText n)) :
    b ≠ comma := by
  obtain ⟨c, hc, rfl⟩ := List.mem_map.mp hb
  intro heq
  obtain ⟨hle, -⟩ := toNat_of_isDigit (isDigit_of_mem_natText hc)
  have hvalue := congrArg UInt8.toNat heq
  rw [toNat_asciiByte (lt_of_mem_natText hc)] at hvalue
  change c.toNat = 44 at hvalue
  omega

/-- The header up to the number of rows. -/
def opening : List Char :=
  "\x7b'descr': '<i2', 'fortran_order': False, 'shape': (".toList

/-- The header after the comma that follows the number of rows. -/
def closing (m : Matrix) : List Char :=
  ' ' :: natText m.columns ++ "), \x7d".toList ++
    List.replicate (rowWidth - (natText m.rows).length) ' '

theorem comma_toList :
    ", ".toList = [',', ' '] :=
  rfl

theorem exists_header_eq
    (m : Matrix) :
    ∃ rest, header m = opening ++ (natText m.rows ++ ',' :: rest) := by
  refine ⟨closing m ++ List.replicate (64 - (10 + (description m ++
    List.replicate (rowWidth - (natText m.rows).length) ' ').length + 1) % 64) ' ' ++ ['\n'], ?_⟩
  have hdescription : description m ++ List.replicate (rowWidth - (natText m.rows).length) ' ' =
      opening ++ (natText m.rows ++ ',' :: closing m) := by
    unfold description opening closing
    rw [comma_toList]
    simp only [List.append_assoc, List.cons_append, List.nil_append]
  rw [header, hdescription]
  simp only [List.append_assoc, List.cons_append]

/-- What stands before the number of rows has the same length in every file. -/
theorem exists_bytes_eq
    (m : Matrix) :
    ∃ front rest, front.length = 10 + opening.length ∧
      bytes m = front ++ (asciiBytes (natText m.rows) ++ comma :: rest) := by
  obtain ⟨rest, hheader⟩ := exists_header_eq m
  refine ⟨magic ++ word (header m).length ++ asciiBytes opening,
    asciiBytes rest ++ m.cells.flatten.flatMap cellBytes, ?_, ?_⟩
  · rw [List.length_append, List.length_append, asciiBytes, List.length_map]
    rfl
  · have hascii : asciiBytes (header m) =
        asciiBytes opening ++ (asciiBytes (natText m.rows) ++ comma :: asciiBytes rest) := by
      rw [hheader]
      simp only [asciiBytes, List.map_append, List.map_cons]
      rfl
    rw [bytes, hascii]
    simp only [List.append_assoc, List.cons_append]

/-- Files with the same bytes tell the same number of rows. -/
theorem rows_eq_of_bytes_eq
    {m m' : Matrix} (h : bytes m = bytes m') :
    m.rows = m'.rows := by
  obtain ⟨front, rest, hfront, hm⟩ := exists_bytes_eq m
  obtain ⟨front', rest', hfront', hm'⟩ := exists_bytes_eq m'
  rw [hm, hm'] at h
  obtain ⟨-, hbytes⟩ := List.append_inj h (hfront.trans hfront'.symm)
  have hdigits : asciiBytes (natText m.rows) = asciiBytes (natText m'.rows) := by
    have htake := congrArg (List.takeWhile (· ≠ comma)) hbytes
    have hne : ∀ n, ∀ b ∈ asciiBytes (natText n), decide (b ≠ comma) = true := fun n b hb =>
      decide_eq_true (ne_comma_of_mem_asciiBytes hb)
    rw [List.takeWhile_append_of_pos (hne _), List.takeWhile_append_of_pos (hne _)] at htake
    simpa using htake
  apply natText_injective
  rw [← map_asciiChar_asciiBytes fun _ => lt_of_mem_natText, hdigits,
    map_asciiChar_asciiBytes fun _ => lt_of_mem_natText]

end ArrayFile

theorem rows_of_toMatrix
    {history : History} {encoding : Option Encoding} {m : Matrix} {used : Encoding}
    (h : history.toMatrix encoding = .ok (m, used)) :
    m.rows = history.length := by
  unfold History.toMatrix at h
  split at h
  · cases h
    rfl
  · split at h
    · cases h
    · obtain ⟨cells, -, hresult⟩ := bind_eq_ok_iff.mp h
      cases hresult
      rfl

namespace Launch

/-- Histories that are saved in the same bytes have the same length. -/
theorem length_eq_of_arrayBytes_eq
    {history history' : History} {bytes : List UInt8} (h : arrayBytes history = .ok bytes)
    (h' : arrayBytes history' = .ok bytes) :
    history.length = history'.length := by
  obtain ⟨⟨m, encoding⟩, hm, rfl⟩ := map_eq_ok_iff.mp h
  obtain ⟨⟨m', encoding'⟩, hm', hbytes⟩ := map_eq_ok_iff.mp h'
  rw [← rows_of_toMatrix hm, ← rows_of_toMatrix hm', ArrayFile.rows_eq_of_bytes_eq hbytes]

end Launch

end RingTape
