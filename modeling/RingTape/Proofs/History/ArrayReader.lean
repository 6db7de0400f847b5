import RingTape.Proofs.History.ArrayFile
import Mathlib.Data.List.Basic
import Mathlib.Data.Nat.Digits.Defs

/-!
# Array files read back

An array file is read from its front to its end: the mark, the length of the header, the header with
the numbers of rows and columns, and then the cells, row by row.  What is written for a matrix is
read back as the same matrix, as long as two bytes can tell the length of its header.
-/

namespace RingTape

open Text

/-- The cells make up as many rows and columns as the matrix tells, and fit into sixteen bits. -/
structure Matrix.IsSound (m : Matrix) : Prop where
  rows : m.cells.length = m.rows
  columns : ∀ row ∈ m.cells, row.length = m.columns
  fits : ∀ row ∈ m.cells, ∀ n ∈ row, -History.cellBound ≤ n ∧ n < History.cellBound

namespace ArrayFile

/-! ## Reading -/

/-- The number in the first two bytes, low byte first, and the bytes after them. -/
def readWord : List UInt8 → Option (Nat × List UInt8)
  | low :: high :: rest => some (low.toNat + 256 * high.toNat, rest)
  | _ => none

/-- The cell in the first two bytes, in two's complement, and the bytes after them. -/
def readCell (bytes : List UInt8) : Option (Int × List UInt8) :=
  (readWord bytes).map fun (n, rest) => ((n : Int).bmod 65536, rest)

/-- A number of values, one after the other, and the bytes after them. -/
def readMany {α : Type} (read : List UInt8 → Option (α × List UInt8)) :
    Nat → List UInt8 → Option (List α × List UInt8)
  | 0, bytes => some ([], bytes)
  | count + 1, bytes => do
    let (first, rest) ← read bytes
    let (others, rest) ← readMany read count rest
    return (first :: others, rest)

/-- The number that a text starts with, and the text after it. -/
def readNumber (text : List Char) : Nat × List Char :=
  (Nat.ofDigitChars 10 (text.takeWhile Char.isDigit) 0, text.dropWhile Char.isDigit)

/-- The numbers of rows and columns that a header tells. -/
def shape? (text : List Char) : Option (Nat × Nat) := do
  let rest ← text.dropPrefix? opening
  let (rows, rest) := readNumber rest
  let rest ← rest.dropPrefix? ", ".toList
  let (columns, rest) := readNumber rest
  let rest ← rest.dropPrefix? "), \x7d".toList
  if rest.dropWhile (· == ' ') = ['\n'] then some (rows, columns) else none

/-- The header of a file, and the bytes after it. -/
def parts? (bytes : List UInt8) : Option (List Char × List UInt8) := do
  let rest ← bytes.dropPrefix? magic
  let (length, rest) ← readWord rest
  if length ≤ rest.length then some ((rest.take length).map asciiChar, rest.drop length) else none

/-- The matrix in a file. -/
def read? (bytes : List UInt8) : Option Matrix := do
  let (text, rest) ← parts? bytes
  let (rows, columns) ← shape? text
  let (cells, rest) ← readMany (readMany readCell columns) rows rest
  if rest = [] then some ⟨rows, columns, cells⟩ else none

/-! ## Cells -/

theorem readWord_word
    {n : Nat} (h : n < 65536) (rest : List UInt8) :
    readWord (word n ++ rest) = some (n, rest) := by
  have hvalue : (UInt8.ofNat (n % 256)).toNat + 256 * (UInt8.ofNat (n / 256 % 256)).toNat = n := by
    rw [UInt8.toNat_ofNat', UInt8.toNat_ofNat']
    omega
  simp only [word, List.cons_append, List.nil_append, readWord, hvalue]

theorem readCell_cellBytes
    {n : Int} (h : -History.cellBound ≤ n ∧ n < History.cellBound) (rest : List UInt8) :
    readCell (cellBytes n ++ rest) = some (n, rest) := by
  rw [History.cellBound] at h
  have hlow : 0 ≤ n.emod 65536 := Int.emod_nonneg n (by decide)
  have hword : (n.emod 65536).toNat < 65536 := by
    have hlt : n.emod 65536 < 65536 := Int.emod_lt_of_pos n (by decide)
    omega
  have hcell : (((n.emod 65536).toNat : Int)).bmod 65536 = n := by
    rw [Int.toNat_of_nonneg hlow]
    exact (Int.emod_bmod n 65536).trans (Int.bmod_eq_of_le (by omega) (by omega))
  rw [readCell, cellBytes, readWord_word hword, Option.map_some]
  dsimp only
  rw [hcell]

theorem length_cellBytes
    (n : Int) :
    (cellBytes n).length = 2 :=
  rfl

/-- Values that are written one after the other are read one after the other. -/
theorem readMany_flatMap
    {α : Type} {read : List UInt8 → Option (α × List UInt8)} {write : α → List UInt8} {as : List α}
    (h : ∀ a ∈ as, ∀ rest, read (write a ++ rest) = some (a, rest)) (rest : List UInt8) :
    readMany read as.length (as.flatMap write ++ rest) = some (as, rest) := by
  induction as with
  | nil => rfl
  | cons a as ih =>
      rw [List.forall_mem_cons] at h
      rw [List.length_cons, readMany, List.flatMap_cons, List.append_assoc, h.1]
      simp [ih h.2]

theorem readMany_cells
    {m : Matrix} (h : m.IsSound) :
    readMany (readMany readCell m.columns) m.rows (m.cells.flatten.flatMap cellBytes) =
      some (m.cells, []) := by
  have hrows : ∀ row ∈ m.cells, ∀ rest,
      readMany readCell m.columns (row.flatMap cellBytes ++ rest) = some (row, rest) := by
    intro row hrow rest
    rw [← h.columns row hrow]
    exact readMany_flatMap (fun n hn => readCell_cellBytes (h.fits row hrow n hn)) rest
  have hcells := readMany_flatMap hrows []
  rwa [h.rows, List.append_nil, ← List.flatMap_assoc, List.flatMap_id'] at hcells

theorem length_cells
    {m : Matrix} (h : m.IsSound) :
    (m.cells.flatten.flatMap cellBytes).length = 2 * m.rows * m.columns := by
  have hlengths : m.cells.map List.length = List.replicate m.rows m.columns := by
    rw [List.eq_replicate_iff, List.length_map, List.forall_mem_map]
    exact ⟨h.rows, h.columns⟩
  have hcells : m.cells.flatten.length = m.rows * m.columns := by
    rw [List.length_flatten, hlengths, List.sum_replicate_nat]
  have hbytes : m.cells.flatten.map (fun n => (cellBytes n).length) =
      List.replicate (m.rows * m.columns) 2 := by
    rw [List.eq_replicate_iff, List.length_map, List.forall_mem_map]
    exact ⟨hcells, fun n _ => length_cellBytes n⟩
  rw [List.length_flatMap, hbytes, List.sum_replicate_nat, Nat.mul_comm, Nat.mul_assoc]

/-! ## The header -/

theorem readNumber_natText
    (n : Nat) {c : Char} (h : c.isDigit = false) (rest : List Char) :
    readNumber (natText n ++ c :: rest) = (n, c :: rest) := by
  have hdigits : ∀ c ∈ natText n, c.isDigit = true := fun _ => isDigit_of_mem_natText
  have hvalue : Nat.ofDigitChars 10 (natText n) 0 = n := Nat.ofDigitChars_ten_toDigits
  have hstop : ¬ c.isDigit = true := by rw [h]; exact Bool.false_ne_true
  rw [readNumber, List.takeWhile_append_of_pos hdigits, List.dropWhile_append_of_pos hdigits,
    List.takeWhile_cons_of_neg hstop, List.dropWhile_cons_of_neg hstop, List.append_nil, hvalue]

theorem description_eq
    (m : Matrix) :
    description m = opening ++ (natText m.rows ++ (", ".toList ++ (natText m.columns ++
      "), \x7d".toList))) := by
  unfold description opening
  simp only [List.append_assoc]

/-- Behind what it says the header holds spaces and a line feed. -/
theorem exists_header_eq_description
    (m : Matrix) :
    ∃ count, header m = description m ++ (List.replicate count ' ' ++ ['\n']) := by
  refine ⟨(rowWidth - (natText m.rows).length) + (64 - (10 + (description m ++
    List.replicate (rowWidth - (natText m.rows).length) ' ').length + 1) % 64), ?_⟩
  rw [List.replicate_add, header]
  simp only [List.append_assoc]

theorem shape?_header
    (m : Matrix) :
    shape? (header m) = some (m.rows, m.columns) := by
  have hdrop (front rest : List Char) : (front ++ rest).dropPrefix? front = some rest :=
    List.dropPrefix?_append_of_beq rest (beq_self_eq_true front)
  obtain ⟨count, hheader⟩ := exists_header_eq_description m
  have hspaces : (List.replicate count ' ' ++ ['\n']).dropWhile (· == ' ') = ['\n'] := by
    rw [List.dropWhile_append_of_pos (by simp)]
    rfl
  have hrows (rest : List Char) :
      readNumber (natText m.rows ++ (", ".toList ++ rest)) = (m.rows, ", ".toList ++ rest) :=
    readNumber_natText m.rows rfl _
  have hcolumns (rest : List Char) :
      readNumber (natText m.columns ++ ("), \x7d".toList ++ rest)) =
        (m.columns, "), \x7d".toList ++ rest) :=
    readNumber_natText m.columns rfl _
  rw [hheader, description_eq]
  simp only [List.append_assoc, shape?, hdrop, hrows, hcolumns, hspaces, Option.bind_eq_bind,
    Option.bind_some, if_true]

theorem lt_of_mem_header
    {m : Matrix} {c : Char} (h : c ∈ header m) :
    c.toNat < 128 := by
  obtain ⟨count, hheader⟩ := exists_header_eq_description m
  have hascii {text : List Char} (htext : (text.all fun c => c.toNat < 128) = true) :
      ∀ c ∈ text, c.toNat < 128 :=
    fun c hc => of_decide_eq_true (List.all_eq_true.mp htext c hc)
  rw [hheader, description_eq] at h
  simp only [List.mem_append, List.mem_replicate, List.mem_singleton] at h
  rcases h with (h | h | h | h | h) | ⟨-, rfl⟩ | rfl
  · exact hascii rfl c h
  · exact lt_of_mem_natText h
  · exact hascii rfl c h
  · exact lt_of_mem_natText h
  · exact hascii rfl c h
  · decide
  · decide

/-- The header, with the ten bytes before it, fills whole blocks of sixty-four bytes. -/
theorem dvd_length_header
    (m : Matrix) :
    64 ∣ 10 + (header m).length := by
  rw [header, List.length_append, List.length_append, List.length_replicate, List.length_singleton]
  omega

/-- Two bytes have room for the length of the header.  The first version of the format has no other
headers. -/
def HasShortHeader (m : Matrix) : Prop :=
  (header m).length < 65536

theorem length_natText_le
    {n : Nat} (h : n < 10 ^ 100) :
    (natText n).length ≤ 100 :=
  Nat.toDigits_length 10 n 100 (by decide) h

theorem hasShortHeader_of_lt
    {m : Matrix} (hrows : m.rows < 10 ^ 100) (hcolumns : m.columns < 10 ^ 100) :
    HasShortHeader m := by
  replace hrows := length_natText_le hrows
  replace hcolumns := length_natText_le hcolumns
  have hdescription : (description m).length ≤ 300 := by
    have hopening : opening.length = 51 := rfl
    have hcomma : ", ".toList.length = 2 := rfl
    have hending : "), \x7d".toList.length = 4 := rfl
    simp only [description_eq, List.length_append, hopening, hcomma, hending]
    omega
  rw [HasShortHeader, header, List.length_append, List.length_append, List.length_append,
    List.length_replicate, List.length_replicate, List.length_singleton, rowWidth]
  omega

/-! ## Round trip -/

theorem parts?_bytes
    {m : Matrix} (h : HasShortHeader m) :
    parts? (bytes m) = some (header m, m.cells.flatten.flatMap cellBytes) := by
  have hmagic (rest : List UInt8) : (magic ++ rest).dropPrefix? magic = some rest :=
    List.dropPrefix?_append_of_beq rest (beq_self_eq_true magic)
  have hlength : (asciiBytes (header m)).length = (header m).length := List.length_map _
  have hle (rest : List UInt8) :
      (header m).length ≤ (asciiBytes (header m) ++ rest).length := by
    rw [List.length_append, hlength]
    exact Nat.le_add_right _ _
  rw [bytes, List.append_assoc, List.append_assoc, parts?, hmagic, Option.bind_eq_bind,
    Option.bind_some, readWord_word h, Option.bind_eq_bind, Option.bind_some]
  dsimp only
  rw [if_pos (hle _), List.take_left' hlength, List.drop_left' hlength,
    map_asciiChar_asciiBytes fun _ => lt_of_mem_header]

/-- What is written for a matrix is read back. -/
theorem read?_bytes
    {m : Matrix} (hsound : m.IsSound) (hheader : HasShortHeader m) :
    read? (bytes m) = some m := by
  simp only [read?, parts?_bytes hheader, shape?_header, readMany_cells hsound,
    Option.bind_eq_bind, Option.bind_some, if_true]

/-- The matrix can be read from the bytes.  Their front, with the header, fills whole blocks of
sixty-four bytes, and two bytes for each cell follow. -/
structure Holds (bytes : List UInt8) (m : Matrix) : Prop where
  read : read? bytes = some m
  layout : ∃ header cells, parts? bytes = some (header, cells) ∧ 64 ∣ 10 + header.length ∧
    cells.length = 2 * m.rows * m.columns ∧ bytes.length = 10 + header.length + cells.length

theorem holds_bytes
    {m : Matrix} (hsound : m.IsSound) (hheader : HasShortHeader m) :
    Holds (bytes m) m := by
  refine ⟨read?_bytes hsound hheader, header m, m.cells.flatten.flatMap cellBytes,
    parts?_bytes hheader, dvd_length_header m, length_cells hsound, ?_⟩
  have hfront : (magic ++ word (header m).length).length = 10 := rfl
  rw [bytes, List.length_append, List.length_append, hfront, asciiBytes, List.length_map]

end ArrayFile

end RingTape
