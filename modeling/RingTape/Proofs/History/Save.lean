import RingTape.History.Save
import RingTape.Proofs.FileTree
import RingTape.Proofs.History.ArrayReader
import RingTape.Proofs.History.GivenEncoding

/-!
# Saving a history

A history that has a matrix is saved in one file, from which the matrix can be read again, and with
an encoding of its own the history as well.  A history that has none leaves all files alone.
-/

namespace RingTape

namespace History

variable {history : History} {encoding : Option Encoding} {m : Matrix} {used : Encoding}

/-- A history that is numbered by itself has the matrix that those numbers give it. -/
theorem toMatrix_eq_toMatrix_some
    (history : History) (encoding : Option Encoding) :
    history.toMatrix encoding = history.toMatrix (some (encoding.getD history.autoEncoding)) := by
  cases history with
  | nil => cases encoding <;> rfl
  | cons first rest => rfl

theorem isRectangular_of_toMatrix
    (h : history.toMatrix encoding = .ok (m, used)) :
    history.IsRectangular := by
  by_contra hragged
  rw [toMatrix_of_not_isRectangular hragged] at h
  cases h

/-- The matrix of a history is one that an array file has room for. -/
theorem isSound_of_toMatrix
    (h : history.toMatrix encoding = .ok (m, used)) :
    m.IsSound := by
  rw [toMatrix_eq_toMatrix_some] at h
  obtain ⟨-, hrows, hcolumns, hcells⟩ := forall₂_encodeCell_of_toMatrix h
  constructor
  case rows => rw [hrows, hcells.length_eq]
  case columns =>
    intro row hrow
    obtain ⟨tape, htape, hcode⟩ := exists_of_mem_right hcells hrow
    rw [← hcode.length_eq, hcolumns tape htape]
  case fits =>
    intro row hrow n hn
    obtain ⟨tape, -, hcode⟩ := exists_of_mem_right hcells hrow
    obtain ⟨symbol, -, hsymbol⟩ := exists_of_mem_right hcode hn
    exact (encodeCell_eq_ok_iff.mp hsymbol).2

theorem ofCells_of_toMatrix
    (h : history.toMatrix none = .ok (m, used)) :
    ofCells used m.cells = history := by
  rcases eq_or_ne history [] with rfl | hne
  · cases h
    rfl
  · obtain ⟨width, hwidth⟩ := isRectangular_of_toMatrix h
    exact (keeps_of_toMatrix hne hwidth h).ofCells

/-! ## Files -/

theorem save_of_toMatrix_eq_error
    {fault : HistoryFault} (h : history.toMatrix encoding = .error fault) (path : String)
    (files : FileTree) :
    history.save encoding path files = (files, .error (.history fault)) := by
  rw [save, h]

theorem save_of_admits
    (h : history.toMatrix encoding = .ok (m, used)) {path : String} {files : FileTree}
    {place : Place} (hplace : files.Admits (ArrayFile.path path) place) :
    history.save encoding path files =
      (files.withFile place (ArrayFile.bytes m), .ok used) := by
  rw [save, h]
  dsimp only
  rw [FileTree.write_eq_ok hplace]

/-- Nothing is saved in part. -/
theorem files_eq_of_save_eq_error
    {path : String} {files : FileTree} {fault : SaveFault}
    (h : (history.save encoding path files).2 = .error fault) :
    (history.save encoding path files).1 = files := by
  unfold save at h ⊢
  split
  · rfl
  · next m used hmatrix =>
      rw [hmatrix] at h
      dsimp only at h
      split
      · rfl
      · next saved hsaved =>
          rw [hsaved] at h
          cases h

/-- A history with a matrix is saved in one file and in nothing else; the file holds the matrix, and
with the encoding that the history got by itself the history as well.  No file is touched where
there is no matrix, nor where the file cannot be written. -/
theorem save_all_or_nothing
    (history : History) (encoding : Option Encoding) (path : String) (files : FileTree) :
    (ArrayFile.path path = if ".npy".toList <:+ path.toList then path else path ++ ".npy") ∧
      (∀ m used place, history.toMatrix encoding = .ok (m, used) →
        files.Admits (ArrayFile.path path) place →
        ∃ bytes saved, history.save encoding path files = (saved, .ok used) ∧
          files.Writes (ArrayFile.path path) bytes saved ∧
          saved.read (ArrayFile.path path) = .ok bytes ∧
          (ArrayFile.HasShortHeader m → ArrayFile.Holds bytes m) ∧
          (encoding = none → ofCells used m.cells = history)) ∧
      (∀ fault, history.toMatrix encoding = .error fault →
        history.save encoding path files = (files, .error (.history fault))) ∧
      ∀ fault, (history.save encoding path files).2 = .error fault →
        (history.save encoding path files).1 = files := by
  refine ⟨?_, ?_, ?_, fun fault => files_eq_of_save_eq_error⟩
  · simp only [ArrayFile.path, ArrayFile.suffix, List.isSuffixOf_iff_suffix]
  · intro m used place hmatrix hplace
    have hwrites := hplace.writes (ArrayFile.bytes m)
    refine ⟨_, _, save_of_admits hmatrix hplace, hwrites, hwrites.read_eq,
      ArrayFile.holds_bytes (isSound_of_toMatrix hmatrix), ?_⟩
    rintro rfl
    exact ofCells_of_toMatrix hmatrix
  · intro fault hmatrix
    exact save_of_toMatrix_eq_error hmatrix path files

/-- Two tapes are saved by a path without the suffix into a directory with another file, and tapes
of different lengths are not. -/
theorem save_all_or_nothing_in_directory :
    let files : FileTree := ⟨[(["out", "log"], [1])], []⟩
    (∃ bytes saved, save [[some "b", none], [some "a", some "b"]] none "out/run" files =
        (saved, .ok [("a", 0), ("b", 1)]) ∧
      saved.read "out/run.npy" = .ok bytes ∧
      ArrayFile.read? bytes = some ⟨2, 2, [[1, -1], [0, 1]]⟩) ∧
    save [[some "b"], []] none "out/run" files = (files, .error (.history .ragged)) := by
  intro files
  have hplace : files.Admits (ArrayFile.path "out/run") ["out", "run.npy"] := .inr rfl
  have hheader : ArrayFile.HasShortHeader ⟨2, 2, [[1, -1], [0, 1]]⟩ :=
    ArrayFile.hasShortHeader_of_lt (by norm_num) (by norm_num)
  obtain ⟨-, hsaves, -⟩ :=
    save_all_or_nothing [[some "b", none], [some "a", some "b"]] none "out/run" files
  obtain ⟨bytes, saved, hsave, -, hread, hholds, -⟩ := hsaves _ _ _ rfl hplace
  obtain ⟨-, -, hrejects, -⟩ := save_all_or_nothing [[some "b"], []] none "out/run" files
  exact ⟨⟨bytes, saved, hsave, hread, (hholds hheader).read⟩, hrejects .ragged rfl⟩

end History

end RingTape
