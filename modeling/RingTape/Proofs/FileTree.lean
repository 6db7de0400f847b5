import RingTape.FileTree
import Mathlib.Data.List.Basic

/-!
# Writing to one file

To write a file changes nothing else in the tree.  The directories stay what they are, because the
place of a file is always in one of them, so that the path names the same place after the file is
written, and its bytes can be read there.
-/

namespace RingTape.FileTree

/-- The path names a file at the place, or a place in a directory where there is nothing yet. -/
def Admits (t : FileTree) (path : String) (place : Place) : Prop :=
  t.target path = .ok (.file place) ∨ t.target path = .ok (.vacant place false)

/-- The second tree is the first one but for the file at the path, which holds the bytes. -/
structure Writes (t : FileTree) (path : String) (bytes : List UInt8) (t' : FileTree) : Prop where
  place : ∃ place, t.Admits path place ∧ t'.target path = .ok (.file place) ∧
    ∀ other, t'.file? other = if other = place then some bytes else t.file? other
  isDirectory : ∀ place, t'.isDirectory place = t.isDirectory place

variable {t : FileTree} {path : String} {place : Place} {bytes : List UInt8}

/-- The tree with the file at a place written anew. -/
def withFile (t : FileTree) (place : Place) (bytes : List UInt8) : FileTree :=
  { t with files := put place bytes t.files }

theorem write_eq_ok
    (h : t.Admits path place) (bytes : List UInt8) :
    t.write path bytes = .ok (t.withFile place bytes) := by
  rcases h with h | h
  · rw [write, h]
    rfl
  · rw [write, h]
    rfl

/-! ## The files -/

theorem lookup_put_of_ne
    {other : Place} (h : other ≠ place) (files : List (Place × List UInt8)) :
    (put place bytes files).lookup other = files.lookup other := by
  induction files with
  | nil => simp [put, h]
  | cons file files ih =>
      obtain ⟨first, old⟩ := file
      rw [put]
      split
      · next hplace => rw [hplace, List.lookup_cons, List.lookup_cons, beq_false_of_ne h]
      · rw [List.lookup_cons, List.lookup_cons, ih]

theorem file?_withFile
    (t : FileTree) (place : Place) (bytes : List UInt8) (other : Place) :
    (t.withFile place bytes).file? other = if other = place then some bytes else t.file? other := by
  rw [file?, withFile]
  split_ifs with h
  · rw [h]
    exact lookup_put place bytes t.files
  · exact lookup_put_of_ne h t.files

theorem exists_mem_put_iff
    {P : Place → Prop} (files : List (Place × List UInt8)) :
    (∃ file ∈ put place bytes files, P file.1) ↔ P place ∨ ∃ file ∈ files, P file.1 := by
  induction files with
  | nil => simp [put]
  | cons file files ih =>
      rw [put]
      split
      · next hplace => simp [hplace]
      · simp only [List.mem_cons, exists_eq_or_imp, ih]
        exact or_left_comm

/-! ## The directories -/

theorem isDirectory_iff :
    t.isDirectory place = true ↔
      place = [] ∨ (∃ directory ∈ t.directories, place <+: directory) ∨
        ∃ file ∈ t.files, place <+: file.1.dropLast := by
  simp [isDirectory, List.any_append]

theorem isDirectory_of_isPrefix
    {other : Place} (hshort : other <+: place) (h : t.isDirectory place = true) :
    t.isDirectory other = true := by
  rw [isDirectory_iff] at h ⊢
  rcases h with rfl | ⟨directory, hdirectory, hplace⟩ | ⟨file, hfile, hplace⟩
  · exact .inl (List.prefix_nil.mp hshort)
  · exact .inr (.inl ⟨directory, hdirectory, hshort.trans hplace⟩)
  · exact .inr (.inr ⟨file, hfile, hshort.trans hplace⟩)

/-- A file that is put into a directory makes no further directories. -/
theorem isDirectory_withFile
    (h : t.isDirectory place.dropLast = true) (bytes : List UInt8) (other : Place) :
    (t.withFile place bytes).isDirectory other = t.isDirectory other := by
  rw [Bool.eq_iff_iff, isDirectory_iff, isDirectory_iff, withFile]
  rw [exists_mem_put_iff (P := fun p => other <+: p.dropLast)]
  constructor
  · rintro (hnil | hdirectory | hplace | hfile)
    · exact .inl hnil
    · exact .inr (.inl hdirectory)
    · exact isDirectory_iff.mp (isDirectory_of_isPrefix hplace h)
    · exact .inr (.inr hfile)
  · rintro (hnil | hdirectory | hfile)
    · exact .inl hnil
    · exact .inr (.inl hdirectory)
    · exact .inr (.inr (.inr hfile))

/-! ## Paths -/

/-- The components lead from one place to another one, through directories and not to one. -/
inductive Leads (t : FileTree) : Place → List String → Place → Prop
  | last {start : Place} {component : String} (hhere : isHere component = false)
      (hup : component ≠ "..") (hnext : t.isDirectory (start ++ [component]) = false) :
      Leads t start [component] (start ++ [component])
  | here {start place : Place} {component : String} {rest : List String}
      (hhere : isHere component = true) (hrest : Leads t start rest place) :
      Leads t start (component :: rest) place
  | up {start place : Place} {rest : List String} (hstart : start ≠ [])
      (hrest : Leads t start.dropLast rest place) : Leads t start (".." :: rest) place
  | down {start place : Place} {component : String} {rest : List String}
      (hhere : isHere component = false) (hup : component ≠ "..")
      (hnext : t.isDirectory (start ++ [component]) = true)
      (hrest : Leads t (start ++ [component]) rest place) : Leads t start (component :: rest) place

variable {start : Place} {rest : List String}

theorem leads_of_walk
    (h : t.walk path start rest = .ok (.file place) ∨
      t.walk path start rest = .ok (.vacant place false)) :
    t.Leads start rest place := by
  induction rest generalizing start with
  | nil => simp [walk] at h
  | cons component rest ih =>
      simp only [walk] at h
      by_cases hhere : isHere component = true
      · simp only [hhere, if_true] at h
        exact .here hhere (ih h)
      rw [Bool.not_eq_true] at hhere
      by_cases hup : component = ".."
      · subst hup
        cases start with
        | nil => simp [hhere] at h
        | cons first others =>
            simp only [hhere, BEq.rfl, List.isEmpty_cons, if_true, if_false,
              Bool.false_eq_true] at h
            exact .up (List.cons_ne_nil _ _) (ih h)
      by_cases hnext : t.isDirectory (start ++ [component]) = true
      · simp only [hhere, hup, hnext, beq_iff_eq, if_true, if_false, Bool.false_eq_true] at h
        exact .down hhere hup hnext (ih h)
      rw [Bool.not_eq_true] at hnext
      cases rest with
      | nil =>
          have hplace : start ++ [component] = place := by
            simp only [hhere, hup, hnext, beq_iff_eq, if_false, Bool.false_eq_true] at h
            split at h <;> simpa using h
          rw [← hplace]
          exact .last hhere hup hnext
      | cons other others =>
          simp only [hhere, hup, hnext, beq_iff_eq, if_false, Bool.false_eq_true,
            List.isEmpty_cons] at h
          split at h
          · simp at h
          · split_ifs at h <;> simp at h

theorem Leads.walk_eq
    (h : t.Leads start rest place) (path : String) :
    t.walk path start rest =
      .ok (if t.file? place = none then .vacant place false else .file place) := by
  induction h with
  | last hhere hup hnext =>
      simp only [walk, hhere, hup, hnext, beq_iff_eq, if_false, Bool.false_eq_true]
      split
      · next hfile => simp [hfile]
      · next hfile => simp [hfile]
  | here hhere _ ih => simp only [walk, hhere, if_true, ih]
  | up hstart _ ih =>
      have hhere : isHere ".." = false := by decide
      simp [walk, hhere, hstart, ih]
  | down hhere hup hnext _ ih =>
      simp only [walk, hhere, hup, hnext, beq_iff_eq, if_true, if_false, Bool.false_eq_true, ih]

theorem Leads.isDirectory_dropLast
    (h : t.Leads start rest place) (hstart : t.isDirectory start = true) :
    t.isDirectory place.dropLast = true := by
  induction h with
  | last => rwa [List.dropLast_concat]
  | here _ _ ih => exact ih hstart
  | up _ _ ih => exact ih (isDirectory_of_isPrefix (List.dropLast_prefix _) hstart)
  | down _ _ hnext _ ih => exact ih hnext

/-- Only the directories decide where a path leads. -/
theorem Leads.of_isDirectory_eq
    {t' : FileTree} (hsame : ∀ other, t'.isDirectory other = t.isDirectory other)
    (h : t.Leads start rest place) :
    t'.Leads start rest place := by
  induction h with
  | last hhere hup hnext => exact .last hhere hup ((hsame _).trans hnext)
  | here hhere _ ih => exact .here hhere ih
  | up hstart _ ih => exact .up hstart ih
  | down hhere hup hnext _ ih => exact .down hhere hup ((hsame _).trans hnext) ih

theorem Admits.leads
    (h : t.Admits path place) :
    (path.isEmpty || path.toList.head? = some '/') = false ∧
      t.Leads [] (components path) place := by
  unfold Admits target at h
  split_ifs at h with hpath
  · simp at h
  · exact ⟨by simpa using hpath, leads_of_walk h⟩

/-- Bytes are written to a path by putting them into its file, and into nothing else. -/
theorem Admits.writes
    (h : t.Admits path place) (bytes : List UInt8) :
    t.Writes path bytes (t.withFile place bytes) := by
  obtain ⟨hpath, hleads⟩ := h.leads
  have hdirectory := hleads.isDirectory_dropLast rfl
  have hsame := isDirectory_withFile hdirectory bytes
  have hfile := file?_withFile t place bytes
  refine ⟨⟨place, h, ?_, hfile⟩, hsame⟩
  have hnone : (t.withFile place bytes).file? place ≠ none := by simp [hfile]
  rw [target, hpath, (hleads.of_isDirectory_eq hsame).walk_eq, if_neg hnone]
  rfl

/-- What was written to a path can be read there. -/
theorem Writes.read_eq
    {t' : FileTree} (h : t.Writes path bytes t') :
    t'.read path = .ok bytes := by
  obtain ⟨place, -, htarget, hfile⟩ := h.place
  have hbytes : t'.file? place = some bytes := by rw [hfile, if_pos rfl]
  rw [read, htarget]
  simp [hbytes, bind, Except.bind, pure, Except.pure]

end RingTape.FileTree
