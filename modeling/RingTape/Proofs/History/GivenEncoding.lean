import RingTape.Proofs.History.Encoding

/-!
# Matrices by an encoding from outside

An encoding from outside may lack a symbol, and may give it a number that a cell has no room for.
Only the symbols that occur are looked at, row by row, and the first cell without a number tells the
fault.  Nothing keeps such an encoding from giving two symbols one number, or a symbol the number of
a blank cell; nothing else is lost in the matrix.
-/

namespace RingTape

open History

/-- The names with a number that a cell has room for. -/
def Encoding.fitting (encoding : Encoding) : Set String :=
  {name | ∃ code, encoding.lookup name = some code ∧ -cellBound ≤ code ∧ code < cellBound}

namespace History

/-- The tapes have the same length. -/
def IsRectangular (history : History) : Prop :=
  ∃ width, ∀ tape ∈ history, tape.length = width

/-! ## Cells -/

/-- A cell has its number from the encoding, unless it is blank. -/
inductive HasNumber (encoding : Encoding) : Symbol → Int → Prop
  | blank : HasNumber encoding none blankCode
  | symbol {name : String} {code : Int} (h : encoding.lookup name = some code) :
      HasNumber encoding (some name) code

/-- A cell has no number in the matrix, for the reason told. -/
inductive Offends (encoding : Encoding) : Symbol → HistoryFault → Prop
  | missing {name : String} (h : encoding.lookup name = none) :
      Offends encoding (some name) (.missing name)
  | outOfRange {name : String} {code : Int} (h : encoding.lookup name = some code)
      (hword : -wordBound ≤ code ∧ code < wordBound)
      (hcell : code < -cellBound ∨ cellBound ≤ code) : Offends encoding (some name) (.outOfRange code)
  | tooLarge {name : String} {code : Int} (h : encoding.lookup name = some code)
      (hword : code < -wordBound ∨ wordBound ≤ code) : Offends encoding (some name) (.tooLarge code)

section Cells

variable {encoding : Encoding} {symbol : Symbol} {name : String} {fault : HistoryFault}

theorem encodeCell_eq_ok_iff
    {n : Int} :
    encodeCell encoding symbol = .ok n ↔
      HasNumber encoding symbol n ∧ -cellBound ≤ n ∧ n < cellBound := by
  cases symbol with
  | none =>
      constructor
      · rintro ⟨⟩
        exact ⟨.blank, by decide⟩
      · rintro ⟨⟨⟩, -⟩
        rfl
  | some name =>
      rw [encodeCell]
      constructor
      · intro h
        split at h
        · cases h
        · next code hlookup =>
            obtain ⟨rfl, hfits⟩ := checkCode_eq_ok_iff.mp h
            exact ⟨.symbol hlookup, hfits⟩
      · rintro ⟨hnumber, hfits⟩
        cases hnumber with
        | symbol hlookup =>
            rw [hlookup]
            exact checkCode_eq_ok_iff.mpr ⟨rfl, hfits⟩

theorem checkCode_eq_error_iff
    {code : Int} :
    checkCode code = .error fault ↔
      ((code < -wordBound ∨ wordBound ≤ code) ∧ fault = .tooLarge code) ∨
      ((-wordBound ≤ code ∧ code < wordBound) ∧ (code < -cellBound ∨ cellBound ≤ code) ∧
        fault = .outOfRange code) := by
  have hword : (-wordBound ≤ code ∧ code < wordBound) ↔
      ¬ (code < -wordBound ∨ wordBound ≤ code) := by
    rw [not_or, not_lt, not_le]
  rw [checkCode, hword]
  simp only [Bool.or_eq_true, decide_eq_true_eq]
  split_ifs with hlarge houtside
  · simp [hlarge, eq_comm]
  · simp [hlarge, houtside, eq_comm]
  · simp [hlarge, houtside]

theorem encodeCell_eq_error_iff :
    encodeCell encoding symbol = .error fault ↔ Offends encoding symbol fault := by
  cases symbol with
  | none => exact ⟨nofun, nofun⟩
  | some name =>
      rw [encodeCell]
      constructor
      · intro h
        split at h
        · next hlookup =>
            cases h
            exact .missing hlookup
        · next code hlookup =>
            rcases checkCode_eq_error_iff.mp h with ⟨hword, rfl⟩ | ⟨hword, hcell, rfl⟩
            · exact .tooLarge hlookup hword
            · exact .outOfRange hlookup hword hcell
      · intro h
        cases h with
        | missing hlookup => rw [hlookup]
        | outOfRange hlookup hword hcell =>
            rw [hlookup]
            exact checkCode_eq_error_iff.mpr (.inr ⟨hword, hcell, rfl⟩)
        | tooLarge hlookup hword =>
            rw [hlookup]
            exact checkCode_eq_error_iff.mpr (.inl ⟨hword, rfl⟩)

theorem mem_fitting_iff :
    name ∈ encoding.fitting ↔ ∃ n, encodeCell encoding (some name) = .ok n := by
  constructor
  · rintro ⟨code, hlookup, hfits⟩
    exact ⟨code, encodeCell_eq_ok_iff.mpr ⟨.symbol hlookup, hfits⟩⟩
  · rintro ⟨n, hn⟩
    obtain ⟨hnumber, hfits⟩ := encodeCell_eq_ok_iff.mp hn
    cases hnumber with
    | symbol hlookup => exact ⟨n, hlookup, hfits⟩

end Cells

/-! ## Matrices -/

/-- The matrix has a row for each tape and a column for each cell, with its number there. -/
structure Fills (encoding : Encoding) (history : History) (m : Matrix) : Prop where
  rows : m.rows = history.length
  columns : ∀ tape ∈ history, tape.length = m.columns
  cells : List.Forall₂ (List.Forall₂ (HasNumber encoding)) history m.cells

/-- The fault is that of the first cell, row by row, that has no number in the matrix. -/
def FirstOffends (encoding : Encoding) (history : History) (fault : HistoryFault) : Prop :=
  ∃ before symbol after, history.flatten = before ++ symbol :: after ∧
    (∀ earlier ∈ before, ∀ other, ¬ Offends encoding earlier other) ∧
    Offends encoding symbol fault

section Matrices

variable {history : History} {encoding : Encoding}

theorem toMatrix_of_not_isRectangular
    (h : ¬ history.IsRectangular) (encoding : Option Encoding) :
    history.toMatrix encoding = .error .ragged := by
  cases history with
  | nil => exact absurd ⟨0, nofun⟩ h
  | cons first rest =>
      have huneven : (first :: rest).any (·.length != first.length) = true := by
        by_contra heven
        rw [Bool.not_eq_true, List.any_eq_false] at heven
        apply h
        refine ⟨first.length, fun tape htape => ?_⟩
        simpa using heven tape htape
      rw [toMatrix, if_pos huneven]

theorem exists_toMatrix_some_iff
    (h : history.IsRectangular) :
    (∃ m, history.toMatrix (some encoding) = .ok (m, encoding)) ↔
      history.names ⊆ encoding.fitting := by
  rcases eq_or_ne history [] with rfl | hne
  · refine ⟨fun _ => ?_, fun _ => ⟨_, rfl⟩⟩
    rintro name ⟨tape, htape, -⟩
    cases htape
  obtain ⟨width, hwidth⟩ := h
  have hcells : history.names ⊆ encoding.fitting ↔
      ∃ cells, (history.mapM fun tape => tape.mapM (encodeCell encoding)) = .ok cells := by
    simp only [exists_mapM_iff]
    constructor
    · rintro hnames tape htape (_ | name) hsymbol
      · exact ⟨blankCode, rfl⟩
      · exact mem_fitting_iff.mp (hnames ⟨tape, htape, hsymbol⟩)
    · rintro hcells name ⟨tape, htape, hsymbol⟩
      exact mem_fitting_iff.mpr (hcells tape htape (some name) hsymbol)
  rw [hcells, toMatrix_eq_map hne hwidth]
  constructor
  · rintro ⟨m, hm⟩
    obtain ⟨cells, hcells, -⟩ := map_eq_ok_iff.mp hm
    exact ⟨cells, hcells⟩
  · rintro ⟨cells, hcells⟩
    exact ⟨_, map_eq_ok_iff.mpr ⟨cells, hcells, rfl⟩⟩

/-- What is made of a history, cell by cell. -/
theorem forall₂_encodeCell_of_toMatrix
    {m : Matrix} {used : Encoding} (h : history.toMatrix (some encoding) = .ok (m, used)) :
    used = encoding ∧ m.rows = history.length ∧ (∀ tape ∈ history, tape.length = m.columns) ∧
      List.Forall₂ (List.Forall₂ fun symbol n => encodeCell encoding symbol = .ok n)
        history m.cells := by
  rcases eq_or_ne history [] with rfl | hne
  · cases h
    exact ⟨rfl, rfl, nofun, .nil⟩
  by_cases hrectangular : history.IsRectangular
  · obtain ⟨width, hwidth⟩ := hrectangular
    rw [toMatrix_eq_map hne hwidth] at h
    obtain ⟨cells, hcells, hresult⟩ := map_eq_ok_iff.mp h
    cases hresult
    exact ⟨rfl, rfl, hwidth, (mapM_eq_ok_iff.mp hcells).imp fun _ _ hrow => mapM_eq_ok_iff.mp hrow⟩
  · rw [toMatrix_of_not_isRectangular hrectangular] at h
    cases h

theorem fills_of_toMatrix
    {m : Matrix} {used : Encoding} (h : history.toMatrix (some encoding) = .ok (m, used)) :
    used = encoding ∧ Fills encoding history m := by
  obtain ⟨hused, hrows, hcolumns, hcells⟩ := forall₂_encodeCell_of_toMatrix h
  refine ⟨hused, hrows, hcolumns, ?_⟩
  exact hcells.imp fun _ _ hrow => hrow.imp fun _ _ hn => (encodeCell_eq_ok_iff.mp hn).1

theorem toMatrix_some_eq_error_iff
    (hne : history ≠ []) (h : history.IsRectangular) {fault : HistoryFault} :
    history.toMatrix (some encoding) = .error fault ↔ FirstOffends encoding history fault := by
  obtain ⟨width, hwidth⟩ := h
  rw [toMatrix_eq_map hne hwidth, map_eq_error_iff, Option.getD_some, ← map_eq_error_iff,
    ← mapM_flatten, mapM_eq_error_iff]
  have hinoffensive (symbol : Symbol) :
      (∃ n, encodeCell encoding symbol = .ok n) ↔ ∀ other, ¬ Offends encoding symbol other := by
    simp only [← encodeCell_eq_error_iff]
    cases encodeCell encoding symbol <;> simp
  simp only [hinoffensive, encodeCell_eq_error_iff, FirstOffends]

/-! ## Histories with one matrix -/

theorem toMatrix_singleton_congr
    {symbol symbol' : Symbol} (h : encodeCell encoding symbol = encodeCell encoding symbol') :
    toMatrix [[symbol]] (some encoding) = toMatrix [[symbol']] (some encoding) := by
  have hwidth (symbol : Symbol) : ∀ tape ∈ ([[symbol]] : History), tape.length = 1 := by simp
  have hrow : [symbol].mapM (encodeCell encoding) = [symbol'].mapM (encodeCell encoding) :=
    mapM_eq_of_forall₂ (.cons h .nil)
  rw [toMatrix_eq_map (List.cons_ne_nil _ _) (hwidth symbol),
    toMatrix_eq_map (List.cons_ne_nil _ _) (hwidth symbol'), Option.getD_some,
    mapM_eq_of_forall₂ (.cons hrow .nil)]
  rfl

/-- The histories with tapes of one length whose cells all have a number. -/
def encodable (encoding : Encoding) : Set History :=
  {history | history.IsRectangular ∧ history.names ⊆ encoding.fitting}

theorem singleton_mem_encodable
    {symbol : Symbol} (h : ∀ name, symbol = some name → name ∈ encoding.fitting) :
    [[symbol]] ∈ encodable encoding := by
  refine ⟨⟨1, by simp⟩, ?_⟩
  rintro name ⟨tape, htape, hname⟩
  rw [List.mem_singleton.mp htape, List.mem_singleton] at hname
  exact h name hname.symm

/-- The cells tell the history when they tell the symbols. -/
theorem injOn_toMatrix
    (hlookup : Set.InjOn (fun name => encoding.lookup name) encoding.fitting)
    (hblank : ∀ name ∈ encoding.fitting, encoding.lookup name ≠ some blankCode) :
    Set.InjOn (fun history => Prod.fst <$> toMatrix history (some encoding))
      (encodable encoding) := by
  have hunique : Relator.LeftUnique fun symbol n => encodeCell encoding symbol = .ok n := by
    intro symbol n symbol' hsymbol hsymbol'
    obtain ⟨hnumber, -⟩ := encodeCell_eq_ok_iff.mp hsymbol
    obtain ⟨hnumber', -⟩ := encodeCell_eq_ok_iff.mp hsymbol'
    cases hnumber with
    | blank =>
        cases hnumber' with
        | blank => rfl
        | symbol h' => exact absurd h' (hblank _ (mem_fitting_iff.mpr ⟨_, hsymbol'⟩))
    | symbol h =>
        cases hnumber' with
        | blank => exact absurd h (hblank _ (mem_fitting_iff.mpr ⟨_, hsymbol⟩))
        | symbol h' =>
            exact congrArg some (hlookup (mem_fitting_iff.mpr ⟨_, hsymbol⟩)
              (mem_fitting_iff.mpr ⟨_, hsymbol'⟩) (h.trans h'.symm))
  rintro history ⟨hrectangular, hnames⟩ history' ⟨hrectangular', hnames'⟩ hsame
  obtain ⟨m, hm⟩ := (exists_toMatrix_some_iff hrectangular).mpr hnames
  obtain ⟨m', hm'⟩ := (exists_toMatrix_some_iff hrectangular').mpr hnames'
  obtain rfl : m = m' := by simpa [hm, hm', Functor.map, Except.map] using hsame
  obtain ⟨-, -, -, hcells⟩ := forall₂_encodeCell_of_toMatrix hm
  obtain ⟨-, -, -, hcells'⟩ := forall₂_encodeCell_of_toMatrix hm'
  exact hunique.forall₂.forall₂ hcells hcells'

theorem injOn_toMatrix_iff
    (encoding : Encoding) :
    Set.InjOn (fun history => Prod.fst <$> toMatrix history (some encoding))
        (encodable encoding) ↔
      Set.InjOn (fun name => encoding.lookup name) encoding.fitting ∧
        ∀ name ∈ encoding.fitting, encoding.lookup name ≠ some blankCode := by
  refine ⟨fun hinjective => ?_, fun h => injOn_toMatrix h.1 h.2⟩
  -- histories of one cell are told apart only if their symbols have different numbers
  have hsymbols {symbol symbol' : Symbol} (hmem : [[symbol]] ∈ encodable encoding)
      (hmem' : [[symbol']] ∈ encodable encoding)
      (hsame : encodeCell encoding symbol = encodeCell encoding symbol') : symbol = symbol' := by
    have hhistories := hinjective hmem hmem'
      (congrArg (Prod.fst <$> ·) (toMatrix_singleton_congr hsame))
    exact List.singleton_inj.mp (List.singleton_inj.mp hhistories)
  have hsome {name : String} (hname : name ∈ encoding.fitting) :
      [[some name]] ∈ encodable encoding := by
    apply singleton_mem_encodable
    rintro _ ⟨⟩
    exact hname
  constructor
  · intro name hname name' hname' hlookup
    obtain ⟨code, hcode, hfits⟩ := id hname
    have hcode' : encoding.lookup name' = some code := hlookup.symm.trans hcode
    have hsame : encodeCell encoding (some name) = encodeCell encoding (some name') := by
      rw [encodeCell_eq_ok_iff.mpr ⟨.symbol hcode, hfits⟩,
        encodeCell_eq_ok_iff.mpr ⟨.symbol hcode', hfits⟩]
    exact Option.some.inj (hsymbols (hsome hname) (hsome hname') hsame)
  · intro name hname hlookup
    have hblank : encodeCell encoding (some name) = encodeCell encoding none :=
      encodeCell_eq_ok_iff.mpr ⟨.symbol hlookup, by decide⟩
    have hnone : [[none]] ∈ encodable encoding := singleton_mem_encodable fun _ h => nomatch h
    cases hsymbols (hsome hname) hnone hblank

end Matrices

/-- A history has a matrix by an encoding from outside when its tapes have one length and each of
its symbols has a number that fits, and else it has the fault of the first cell without one.  The
matrix tells the history, unless two symbols share a number or one has the number of a blank. -/
theorem toMatrix_of_given_encoding
    (encoding : Encoding) :
    toMatrix [] (some encoding) = .ok (⟨0, 0, []⟩, encoding) ∧
      (∀ history : History, ¬ history.IsRectangular →
        history.toMatrix (some encoding) = .error .ragged) ∧
      (∀ history : History, history ≠ [] → history.IsRectangular →
        ((∃ m, history.toMatrix (some encoding) = .ok (m, encoding)) ↔
          history.names ⊆ encoding.fitting) ∧
        (∀ fault, history.toMatrix (some encoding) = .error fault ↔
          FirstOffends encoding history fault) ∧
        ∀ m used, history.toMatrix (some encoding) = .ok (m, used) →
          used = encoding ∧ Fills encoding history m) ∧
      (Set.InjOn (fun history => Prod.fst <$> toMatrix history (some encoding))
          (encodable encoding) ↔
        Set.InjOn (fun name => encoding.lookup name) encoding.fitting ∧
          ∀ name ∈ encoding.fitting, encoding.lookup name ≠ some blankCode) := by
  refine ⟨rfl, ?_, ?_, injOn_toMatrix_iff encoding⟩
  · intro history hragged
    exact toMatrix_of_not_isRectangular hragged (some encoding)
  · intro history hne hrectangular
    refine ⟨exists_toMatrix_some_iff hrectangular, ?_, ?_⟩
    · intro fault
      exact toMatrix_some_eq_error_iff hne hrectangular
    · intro m used hmatrix
      exact fills_of_toMatrix hmatrix

/-- The second tape has a number that no cell has room for, and then a symbol without a number; a
blank and a symbol are lost in one number. -/
theorem toMatrix_of_given_encoding_with_large_number :
    let encoding : Encoding := [("a", 3), ("b", 40000), ("c", -1), ("d", 9223372036854775808)]
    let history : History := [[some "a", none], [some "b", some "e"]]
    history.toMatrix (some encoding) = .error (.outOfRange 40000) ∧
      ¬ Set.InjOn (fun history => Prod.fst <$> toMatrix history (some encoding))
        (encodable encoding) := by
  intro encoding history
  obtain ⟨-, -, hmatrix, hinjective⟩ := toMatrix_of_given_encoding encoding
  have hrectangular : history.IsRectangular := ⟨2, by decide⟩
  obtain ⟨-, herror, -⟩ := hmatrix history (by decide) hrectangular
  constructor
  · refine (herror _).mpr ⟨[some "a", none], some "b", [some "e"], rfl, ?_, ?_⟩
    · intro earlier hearlier other hother
      rw [List.mem_cons, List.mem_singleton] at hearlier
      rcases hearlier with rfl | rfl
      · rw [← encodeCell_eq_error_iff] at hother
        cases hother
      · cases hother
    · exact .outOfRange rfl (by decide) (by decide)
  · rw [hinjective]
    rintro ⟨-, hblank⟩
    exact hblank "c" ⟨-1, rfl, by decide⟩ rfl

end History

end RingTape
