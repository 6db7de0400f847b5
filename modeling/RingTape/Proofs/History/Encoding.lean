import RingTape.History.Diagram
import RingTape.Launch.Outcome
import RingTape.Proofs.Checked
import Mathlib.Data.Int.ConditionallyCompleteOrder
import Mathlib.Data.List.Nodup
import Mathlib.Data.Set.Card
import Mathlib.Order.Interval.Set.Defs

/-!
# What a matrix keeps of a history

Without an encoding from outside, the symbols of a history are numbered in ascending order.  No two
of them have the same number, and none has the number of a blank cell, so that nothing of the
history is lost in its matrix, its array file and its diagram.  A history with more symbols than a
cell has room for is refused.
-/

namespace RingTape

/-- A number is refused because it is too large for a cell. -/
def HistoryFault.IsOverflow : HistoryFault → Prop
  | .outOfRange code | .tooLarge code => History.cellBound ≤ code
  | .ragged | .missing _ => False

namespace History

/-! ## Encodings -/

/-- The names in the cells of a history. -/
def names (history : History) : Set String :=
  {name | ∃ tape ∈ history, some name ∈ tape}

/-- An encoding holds the numbers of the names, and nothing else. -/
structure Numbers (encoding : Encoding) (names : Set String) (code : String → Int) : Prop where
  ascending : (encoding.map (·.1)).Pairwise (· < ·)
  mem_iff : ∀ name n, (name, n) ∈ encoding ↔ name ∈ names ∧ n = code name

/-- The names are numbered in their order, from zero on and without a gap. -/
structure Ranks (names : Set String) (code : String → Int) : Prop where
  increasing : ∀ name ∈ names, ∀ other ∈ names, name < other → code name < code other
  bijOn : Set.BijOn code names (Set.Ico 0 (names.ncard : Int))

/-- The symbol that a number stands for.  A number that no symbol has stands for a blank. -/
def symbolOf (encoding : Encoding) (n : Int) : Symbol :=
  if n = blankCode then none else (encoding.find? fun entry => entry.2 = n).map (·.1)

/-- The history that the cells of a matrix stand for. -/
def ofCells (encoding : Encoding) (cells : List (List Int)) : History :=
  cells.map (·.map (symbolOf encoding))

theorem lookup_eq_some_iff_mem
    {encoding : Encoding} (h : (encoding.map (·.1)).Nodup) {name : String} {n : Int} :
    encoding.lookup name = some n ↔ (name, n) ∈ encoding := by
  induction encoding with
  | nil => simp
  | cons entry rest ih =>
      obtain ⟨key, code⟩ := entry
      rw [List.map_cons, List.nodup_cons] at h
      rw [List.lookup_cons, List.mem_cons, Prod.mk.injEq]
      by_cases hname : name = key
      · subst hname
        have habsent : (name, n) ∉ rest := by
          intro hmem
          apply h.1
          exact List.mem_map.mpr ⟨(name, n), hmem, rfl⟩
        rw [beq_self_eq_true]
        simp [habsent, eq_comm]
      · rw [beq_false_of_ne hname]
        simp [hname, ih h.2]

/-- A number that only one name has, and no blank cell, stands for that name. -/
theorem symbolOf_eq_some
    {encoding : Encoding} {names : Set String} {code : String → Int}
    (h : Numbers encoding names code) (hinjective : Set.InjOn code names) {name : String}
    (hname : name ∈ names) (hblank : code name ≠ blankCode) :
    symbolOf encoding (code name) = some name := by
  rw [symbolOf, if_neg hblank]
  have hentry : (name, code name) ∈ encoding := (h.mem_iff _ _).mpr ⟨hname, rfl⟩
  cases hfind : encoding.find? fun entry => entry.2 = code name with
  | none =>
      rw [List.find?_eq_none] at hfind
      exact absurd (decide_eq_true rfl) (hfind _ hentry)
  | some entry =>
      obtain ⟨other, n⟩ := entry
      obtain ⟨hother, rfl⟩ := (h.mem_iff _ _).mp (List.mem_of_find?_eq_some hfind)
      have hcode : code other = code name := by simpa using List.find?_some hfind
      rw [Option.map_some, hinjective hother hname hcode]

theorem mem_numberFrom
    {first : Int} {list : List String} {name : String} {n : Int} :
    (name, n) ∈ numberFrom first list ↔ ∃ i : Nat, list[i]? = some name ∧ n = first + i := by
  induction list generalizing first with
  | nil => simp [numberFrom]
  | cons head rest ih =>
      rw [numberFrom, List.mem_cons, Prod.mk.injEq, ih]
      constructor
      · rintro (⟨rfl, rfl⟩ | ⟨i, hi, rfl⟩)
        · exact ⟨0, rfl, by simp⟩
        · refine ⟨i + 1, hi, ?_⟩
          omega
      · rintro ⟨i, hi, rfl⟩
        cases i with
        | zero => exact .inl ⟨(Option.some.inj hi).symm, by simp⟩
        | succ i =>
            refine .inr ⟨i, hi, ?_⟩
            omega

theorem mem_alphabet
    {history : History} {name : String} :
    name ∈ history.alphabet.toList ↔ name ∈ history.names := by
  rw [alphabet, NameSet.mem_toList, NameSet.mem_ofList, List.mem_filterMap, names,
    Set.mem_ofPred_eq]
  simp [List.mem_flatten]

theorem nodup_alphabet
    (history : History) :
    history.alphabet.toList.Nodup :=
  history.alphabet.ascending.nodup

/-- The number of a name is how many names stand before it. -/
def rank (history : History) (name : String) : Int :=
  history.alphabet.toList.idxOf name

theorem ncard_names
    (history : History) :
    history.names.ncard = history.alphabet.toList.length := by
  have hset : history.names = history.alphabet.toList.toFinset := by
    ext name
    rw [List.coe_toFinset, Set.mem_ofPred_eq, mem_alphabet]
  rw [hset, Set.ncard_coe_finset, List.toFinset_card_of_nodup history.nodup_alphabet]

theorem numbers_autoEncoding
    (history : History) :
    Numbers history.autoEncoding history.names history.rank where
  ascending := by
    rw [autoEncoding, map_fst_numberFrom]
    exact history.alphabet.ascending
  mem_iff := by
    intro name n
    rw [autoEncoding, mem_numberFrom, ← mem_alphabet, rank]
    constructor
    · rintro ⟨i, hi, rfl⟩
      obtain ⟨hlt, rfl⟩ := List.getElem?_eq_some_iff.mp hi
      refine ⟨List.getElem_mem hlt, ?_⟩
      rw [history.nodup_alphabet.idxOf_getElem, zero_add]
    · rintro ⟨hname, rfl⟩
      have hlt := List.idxOf_lt_length_iff.mpr hname
      refine ⟨history.alphabet.toList.idxOf name, ?_, (zero_add _).symm⟩
      rw [List.getElem?_eq_getElem hlt, List.getElem_idxOf]

theorem ranks_rank
    (history : History) :
    Ranks history.names history.rank := by
  have hget {name : String} (hname : name ∈ history.names) :
      ∃ i, ∃ h : i < history.alphabet.toList.length,
        history.alphabet.toList[i] = name ∧ history.rank name = i := by
    have hlt := List.idxOf_lt_length_iff.mpr (mem_alphabet.mpr hname)
    exact ⟨_, hlt, List.getElem_idxOf hlt, rfl⟩
  have hascending := List.pairwise_iff_getElem.mp history.alphabet.ascending
  constructor
  case increasing =>
    intro name hname other hother hlt
    obtain ⟨i, hi, rfl, hrank⟩ := hget hname
    obtain ⟨j, hj, rfl, hrank'⟩ := hget hother
    rw [hrank, hrank', Nat.cast_lt]
    by_contra hle
    rcases Nat.eq_or_lt_of_not_lt hle with heq | hgt
    · subst heq
      exact String.lt_irrefl _ hlt
    · exact String.lt_asymm hlt (hascending j i hj hi hgt)
  case bijOn =>
    rw [ncard_names]
    refine ⟨fun name hname => ?_, fun name hname other hother heq => ?_, fun n hn => ?_⟩
    · obtain ⟨i, hi, -, hrank⟩ := hget hname
      rw [hrank, Set.mem_Ico]
      exact ⟨Int.natCast_nonneg i, Nat.cast_lt.mpr hi⟩
    · obtain ⟨i, hi, rfl, hrank⟩ := hget hname
      obtain ⟨j, hj, rfl, hrank'⟩ := hget hother
      rw [hrank, hrank', Nat.cast_inj] at heq
      subst heq
      rfl
    · obtain ⟨hnonneg, hlt⟩ := Set.mem_Ico.mp hn
      obtain ⟨i, rfl⟩ := Int.eq_ofNat_of_zero_le hnonneg
      have hi : i < history.alphabet.toList.length := Nat.cast_lt.mp hlt
      refine ⟨history.alphabet.toList[i], mem_alphabet.mp (List.getElem_mem hi), ?_⟩
      rw [rank, history.nodup_alphabet.idxOf_getElem]

/-! ## Cells -/

/-- A number stands for a cell. -/
structure StandsFor (code : String → Int) (symbol : Symbol) (n : Int) : Prop where
  blank_iff : n = blankCode ↔ symbol = none
  eq_code : ∀ name, symbol = some name → n = code name
  fits : -cellBound ≤ n ∧ n < cellBound

theorem checkCode_eq_ok_iff
    {code n : Int} :
    checkCode code = .ok n ↔ n = code ∧ -cellBound ≤ code ∧ code < cellBound := by
  have hbounds : cellBound ≤ wordBound := by decide
  rw [checkCode]
  simp only [Bool.or_eq_true, decide_eq_true_eq]
  split_ifs with hword hcell
  · refine ⟨nofun, ?_⟩
    rintro ⟨-, hlow, hhigh⟩
    omega
  · refine ⟨nofun, ?_⟩
    rintro ⟨-, hlow, hhigh⟩
    omega
  · rw [Except.ok.injEq]
    constructor
    · rintro rfl
      refine ⟨rfl, ?_⟩
      omega
    · exact fun h => h.1.symm

theorem isOverflow_checkCode
    {code : Int} (hcode : 0 ≤ code) :
    FailsOnly HistoryFault.IsOverflow (checkCode code) := by
  have hcell : 0 ≤ cellBound := by decide
  have hbounds : cellBound ≤ wordBound := by decide
  rw [checkCode]
  simp only [Bool.or_eq_true, decide_eq_true_eq]
  split_ifs with hword hcell
  · apply failsOnly_error
    change cellBound ≤ code
    omega
  · apply failsOnly_error
    change cellBound ≤ code
    omega
  · exact failsOnly_ok code

section

variable {history : History} {name : String}

theorem encodeCell_autoEncoding
    (hname : name ∈ history.names) :
    encodeCell history.autoEncoding (some name) = checkCode (history.rank name) := by
  have hnumbers := history.numbers_autoEncoding
  have hlookup : history.autoEncoding.lookup name = some (history.rank name) :=
    (lookup_eq_some_iff_mem hnumbers.ascending.nodup).mpr ((hnumbers.mem_iff _ _).mpr ⟨hname, rfl⟩)
  rw [encodeCell, hlookup]

theorem rank_nonneg
    (history : History) (name : String) :
    0 ≤ history.rank name :=
  Int.natCast_nonneg _

/-- A cell of a history that is numbered by itself fails to be encoded for one reason only. -/
theorem isOverflow_encodeCell
    {tape : Tape} (htape : tape ∈ history) {symbol : Symbol} (hsymbol : symbol ∈ tape) :
    FailsOnly HistoryFault.IsOverflow (encodeCell history.autoEncoding symbol) := by
  cases symbol with
  | none => exact failsOnly_ok blankCode
  | some name =>
      have hname : name ∈ history.names := ⟨tape, htape, hsymbol⟩
      rw [encodeCell_autoEncoding hname]
      exact isOverflow_checkCode (history.rank_nonneg name)

theorem rank_lt_cellBound_iff :
    (∀ name ∈ history.names, history.rank name < cellBound) ↔ history.names.ncard ≤ 32768 := by
  obtain ⟨hmaps, -, hsurj⟩ := history.ranks_rank.bijOn
  constructor
  · intro hfits
    by_contra hlt
    have hlarge : (32768 : Int) ∈ Set.Ico 0 (history.names.ncard : Int) := by
      rw [Set.mem_Ico]
      omega
    obtain ⟨name, hname, hrank⟩ := hsurj hlarge
    exact absurd (hfits name hname) (by rw [hrank]; decide)
  · intro hle name hname
    have hrank := (Set.mem_Ico.mp (hmaps hname)).2
    rw [cellBound]
    omega

/-- A cell of a history that is encoded can be read from its number. -/
theorem reads_encodeCell
    {tape : Tape} (htape : tape ∈ history) {symbol : Symbol} (hsymbol : symbol ∈ tape) {n : Int}
    (h : encodeCell history.autoEncoding symbol = .ok n) :
    StandsFor history.rank symbol n ∧ symbolOf history.autoEncoding n = symbol ∧
      Diagram.visible n = symbol.map history.rank := by
  cases symbol with
  | none =>
      cases h
      exact ⟨⟨by simp, nofun, by decide⟩, if_pos rfl, if_pos rfl⟩
  | some name =>
      have hname : name ∈ history.names := ⟨tape, htape, hsymbol⟩
      rw [encodeCell_autoEncoding hname, checkCode_eq_ok_iff] at h
      obtain ⟨rfl, hfits⟩ := h
      have hblank : history.rank name ≠ blankCode := by
        intro heq
        have hnonneg := history.rank_nonneg name
        rw [heq] at hnonneg
        exact absurd hnonneg (by decide)
      refine ⟨⟨by simp [hblank], ?_, hfits⟩, ?_, if_neg hblank⟩
      · rintro _ ⟨⟩
        rfl
      · exact symbolOf_eq_some history.numbers_autoEncoding history.ranks_rank.bijOn.injOn hname
          hblank

end

/-! ## Matrices -/

/-- The matrix has a row for each tape and a column for each cell, with its number there. -/
structure Shows (m : Matrix) (code : String → Int) (history : History) (width : Nat) : Prop where
  rows : m.rows = history.length
  columns : m.columns = width
  cells : List.Forall₂ (List.Forall₂ (StandsFor code)) history m.cells

section

variable {history : History} {width : Nat}

theorem toMatrix_eq_map
    (hne : history ≠ []) (hwidth : ∀ tape ∈ history, tape.length = width)
    (encoding : Option Encoding) :
    history.toMatrix encoding =
      (fun cells => (⟨history.length, width, cells⟩, encoding.getD history.autoEncoding)) <$>
        history.mapM fun tape => tape.mapM (encodeCell (encoding.getD history.autoEncoding)) := by
  cases history with
  | nil => exact absurd rfl hne
  | cons first rest =>
      have hfirst : first.length = width := hwidth first List.mem_cons_self
      have heven : (first :: rest).any (·.length != first.length) = false := by
        rw [List.any_eq_false]
        intro tape htape
        rw [hwidth tape htape, hfirst]
        simp
      rw [toMatrix, heven, hfirst]
      rfl

theorem isOverflow_toMatrix
    (hne : history ≠ []) (hwidth : ∀ tape ∈ history, tape.length = width) :
    FailsOnly HistoryFault.IsOverflow (history.toMatrix none) := by
  rw [toMatrix_eq_map hne hwidth]
  refine FailsOnly.map (FailsOnly.mapM fun tape htape => FailsOnly.mapM fun symbol hsymbol => ?_)
  exact isOverflow_encodeCell htape hsymbol

/-- A history has a matrix when a cell has room for the number of each of its symbols. -/
theorem exists_toMatrix_iff
    (hne : history ≠ []) (hwidth : ∀ tape ∈ history, tape.length = width) :
    (∃ result, history.toMatrix none = .ok result) ↔ history.names.ncard ≤ 32768 := by
  rw [← rank_lt_cellBound_iff, toMatrix_eq_map hne hwidth]
  constructor
  · rintro ⟨result, hresult⟩ name ⟨tape, htape, hsymbol⟩
    obtain ⟨cells, hcells, -⟩ := map_eq_ok_iff.mp hresult
    obtain ⟨row, hrow⟩ := exists_mapM_iff.mp ⟨cells, hcells⟩ tape htape
    obtain ⟨n, hn⟩ := exists_mapM_iff.mp ⟨row, hrow⟩ (some name) hsymbol
    rw [Option.getD_none, encodeCell_autoEncoding ⟨tape, htape, hsymbol⟩,
      checkCode_eq_ok_iff] at hn
    exact hn.2.2
  · intro hfits
    have hcells : ∃ cells, (history.mapM fun tape =>
        tape.mapM (encodeCell history.autoEncoding)) = .ok cells := by
      apply exists_mapM_iff.mpr
      intro tape htape
      apply exists_mapM_iff.mpr
      intro symbol hsymbol
      cases symbol with
      | none => exact ⟨blankCode, rfl⟩
      | some name =>
          have hname : name ∈ history.names := ⟨tape, htape, hsymbol⟩
          have hlow : -cellBound ≤ history.rank name :=
            le_trans (by decide) (history.rank_nonneg name)
          refine ⟨history.rank name, ?_⟩
          rw [encodeCell_autoEncoding hname, checkCode_eq_ok_iff]
          exact ⟨rfl, hlow, hfits name hname⟩
    obtain ⟨cells, hcells⟩ := hcells
    exact ⟨_, map_eq_ok_iff.mpr ⟨cells, hcells, rfl⟩⟩

/-- All that is made of a history can be read back to it: the matrix, the array file with the bytes
of that matrix, and the diagram, which shows nothing in the blank cells. -/
structure Keeps (history : History) (width : Nat) (m : Matrix) (encoding : Encoding)
    (code : String → Int) : Prop where
  toMatrix : history.toMatrix none = .ok (m, encoding)
  numbers : Numbers encoding history.names code
  ranks : Ranks history.names code
  shows : Shows m code history width
  ofCells : ofCells encoding m.cells = history
  saved : Launch.arrayBytes history = .ok (ArrayFile.bytes m)
  drawn : ∀ title, ∃ d, Diagram.ofHistory history title = .ok d ∧
    d.image = if width = 0 then none else some (history.map (·.map (Option.map code)))

theorem forall₂_reads
    {cells : List (List Int)}
    (h : (history.mapM fun tape => tape.mapM (encodeCell history.autoEncoding)) = .ok cells) :
    List.Forall₂ (List.Forall₂ fun symbol n =>
      StandsFor history.rank symbol n ∧ symbolOf history.autoEncoding n = symbol ∧
        Diagram.visible n = symbol.map history.rank) history cells := by
  refine forall₂_imp_of_mem (mapM_eq_ok_iff.mp h) fun tape htape row hrow => ?_
  refine forall₂_imp_of_mem (mapM_eq_ok_iff.mp hrow) fun symbol hsymbol n hn => ?_
  exact reads_encodeCell htape hsymbol hn

theorem keeps_of_toMatrix
    (hne : history ≠ []) (hwidth : ∀ tape ∈ history, tape.length = width) {m : Matrix}
    {encoding : Encoding} (h : history.toMatrix none = .ok (m, encoding)) :
    Keeps history width m encoding history.rank := by
  obtain ⟨cells, hcells, hresult⟩ := map_eq_ok_iff.mp (toMatrix_eq_map hne hwidth none ▸ h)
  cases hresult
  have hreads := forall₂_reads hcells
  have hdecoded : history.map (·.map id) =
      cells.map (·.map (symbolOf history.autoEncoding)) :=
    map_eq_map_of_forall₂ (hreads.imp fun _ _ hrow =>
      map_eq_map_of_forall₂ (hrow.imp fun _ _ hn => hn.2.1.symm))
  have hvisible : history.map (·.map (Option.map history.rank)) =
      cells.map (·.map Diagram.visible) :=
    map_eq_map_of_forall₂ (hreads.imp fun _ _ hrow =>
      map_eq_map_of_forall₂ (hrow.imp fun _ _ hn => hn.2.2.symm))
  simp only [List.map_id_fun, id_eq, List.map_id_fun'] at hdecoded
  constructor
  case toMatrix => exact h
  case numbers => exact history.numbers_autoEncoding
  case ranks => exact history.ranks_rank
  case shows => exact ⟨rfl, rfl, hreads.imp fun _ _ hrow => hrow.imp fun _ _ hn => hn.1⟩
  case ofCells => exact hdecoded.symm
  case saved => exact map_eq_ok_iff.mpr ⟨_, h, rfl⟩
  case drawn =>
    intro title
    rw [Diagram.ofHistory, h, hvisible]
    refine ⟨_, rfl, ?_⟩
    have hrows : history.length ≠ 0 := mt List.eq_nil_of_length_eq_zero hne
    simp [hrows]

/-- A history whose tapes have the same length is kept in its matrix, its file and its diagram, or
it has more symbols than a cell has room for, and then it has none of them. -/
theorem keeps_or_overflows
    (hne : history ≠ []) (hwidth : ∀ tape ∈ history, tape.length = width) :
    (history.names.ncard ≤ 32768 → ∃ m encoding code, Keeps history width m encoding code) ∧
      (32768 < history.names.ncard → ∃ fault, fault.IsOverflow ∧
        history.toMatrix none = .error fault ∧ Launch.arrayBytes history = .error fault ∧
        ∀ title, Diagram.ofHistory history title = .error fault) := by
  constructor
  · intro hfits
    obtain ⟨⟨m, encoding⟩, hmatrix⟩ := (exists_toMatrix_iff hne hwidth).mpr hfits
    exact ⟨m, encoding, history.rank, keeps_of_toMatrix hne hwidth hmatrix⟩
  · intro hmany
    cases hmatrix : history.toMatrix none with
    | ok result =>
        exact absurd ((exists_toMatrix_iff hne hwidth).mp ⟨result, hmatrix⟩) (not_le.mpr hmany)
    | error fault =>
        refine ⟨fault, isOverflow_toMatrix hne hwidth fault hmatrix, rfl, ?_, fun title => ?_⟩
        · rw [Launch.arrayBytes, hmatrix]
          rfl
        · rw [Diagram.ofHistory, hmatrix]
          rfl

end

/-- A tape with the given number of symbols, the first of which has no characters. -/
def tally (count : Nat) : Tape :=
  (List.range count).map fun i => some (String.ofList (List.replicate i 'a'))

theorem ncard_names_tally
    (count : Nat) :
    (names [tally count]).ncard = count := by
  have hinjective : Function.Injective fun i => String.ofList (List.replicate i 'a') := by
    intro i j heq
    simpa using congrArg String.length heq
  have hnames : names [tally count] =
      ((Finset.range count).image fun i => String.ofList (List.replicate i 'a')) := by
    ext name
    simp [names, tally]
  rw [hnames, Set.ncard_coe_finset, Finset.card_image_of_injective _ hinjective,
    Finset.card_range]

/-- Two tapes with a symbol that has no characters are kept, and a tape with one symbol more than
there are numbers is not. -/
theorem keeps_or_overflows_of_empty_symbol :
    let history : History := [[some "b", none, some ""], [some "a", some "b", none]]
    history ≠ [] ∧ (∀ tape ∈ history, tape.length = 3) ∧ history.names.ncard ≤ 32768 ∧
      history.toMatrix none =
        .ok (⟨2, 3, [[2, -1, 0], [1, 2, -1]]⟩, [("", 0), ("a", 1), ("b", 2)]) ∧
      (∃ m encoding code, Keeps history 3 m encoding code) ∧
      32768 < (names [tally 32769]).ncard ∧
      ∃ fault, fault.IsOverflow ∧ toMatrix [tally 32769] none = .error fault := by
  intro history
  have hne : history ≠ [] := by decide
  have hwidth : ∀ tape ∈ history, tape.length = 3 := by decide
  have hfits : history.names.ncard ≤ 32768 := by
    rw [ncard_names]
    decide +kernel
  have hmany : 32768 < (names [tally 32769]).ncard := by
    rw [ncard_names_tally]
    exact Nat.lt_succ_self 32768
  have htally : ∀ tape ∈ [tally 32769], tape.length = 32769 := by
    intro tape htape
    rw [List.mem_singleton.mp htape, tally, List.length_map, List.length_range]
  obtain ⟨fault, hoverflow, hmatrix, -⟩ :=
    (keeps_or_overflows (List.cons_ne_nil _ _) htally).2 hmany
  exact ⟨hne, hwidth, hfits, rfl, (keeps_or_overflows hne hwidth).1 hfits, hmany, fault,
    hoverflow, hmatrix⟩

end History

end RingTape
