import Mathlib.Tactic.Push
import ServingSim.Lib.Dictionary
import ServingSim.Lib.KeyedUnion
import ServingSim.Profiling.Merge

/-
  One table of a merge.

  A row is read here as the values of its columns, NULL where it has none (`value row`), so a row
  keeps its reading when its table gains an optional column or when it is copied to another
  table.
-/

namespace ServingSim

namespace ProfileMerge

open KeyedUnion

variable {Value : Type}

/-- A row as it is read: the values of its columns. -/
abbrev Reading (Value : Type) := String → Option Value

def keyAt (key : List String) (reading : Reading Value) : List (Option Value) := key.map reading

/-- What a merge compares of a row: everything but its surrogate key and its creation time. -/
def visible (reading : Reading Value) : Reading Value :=
  fun column => if column = "id" ∨ column = "created_at" then none else reading column

def readings (table : Table Value) : List (Reading Value) := table.rows.map value

/-! ## Stored tables -/

/-- A table that SQLite stores under a contract: its column names are distinct, its rows have
    its columns, NOT NULL and the unique key hold, and a nullable column is not a hidden one. -/
structure ProfileTable (name : String) (table : Table Value) (contract : TableContract) : Prop where
  contract_eq : tableContract name table = .ok contract
  names : (table.columns.map Column.name).Nodup
  key_stored : ∀ column ∈ contract.semanticKey, column ∈ contract.columns ∧ column ≠ "id"
  nullable : ∀ column ∈ table.columns, column.notnull = false → column.hidden = 0
  cells : ∀ row ∈ table.rows,
    row.cells.map Prod.fst = (table.columns.filter fun column => column.pk = 0).map Column.name
  notnull : ∀ row ∈ table.rows, ∀ column ∈ table.columns, column.pk = 0 → column.notnull = true →
    value row column.name ≠ none
  keys : (table.rows.map (keyOf contract.semanticKey)).Nodup

theorem tableContract_eq_ok {name : String} {table : Table Value} {contract : TableContract}
    (h : tableContract name table = .ok contract) :
    primaryKeyOf table = ["id"] ∧ semanticKeyOf name table = .ok contract.semanticKey ∧
      nullableColumns table contract.semanticKey = [] ∧ contract.name = name ∧
      contract.columns = table.columns.map Column.name ∧ contract.primaryKey = ["id"] ∧
      contract.columnSchema = table.columns := by
  obtain ⟨_, _, h⟩ := bind_eq_ok_iff.mp h
  obtain ⟨_, hprimary, h⟩ := bind_eq_ok_iff.mp h
  obtain ⟨key, hkey, h⟩ := bind_eq_ok_iff.mp h
  obtain ⟨_, hnullable, h⟩ := bind_eq_ok_iff.mp h
  obtain rfl := Except.ok.inj h
  have hid := ensure_eq_ok_iff.mp hprimary
  exact ⟨hid, hkey, ensure_eq_ok_iff.mp hnullable, rfl, rfl, hid, rfl⟩

/-- The one primary key column is `id`. -/
theorem pk_pos_iff {table : Table Value} (hprimary : primaryKeyOf table = ["id"])
    (hnames : (table.columns.map Column.name).Nodup) {column : Column}
    (hmem : column ∈ table.columns) : 0 < column.pk ↔ column.name = "id" := by
  have hkeys : ∀ other ∈ table.columns, 0 < other.pk → other.name ∈ primaryKeyOf table :=
    fun other hother hpk => List.mem_map_of_mem (List.mem_filter.mpr
      ⟨(List.mem_insertionSort _).mpr hother, decide_eq_true hpk⟩)
  constructor
  · intro hpk
    exact List.mem_singleton.mp (hprimary ▸ hkeys column hmem hpk)
  · intro hname
    have hid : "id" ∈ primaryKeyOf table := hprimary ▸ List.mem_singleton_self _
    obtain ⟨other, hother, hotherName⟩ := List.mem_map.mp hid
    obtain ⟨hsorted, hpk⟩ := List.mem_filter.mp hother
    have heq : other = column := List.inj_on_of_nodup_map hnames
      ((List.mem_insertionSort _).mp hsorted) hmem (hotherName.trans hname.symm)
    exact heq ▸ of_decide_eq_true hpk

/-- The stored columns are all the columns but `id`. -/
theorem mem_stored_iff {table : Table Value} (hprimary : primaryKeyOf table = ["id"])
    (hnames : (table.columns.map Column.name).Nodup) {name : String} :
    name ∈ (table.columns.filter fun column => column.pk = 0).map Column.name ↔
      name ∈ table.columns.map Column.name ∧ name ≠ "id" := by
  constructor
  · intro h
    obtain ⟨column, hcolumn, rfl⟩ := List.mem_map.mp h
    obtain ⟨hmem, hpk⟩ := List.mem_filter.mp hcolumn
    refine ⟨List.mem_map_of_mem hmem, fun hid => ?_⟩
    have hpos := (pk_pos_iff hprimary hnames hmem).mpr hid
    exact absurd (of_decide_eq_true hpk) (Nat.pos_iff_ne_zero.mp hpos)
  · rintro ⟨h, hid⟩
    obtain ⟨column, hmem, rfl⟩ := List.mem_map.mp h
    have hpk : ¬0 < column.pk := mt (pk_pos_iff hprimary hnames hmem).mp hid
    exact List.mem_map_of_mem (List.mem_filter.mpr ⟨hmem, decide_eq_true (by omega)⟩)

section stored

variable {name : String} {table : Table Value} {contract : TableContract}

theorem ProfileTable.key_set (h : ProfileTable name table contract) {row : Row Value}
    (hrow : row ∈ table.rows) {column : String} (hcolumn : column ∈ contract.semanticKey) :
    value row column ≠ none := by
  obtain ⟨hprimary, _, hnullable, _, hcolumns, _, _⟩ := tableContract_eq_ok h.contract_eq
  obtain ⟨hmem, hid⟩ := h.key_stored column hcolumn
  rw [hcolumns] at hmem
  obtain ⟨stored, hstored, rfl⟩ := List.mem_map.mp hmem
  have hpk : ¬0 < stored.pk := mt (pk_pos_iff hprimary h.names hstored).mp hid
  refine h.notnull row hrow stored hstored (by omega) ?_
  by_contra hnull
  have hin : stored.name ∈ nullableColumns table contract.semanticKey :=
    List.mem_filter.mpr ⟨hcolumn, List.any_eq_true.mpr ⟨stored, hstored, by simp [hnull]⟩⟩
  rw [hnullable] at hin
  exact List.not_mem_nil hin

/-- A stored row reads NULL outside its table's columns, and its `id` is not among its cells. -/
theorem ProfileTable.value_outside (h : ProfileTable name table contract) {row : Row Value}
    (hrow : row ∈ table.rows) {column : String}
    (hout : ¬(column ∈ table.columns.map Column.name ∧ column ≠ "id")) :
    value row column = none := by
  obtain ⟨hprimary, _⟩ := tableContract_eq_ok h.contract_eq
  have hcells : column ∉ row.cells.map Prod.fst := by
    rw [h.cells row hrow]
    exact mt (mem_stored_iff hprimary h.names).mp hout
  rw [value, Dictionary.lookup_eq_none hcells]
  rfl

theorem ProfileTable.readings_keys (h : ProfileTable name table contract) :
    ((readings table).map (keyAt contract.semanticKey)).Nodup := by
  rw [readings, List.map_map]
  exact h.keys

end stored

/-! ## Rows that move -/

theorem lookup_map_self {V : Type} (names : List String) (f : String → V) (name : String) :
    (names.map fun column => (column, f column)).lookup name =
      if name ∈ names then some (f name) else none := by
  induction names with
  | nil => rfl
  | cons head names ih =>
    rw [List.map_cons, List.lookup_cons, ih]
    by_cases hname : name = head
    · rw [hname, beq_self_eq_true, if_pos List.mem_cons_self]
    · have hne : (name == head) = false := beq_eq_false_iff_ne.mpr hname
      simp [hne, hname]

theorem value_addColumns (table : Table Value) (extra : List Column) :
    readings (addColumns table extra) = readings table := by
  rw [readings, readings, addColumns, List.map_map]
  refine List.map_congr_left fun row _ => ?_
  funext column
  show ((row.cells ++ extra.map fun added : Column => (added.name, none)).lookup column).join = _
  rw [List.lookup_append, value]
  cases hlookup : row.cells.lookup column with
  | some cell => rfl
  | none =>
    have hnull : (extra.map fun column => (column.name, (none : Option Value))) =
        (extra.map Column.name).map fun name => (name, none) := by
      rw [List.map_map]
      rfl
    rw [Option.none_or, hnull, lookup_map_self]
    by_cases hmem : column ∈ extra.map Column.name
    · rw [if_pos hmem]
      rfl
    · rw [if_neg hmem]

/-- A reading that is NULL outside the columns a merge inserts. -/
def Covered (contract : TableContract) (reading : Reading Value) : Prop :=
  ∀ column, column ∉ contract.insertColumns → reading column = none

/-- A table that takes in rows under a contract. -/
structure Takes (contract : TableContract) (table : Table Value) : Prop where
  primary : contract.primaryKey = ["id"]
  stored : ∀ name, name ∈ (table.columns.filter fun column => column.pk = 0).map Column.name ↔
    name ∈ contract.insertColumns

theorem value_of_not_mem {row : Row Value} {column : String}
    (h : column ∉ row.cells.map Prod.fst) : value row column = none := by
  rw [value, Dictionary.lookup_eq_none h]
  rfl

section insert

variable {contract : TableContract} {table : Table Value} {row : Row Value}

theorem value_insertRow (sqlite : Sqlite Value) (h : Takes contract table)
    (hcovered : Covered contract (value row))
    (hplain : ∀ column ∈ table.columns, column.pk = 0 → column.name ∉ row.cells.map Prod.fst →
      column.dfltValue = none) :
    readings (insertRow sqlite table contract row) = readings table ++ [value row] := by
  rw [readings, insertRow, List.map_append]
  refine congrArg (readings table ++ [·]) ?_
  set stored := table.columns.filter fun column => column.pk = 0 with hstored
  have hcell : ∀ column ∈ stored,
      (if column.name ∈ contract.insertColumns.filter fun name => name ∈ row.cells.map Prod.fst
        then value row column.name else column.dfltValue.bind sqlite.evaluate) =
      value row column.name := by
    intro column hcolumn
    by_cases hmem : column.name ∈ row.cells.map Prod.fst
    · have hin := (h.stored column.name).mp (List.mem_map_of_mem hcolumn)
      rw [if_pos (List.mem_filter.mpr ⟨hin, decide_eq_true hmem⟩)]
    · have hnot : column.name ∉
          contract.insertColumns.filter fun name => name ∈ row.cells.map Prod.fst :=
        fun hin => hmem (of_decide_eq_true (List.mem_filter.mp hin).2)
      obtain ⟨hin, hpk⟩ := List.mem_filter.mp hcolumn
      rw [if_neg hnot, hplain column hin (of_decide_eq_true hpk) hmem, value_of_not_mem hmem]
      rfl
  have hcells : (stored.map fun column => (column.name,
      if column.name ∈ contract.insertColumns.filter fun name => name ∈ row.cells.map Prod.fst
        then value row column.name else column.dfltValue.bind sqlite.evaluate)) =
      (stored.map Column.name).map fun name => (name, value row name) := by
    rw [List.map_map]
    exact List.map_congr_left fun column hcolumn => by rw [hcell column hcolumn]; rfl
  funext column
  show (List.lookup column _).join = value row column
  rw [hcells, lookup_map_self]
  by_cases hmem : column ∈ stored.map Column.name
  · rw [if_pos hmem]
    rfl
  · rw [if_neg hmem, hcovered column (mt (h.stored column).mpr hmem)]
    rfl

variable [DecidableEq Value]

variable {existing : Row Value}

theorem all_sqlEq_iff {key : List String}
    (hset : ∀ column ∈ key, value row column ≠ none) :
    (key.all fun column => sqlEq (value existing column) (value row column)) = true ↔
      keyAt key (value existing) = keyAt key (value row) := by
  rw [List.all_eq_true, keyAt, keyAt, List.map_inj_left]
  refine forall₂_congr fun column hcolumn => ?_
  rw [sqlEq, Bool.and_eq_true, decide_eq_true_iff]
  refine ⟨And.right, fun heq => ⟨?_, heq⟩⟩
  rw [heq]
  exact Option.isSome_iff_ne_none.mpr (hset column hcolumn)

theorem findByKey_eq_none_iff (hset : ∀ column ∈ contract.semanticKey, value row column ≠ none) :
    findByKey table contract row = none ↔ keyAt contract.semanticKey (value row) ∉
        (readings table).map (keyAt contract.semanticKey) := by
  rw [findByKey, List.find?_eq_none, readings, List.map_map]
  constructor
  · intro h hmem
    obtain ⟨existing, hexisting, hkey⟩ := List.mem_map.mp hmem
    exact h existing hexisting ((all_sqlEq_iff hset).mpr hkey)
  · intro h existing hexisting hall
    exact h (List.mem_map.mpr ⟨existing, hexisting, (all_sqlEq_iff hset).mp hall⟩)

theorem findByKey_some
    (hset : ∀ column ∈ contract.semanticKey, value row column ≠ none)
    (h : findByKey table contract row = some existing) :
    value existing ∈ readings table ∧
      keyAt contract.semanticKey (value existing) = keyAt contract.semanticKey (value row) := by
  rw [findByKey] at h
  have hall := List.find?_some h
  exact ⟨List.mem_map_of_mem (List.mem_of_find?_eq_some h), (all_sqlEq_iff hset).mp hall⟩

theorem differing_eq_nil_iff (hprimary : contract.primaryKey = ["id"])
    (hexisting : Covered contract (value existing)) (hrow : Covered contract (value row)) :
    differing contract existing row = [] ↔ visible (value existing) = visible (value row) := by
  rw [differing, List.filter_eq_nil_iff]
  constructor
  · intro h
    funext column
    by_cases hcolumn : column ∈ contract.insertColumns
    · by_cases hignored : column = "id" ∨ column = "created_at"
      · rw [visible, visible, if_pos hignored, if_pos hignored]
      · have hmem : column ∈ contract.equalityColumns := List.mem_filter.mpr
          ⟨hcolumn, decide_eq_true fun hin => hignored (.inr (List.mem_singleton.mp hin))⟩
        have heq : value existing column = value row column := by
          simpa using h column hmem
        rw [visible, visible, heq]
    · rw [visible, visible, hexisting column hcolumn, hrow column hcolumn]
  · intro h column hmem
    obtain ⟨hin, hnot⟩ := List.mem_filter.mp hmem
    have hid : column ≠ "id" := fun heq => by
      have hout := of_decide_eq_true (List.mem_filter.mp hin).2
      rw [hprimary, heq] at hout
      exact hout (List.mem_singleton_self _)
    have hcreated : column ≠ "created_at" := fun heq =>
      of_decide_eq_true hnot (heq ▸ List.mem_singleton_self _)
    have heq := congrFun h column
    rw [visible, visible, if_neg (not_or.mpr ⟨hid, hcreated⟩),
      if_neg (not_or.mpr ⟨hid, hcreated⟩)] at heq
    simpa using heq

end insert

/-! ## The loop over the right rows -/

/-- Whether two readings are the same but for `id` and creation time. -/
def Same (left right : Reading Value) : Prop := visible left = visible right

/-- Readings are compared at every column name, so no program decides this. -/
noncomputable instance : DecidableRel (@Same Value) := fun _ _ => Classical.propDecidable _

theorem countP_concat {R : Type} (p : R → Prop) [DecidablePred p] (seen : List R) (row : R) :
    (seen ++ [row]).countP (fun r => p r) =
        seen.countP (fun r => p r) + if p row then 1 else 0 := by
  rw [List.countP_append, List.countP_singleton]
  simp only [decide_eq_true_eq]

section loop

variable [DecidableEq Value]

/-- The counts of a merged table, from the rows of both sides. -/
noncomputable def tally (name : String) (key : List String) (left right : List (Reading Value)) :
    TableMergeStats where
  table := name
  leftRows := left.length
  rightRows := right.length
  insertedRows := right.countP fun reading => Fresh (keyAt key) left reading
  duplicateRows := right.countP fun reading => Meets (keyAt key) Same left reading
  conflictRows := right.countP fun reading =>
    Meets (keyAt key) (fun x y => ¬Same x y) left reading

/-- What the loop keeps, over the rows it has taken in: the output holds the keyed union, the
    counters count, and an output that lacked no key is untouched. -/
structure Merged (contract : TableContract) (output : Table Value)
    (seen : List (Reading Value)) (state : Merging Value) : Prop where
  columns : state.table.columns = output.columns
  rows : readings state.table = union (keyAt contract.semanticKey) (readings output) seen
  inserted : state.inserted =
    (tally contract.name contract.semanticKey (readings output) seen).insertedRows
  duplicates : state.duplicates =
    (tally contract.name contract.semanticKey (readings output) seen).duplicateRows
  conflicts : state.conflicts.length =
    (tally contract.name contract.semanticKey (readings output) seen).conflictRows
  kept : (∀ reading ∈ seen, keyAt contract.semanticKey reading ∈
    (readings output).map (keyAt contract.semanticKey)) → state.table = output

variable {contract : TableContract} {output : Table Value}

theorem Merged.step (sqlite : Sqlite Value) {leftRuns : Table Value → Option (Table Value)}
    {rightRuns : Option (Table Value)} {seen : List (Reading Value)} {state : Merging Value}
    (h : Merged contract output seen state) (htakes : Takes contract output)
    (hleft : ∀ reading ∈ readings output, Covered contract reading)
    (hkeys : ((readings output).map (keyAt contract.semanticKey)).Nodup)
    (hseen : ((seen.map (keyAt contract.semanticKey))).Nodup)
    (hcovered : ∀ reading ∈ seen, Covered contract reading) {row : Row Value}
    (hrow : Covered contract (value row))
    (hset : ∀ column ∈ contract.semanticKey, value row column ≠ none)
    (hplain : ∀ column ∈ output.columns, column.pk = 0 →
      column.name ∉ row.cells.map Prod.fst → column.dfltValue = none)
    (hnew : keyAt contract.semanticKey (value row) ∉ seen.map (keyAt contract.semanticKey)) :
    Merged contract output (seen ++ [value row])
      (mergeRow sqlite contract leftRuns rightRuns state row) := by
  have hpresent : keyAt contract.semanticKey (value row) ∈
      (readings state.table).map (keyAt contract.semanticKey) ↔
      keyAt contract.semanticKey (value row) ∈
        (readings output).map (keyAt contract.semanticKey) := by
    rw [h.rows]
    exact mem_keys_union.trans (or_iff_left hnew)
  have hmeets : ∀ {P : Reading Value → Reading Value → Prop},
      Meets (keyAt contract.semanticKey) P (readings state.table) (value row) ↔
        Meets (keyAt contract.semanticKey) P (readings output) (value row) := by
    intro P
    rw [h.rows]
    exact meets_union hnew
  have hunion : absorb (keyAt contract.semanticKey) (readings state.table) (value row) =
      union (keyAt contract.semanticKey) (readings output) (seen ++ [value row]) := by
    rw [h.rows]
    exact absorb_union hnew
  have hinserted := h.inserted
  have hduplicates := h.duplicates
  have hconflicts := h.conflicts
  simp only [tally] at hinserted hduplicates hconflicts
  -- no earlier row of the right has the key, so it is met in the output or not at all
  cases hfound : findByKey state.table contract row with
  | none =>
    have habsent := (findByKey_eq_none_iff hset).mp hfound
    have hout := mt hpresent.mpr habsent
    have hfresh : Fresh (keyAt contract.semanticKey) (readings output) (value row) := hout
    have hread : readings (insertRow sqlite state.table contract row) =
        readings state.table ++ [value row] := value_insertRow sqlite
      ⟨htakes.primary, h.columns.symm ▸ htakes.stored⟩ hrow (h.columns.symm ▸ hplain)
    rw [mergeRow, hfound]
    refine ⟨h.columns, ?_, ?_, ?_, ?_, ?_⟩
    · rw [hread, ← hunion, absorb, if_neg habsent]
    · simp only [tally, countP_concat, if_pos hfresh, hinserted]
    · simp only [tally, countP_concat, if_neg (not_meets hout), hduplicates, Nat.add_zero]
    · simp only [tally, countP_concat, if_neg (not_meets hout), hconflicts, Nat.add_zero]
    · intro hall
      exact absurd (hall _ (List.mem_append_right _ (List.mem_singleton_self _))) hout
  | some existing =>
    obtain ⟨hmem, hkey⟩ := findByKey_some hset hfound
    have hin : keyAt contract.semanticKey (value row) ∈
        (readings output).map (keyAt contract.semanticKey) :=
      hpresent.mp (hkey ▸ List.mem_map_of_mem hmem)
    have hstale : ¬Fresh (keyAt contract.semanticKey) (readings output) (value row) :=
      not_not.mpr hin
    have hnodup : ((readings state.table).map (keyAt contract.semanticKey)).Nodup := by
      rw [h.rows]
      exact nodup_union hkeys hseen
    have hmet : ∀ {P : Reading Value → Reading Value → Prop},
        Meets (keyAt contract.semanticKey) P (readings output) (value row) ↔
          P (value existing) (value row) := hmeets.symm.trans (meets_iff hnodup hmem hkey)
    have hclash : Meets (keyAt contract.semanticKey) (fun x y => ¬Same x y) (readings output)
        (value row) ↔ ¬Same (value existing) (value row) := hmet
    have hexisting : Covered contract (value existing) := by
      rw [h.rows] at hmem
      exact (mem_union.mp hmem).elim (hleft _) fun hin => hcovered _ hin.1
    have hrows : readings state.table =
        union (keyAt contract.semanticKey) (readings output) (seen ++ [value row]) := by
      rw [← hunion, absorb, if_pos (hpresent.mpr hin)]
    have hkept : (∀ reading ∈ seen ++ [value row], keyAt contract.semanticKey reading ∈
        (readings output).map (keyAt contract.semanticKey)) → state.table = output :=
      fun hall => h.kept fun reading hreading => hall reading (List.mem_append_left _ hreading)
    have hdiffering := differing_eq_nil_iff htakes.primary hexisting hrow
    rw [mergeRow, hfound]
    -- a duplicate where the rows agree, a conflict where they differ; neither changes a row
    by_cases hsame : Same (value existing) (value row)
    · simp only [if_pos (hdiffering.mpr hsame)]
      refine ⟨h.columns, hrows, ?_, ?_, ?_, hkept⟩
      · simp only [tally, countP_concat, if_neg hstale, hinserted, Nat.add_zero]
      · simp only [tally, countP_concat, if_pos (hmet.mpr hsame), hduplicates]
      · simp only [tally, countP_concat, if_neg (mt hclash.mp (not_not.mpr hsame)), hconflicts,
          Nat.add_zero]
    · simp only [if_neg (mt hdiffering.mp hsame)]
      refine ⟨h.columns, hrows, ?_, ?_, ?_, hkept⟩
      · simp only [tally, countP_concat, if_neg hstale, hinserted, Nat.add_zero]
      · simp only [tally, countP_concat, if_neg (mt hmet.mp hsame), hduplicates, Nat.add_zero]
      · simp only [tally, countP_concat, List.length_append, List.length_singleton,
          if_pos (hclash.mpr hsame), hconflicts]

theorem merged_start (contract : TableContract) (output : Table Value) :
    Merged contract output [] ({ table := output } : Merging Value) :=
  ⟨rfl, union_nil_right.symm, rfl, rfl, rfl, fun _ => rfl⟩

theorem Merged.run (sqlite : Sqlite Value) {leftRuns : Table Value → Option (Table Value)}
    {rightRuns : Option (Table Value)} (htakes : Takes contract output)
    (hleft : ∀ reading ∈ readings output, Covered contract reading)
    (hkeys : ((readings output).map (keyAt contract.semanticKey)).Nodup) {rows : List (Row Value)}
    (hrows : ∀ row ∈ rows, Covered contract (value row) ∧
      (∀ column ∈ contract.semanticKey, value row column ≠ none) ∧
      ∀ column ∈ output.columns, column.pk = 0 → column.name ∉ row.cells.map Prod.fst →
        column.dfltValue = none) {seen : List (Reading Value)} {state : Merging Value}
    (h : Merged contract output seen state) (hcovered : ∀ reading ∈ seen, Covered contract reading)
    (hseen : ((seen ++ rows.map value).map (keyAt contract.semanticKey)).Nodup) :
    Merged contract output (seen ++ rows.map value)
      (rows.foldl (mergeRow sqlite contract leftRuns rightRuns) state) := by
  induction rows generalizing seen state with
  | nil => simpa using h
  | cons row rows ih =>
    obtain ⟨hrow, hset, hplain⟩ := hrows row List.mem_cons_self
    rw [List.map_cons, List.append_cons] at hseen
    have hboth : ((seen ++ [value row]).map (keyAt contract.semanticKey)).Nodup := by
      rw [List.map_append] at hseen
      exact (List.nodup_append.mp hseen).1
    have hparts := hboth
    rw [List.map_append] at hparts
    obtain ⟨hold, _, hdisjoint⟩ := List.nodup_append.mp hparts
    have hnew : keyAt contract.semanticKey (value row) ∉
        seen.map (keyAt contract.semanticKey) := fun hmem =>
      hdisjoint _ hmem _ (List.mem_singleton_self _) rfl
    have hstep : Merged contract output (seen ++ [value row])
        (mergeRow sqlite contract leftRuns rightRuns state row) :=
      h.step sqlite htakes hleft hkeys hold hcovered hrow hset hplain hnew
    rw [List.map_cons, List.append_cons, List.foldl_cons]
    refine ih (fun other hother => hrows other (List.mem_cons_of_mem _ hother)) hstep ?_ hseen
    intro reading hreading
    rcases List.mem_append.mp hreading with hin | hin
    · exact hcovered reading hin
    · exact List.mem_singleton.mp hin ▸ hrow

theorem tally_perm {name : String} {key : List String} {left right ordered : List (Reading Value)}
    (h : ordered.Perm right) : tally name key left ordered = tally name key left right := by
  simp only [tally, h.countP_eq, h.length_eq]

/-- What merging one table comes to: the keyed union of the rows, and the counts. -/
structure Outcome (name : String) (key : List String) (left right : List (Reading Value))
    (table : Table Value) (stats : TableMergeStats) (conflicts : List (MergeConflict Value)) :
    Prop where
  rows : ∃ ordered, ordered.Perm right ∧ readings table = union (keyAt key) left ordered
  stats : stats = tally name key left right
  conflicts : conflicts.length = (tally name key left right).conflictRows

theorem selectOrdered_perm (sqlite : Sqlite Value) (table : Table Value)
    (contract : TableContract) : (selectOrdered sqlite table contract).Perm table.rows :=
  List.mergeSort_perm _ _

theorem mergeCommonTable_spec (sqlite : Sqlite Value)
    (leftRuns : Table Value → Option (Table Value)) (rightRuns : Option (Table Value))
    {right : Table Value} (htakes : Takes contract output)
    (hleft : ∀ reading ∈ readings output, Covered contract reading)
    (hkeys : ((readings output).map (keyAt contract.semanticKey)).Nodup)
    (hrows : ∀ row ∈ right.rows, Covered contract (value row) ∧
      (∀ column ∈ contract.semanticKey, value row column ≠ none) ∧
      ∀ column ∈ output.columns, column.pk = 0 → column.name ∉ row.cells.map Prod.fst →
        column.dfltValue = none)
    (hright : ((readings right).map (keyAt contract.semanticKey)).Nodup) :
    ∃ table stats conflicts, mergeCommonTable sqlite contract leftRuns rightRuns output right =
        (table, stats, conflicts) ∧
      Outcome contract.name contract.semanticKey (readings output) (readings right) table stats
        conflicts ∧
      table.columns = output.columns ∧
      ((∀ reading ∈ readings right, keyAt contract.semanticKey reading ∈
        (readings output).map (keyAt contract.semanticKey)) → table = output) := by
  have hperm : ((selectOrdered sqlite right contract).map value).Perm (readings right) :=
    (selectOrdered_perm sqlite right contract).map value
  have hmerged : Merged contract output ((selectOrdered sqlite right contract).map value)
      ((selectOrdered sqlite right contract).foldl
        (mergeRow sqlite contract leftRuns rightRuns) { table := output }) := by
    have hrun : Merged contract output ([] ++ (selectOrdered sqlite right contract).map value)
        ((selectOrdered sqlite right contract).foldl
          (mergeRow sqlite contract leftRuns rightRuns) { table := output }) :=
      Merged.run sqlite htakes hleft hkeys
        (fun row hrow => hrows row ((selectOrdered_perm sqlite right contract).mem_iff.mp hrow))
        (merged_start contract output) (fun _ h => absurd h List.not_mem_nil)
        ((hperm.map _).nodup_iff.mpr hright)
    simpa using hrun
  refine ⟨_, _, _, rfl, ⟨⟨_, hperm, hmerged.rows⟩, ?_, ?_⟩, hmerged.columns, ?_⟩
  · rw [← tally_perm hperm, hmerged.inserted, hmerged.duplicates, hmerged.conflicts]
    simp only [tally, readings, List.length_map, hperm.length_eq]
  · rw [hmerged.conflicts, tally_perm hperm]
  · intro hall
    exact hmerged.kept fun reading hreading => hall reading (hperm.mem_iff.mp hreading)

end loop

end ProfileMerge

end ServingSim
