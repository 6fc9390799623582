import ServingSim.Profiling.MergedTable

/-
  The columns that two tables of one name merge under.
-/

namespace ServingSim

namespace ProfileMerge

open KeyedUnion

variable {Value : Type}

/-- `wide` is `narrow` with nullable columns after it; the source refuses one with a default. -/
def Trails (narrow wide : List Column) : Prop :=
  ∃ extra, wide = narrow ++ extra ∧
    ∀ column ∈ extra, column.notnull = false ∧ column.dfltValue = none

section widened

variable {name : String} {left right : Table Value} {leftContract rightContract : TableContract}

theorem exists_id {table : Table Value} (hprimary : primaryKeyOf table = ["id"]) :
    ∃ column ∈ table.columns, column.name = "id" := by
  have hid : "id" ∈ primaryKeyOf table := hprimary ▸ List.mem_singleton_self _
  obtain ⟨column, hcolumn, hname⟩ := List.mem_map.mp hid
  exact ⟨column, (List.mem_insertionSort _).mp (List.mem_filter.mp hcolumn).1, hname⟩

theorem plain_extra (hl : ProfileTable name left leftContract)
    (hr : ProfileTable name right rightContract) {extra : List Column}
    (hextra : right.columns = left.columns ++ extra)
    (hnullable : ∀ column ∈ extra, column.notnull = false ∧ column.dfltValue = none) :
    ∀ column ∈ extra, column.pk = 0 ∧ column.hidden = 0 := by
  intro column hcolumn
  have hmem : column ∈ right.columns := hextra ▸ List.mem_append_right _ hcolumn
  refine ⟨?_, hr.nullable column hmem (hnullable column hcolumn).1⟩
  by_contra hpk
  obtain ⟨hprimary, _⟩ := tableContract_eq_ok hr.contract_eq
  have hname := (pk_pos_iff hprimary hr.names hmem).mp (Nat.pos_of_ne_zero hpk)
  -- The left table has an `id` of its own, so the right one would have two.
  obtain ⟨other, hother, hid⟩ := exists_id (tableContract_eq_ok hl.contract_eq).1
  have hnames := hr.names
  rw [hextra, List.map_append] at hnames
  exact (List.nodup_append.mp hnames).2.2 _ (List.mem_map_of_mem hother) _
    (List.mem_map_of_mem hcolumn) (hid.trans hname.symm)

theorem addColumns_columns {extra : List Column}
    (h : ∀ column ∈ extra, column.notnull = false ∧ column.dfltValue = none ∧ column.pk = 0 ∧
      column.hidden = 0) : (addColumns left extra).columns = left.columns ++ extra := by
  refine congrArg (left.columns ++ ·) ?_
  calc extra.map (fun column : Column =>
        { name := column.name, declared := column.declared, notnull := false, dfltValue := none,
          pk := 0, hidden := 0 : Column })
      = extra.map id := List.map_congr_left fun column hcolumn => by
        obtain ⟨hnotnull, hdefault, hpk, hhidden⟩ := h column hcolumn
        cases column
        simp_all
    _ = extra := List.map_id _

/-- What widening gives: the wider side's columns, and an output that reads as the left table. -/
structure Widened (left right : Table Value) (leftContract contract : TableContract)
    (output : Table Value) : Prop where
  columns : output.columns = left.columns ∨ output.columns = right.columns
  leftTrails : Trails left.columns output.columns
  rightTrails : Trails right.columns output.columns
  names : contract.columns = output.columns.map Column.name
  primary : contract.primaryKey = ["id"]
  key : contract.semanticKey = leftContract.semanticKey
  name : contract.name = leftContract.name
  rows : readings output = readings left
  kept : left.columns = right.columns → output = left

theorem Trails.refl (columns : List Column) : Trails columns columns :=
  ⟨[], (List.append_nil _).symm, fun _ h => absurd h List.not_mem_nil⟩

theorem Trails.length_le {narrow wide : List Column} (h : Trails narrow wide) :
    narrow.length ≤ wide.length := by
  obtain ⟨extra, rfl, _⟩ := h
  rw [List.length_append]
  omega

theorem Trails.eq_of_length {narrow wide : List Column} (h : Trails narrow wide)
    (hlength : wide.length ≤ narrow.length) : narrow = wide := by
  obtain ⟨extra, rfl, _⟩ := h
  rw [List.length_append] at hlength
  have hnil : extra = [] := List.eq_nil_of_length_eq_zero (by omega)
  rw [hnil, List.append_nil]

theorem widenedContract_spec (hl : ProfileTable name left leftContract)
    (hr : ProfileTable name right rightContract)
    (hkey : leftContract.semanticKey = rightContract.semanticKey)
    (htrails : Trails left.columns right.columns ∨ Trails right.columns left.columns) :
    ∃ contract output, widenedContract leftContract rightContract left = .ok (contract, output) ∧
      Widened left right leftContract contract output := by
  obtain ⟨_, _, _, hlname, hlcolumns, hlprimary, hlschema⟩ := tableContract_eq_ok hl.contract_eq
  obtain ⟨_, _, _, hrname, hrcolumns, hrprimary, hrschema⟩ := tableContract_eq_ok hr.contract_eq
  by_cases hsame : left.columns = right.columns
  · refine ⟨leftContract, left, ?_, .inl rfl, .refl _, hsame ▸ .refl _, hlcolumns, hlprimary, rfl,
      rfl, rfl, fun _ => rfl⟩
    have heq : leftContract.columnSchema = rightContract.columnSchema := by
      rw [hlschema, hrschema, hsame]
    rw [widenedContract, if_pos heq, validateMatchingContracts, ensure, if_pos heq, ensure,
      if_pos hkey]
    rfl
  · have hne : leftContract.columnSchema ≠ rightContract.columnSchema := by
      rw [hlschema, hrschema]
      exact hsame
    have hmatching : validateMatchingContracts leftContract
        { rightContract with columnSchema := leftContract.columnSchema } = .ok () := by
      rw [validateMatchingContracts, ensure, if_pos rfl, ensure, if_pos hkey]
      rfl
    rcases htrails with htrails | htrails
    · -- The right side is the wider one, and the output gains its columns.
      have hle : leftContract.columnSchema.length ≤ rightContract.columnSchema.length := by
        rw [hlschema, hrschema]
        exact htrails.length_le
      obtain ⟨extra, hextra, hnullable⟩ := htrails
      have hplain := plain_extra hl hr hextra hnullable
      have hdrop : right.columns.drop left.columns.length = extra := by
        rw [hextra, List.drop_left]
      have hcolumns : (addColumns left extra).columns = right.columns := by
        rw [hextra]
        exact addColumns_columns fun column hcolumn => ⟨(hnullable column hcolumn).1,
          (hnullable column hcolumn).2, hplain column hcolumn⟩
      refine ⟨rightContract, addColumns left extra, ?_, .inr hcolumns,
        ⟨extra, hcolumns.trans hextra, hnullable⟩, hcolumns ▸ .refl _, hrcolumns.trans
          (congrArg _ hcolumns.symm), hrprimary, hkey.symm, hrname.trans hlname.symm,
        value_addColumns left extra, fun h => absurd h hsame⟩
      simp only [widenedContract, if_neg hne, if_pos hle, hmatching]
      rw [hlschema, hrschema, hdrop, ensure, if_pos]
      · rfl
      · exact ⟨by rw [hextra, List.take_left], fun column hcolumn =>
          ⟨(hnullable column hcolumn).1, (hnullable column hcolumn).2, (hplain column hcolumn).1⟩⟩
    · have hnle : ¬leftContract.columnSchema.length ≤ rightContract.columnSchema.length := by
        rw [hlschema, hrschema]
        exact fun h => hsame (htrails.eq_of_length h).symm
      obtain ⟨extra, hextra, hnullable⟩ := htrails
      have hplain := plain_extra hr hl hextra hnullable
      have hdrop : left.columns.drop right.columns.length = extra := by
        rw [hextra, List.drop_left]
      refine ⟨leftContract, left, ?_, .inl rfl, .refl _, ⟨extra, hextra, hnullable⟩, hlcolumns,
        hlprimary, rfl, rfl, rfl, fun _ => rfl⟩
      simp only [widenedContract, if_neg hne, if_neg hnle, hmatching]
      rw [hlschema, hrschema, hdrop, ensure, if_pos]
      · rfl
      · exact ⟨by rw [hextra, List.take_left], fun column hcolumn =>
          ⟨(hnullable column hcolumn).1, (hnullable column hcolumn).2, (hplain column hcolumn).1⟩⟩

theorem mem_insertColumns_iff {contract : TableContract} {columns : List Column}
    (hnames : contract.columns = columns.map Column.name) (hprimary : contract.primaryKey = ["id"])
    {column : String} : column ∈ contract.insertColumns ↔
      column ∈ columns.map Column.name ∧ column ≠ "id" := by
  rw [TableContract.insertColumns, List.mem_filter, hnames, hprimary]
  refine and_congr_right fun _ => ?_
  rw [decide_eq_true_iff, List.mem_singleton]

theorem takes_of_columns {table output : Table Value} {stored contract : TableContract}
    (h : ProfileTable name table stored) (hcolumns : output.columns = table.columns)
    (hnames : contract.columns = output.columns.map Column.name)
    (hprimary : contract.primaryKey = ["id"]) : Takes contract output := by
  refine ⟨hprimary, fun column => ?_⟩
  rw [mem_insertColumns_iff hnames hprimary, hcolumns]
  exact mem_stored_iff (tableContract_eq_ok h.contract_eq).1 h.names

theorem covered_of_trails {table : Table Value} {stored contract : TableContract}
    {columns : List Column} (h : ProfileTable name table stored)
    (htrails : Trails table.columns columns) (hnames : contract.columns = columns.map Column.name)
    (hprimary : contract.primaryKey = ["id"]) {row : Row Value} (hrow : row ∈ table.rows) :
    Covered contract (value row) := by
  intro column hout
  refine h.value_outside hrow fun hin => hout ?_
  obtain ⟨extra, rfl, _⟩ := htrails
  refine (mem_insertColumns_iff hnames hprimary).mpr ⟨?_, hin.2⟩
  rw [List.map_append]
  exact List.mem_append_left _ hin.1

theorem plain_of_trails {table wide : Table Value} {stored : TableContract}
    (h : ProfileTable name table stored)
    (htrails : Trails table.columns wide.columns) {row : Row Value} (hrow : row ∈ table.rows)
    {column : Column} (hcolumn : column ∈ wide.columns) (hpk : column.pk = 0)
    (hnot : column.name ∉ row.cells.map Prod.fst) : column.dfltValue = none := by
  obtain ⟨extra, hextra, hnullable⟩ := htrails
  have hmem := hcolumn
  rw [hextra] at hmem
  rcases List.mem_append.mp hmem with hin | hin
  · refine absurd ?_ hnot
    rw [h.cells row hrow]
    exact List.mem_map_of_mem (List.mem_filter.mpr ⟨hin, decide_eq_true hpk⟩)
  · exact (hnullable column hin).2

variable [DecidableEq Value]

theorem common_spec (sqlite : Sqlite Value) (hl : ProfileTable name left leftContract)
    (hr : ProfileTable name right rightContract)
    (hkey : leftContract.semanticKey = rightContract.semanticKey)
    (htrails : Trails left.columns right.columns ∨ Trails right.columns left.columns)
    (leftRuns : Table Value → Option (Table Value)) (rightRuns : Option (Table Value)) :
    ∃ contract output table stats conflicts,
      widenedContract leftContract rightContract left = .ok (contract, output) ∧
      mergeCommonTable sqlite contract leftRuns rightRuns output right = (table, stats, conflicts) ∧
      Outcome name leftContract.semanticKey (readings left) (readings right) table stats
        conflicts ∧
      (table.columns = left.columns ∨ table.columns = right.columns) ∧
      Trails left.columns table.columns ∧ Trails right.columns table.columns ∧
      (left = right → table = left) := by
  obtain ⟨contract, output, hwidened, h⟩ := widenedContract_spec hl hr hkey htrails
  -- the wider of the two tables lends its columns
  obtain ⟨wide, wideContract, hwide, hcolumns⟩ : ∃ wide wideContract,
      ProfileTable name wide wideContract ∧ output.columns = wide.columns := by
    rcases h.columns with heq | heq
    · exact ⟨left, leftContract, hl, heq⟩
    · exact ⟨right, rightContract, hr, heq⟩
  have htakes := takes_of_columns hwide hcolumns h.names h.primary
  have hleft : ∀ reading ∈ readings output, Covered contract reading := by
    rw [h.rows]
    intro reading hreading
    obtain ⟨row, hrow, rfl⟩ := List.mem_map.mp hreading
    exact covered_of_trails hl h.leftTrails h.names h.primary hrow
  have hrows : ∀ row ∈ right.rows, Covered contract (value row) ∧
      (∀ column ∈ contract.semanticKey, value row column ≠ none) ∧
      ∀ column ∈ output.columns, column.pk = 0 → column.name ∉ row.cells.map Prod.fst →
        column.dfltValue = none := by
    intro row hrow
    refine ⟨covered_of_trails hr h.rightTrails h.names h.primary hrow, ?_, ?_⟩
    · intro column hcolumn
      rw [h.key, hkey] at hcolumn
      exact hr.key_set hrow hcolumn
    · intro column hcolumn hpk hnot
      exact plain_of_trails hr (hcolumns ▸ h.rightTrails) hrow (hcolumns ▸ hcolumn) hpk hnot
  have hleftKeys : ((readings output).map (keyAt contract.semanticKey)).Nodup := by
    rw [h.rows, h.key]
    exact hl.readings_keys
  have hrightKeys : ((readings right).map (keyAt contract.semanticKey)).Nodup := by
    rw [h.key, hkey]
    exact hr.readings_keys
  obtain ⟨table, stats, conflicts, hmerge, houtcome, htable, hkept⟩ :=
    mergeCommonTable_spec sqlite leftRuns rightRuns htakes hleft hleftKeys hrows hrightKeys
  rw [h.key, h.name, (tableContract_eq_ok hl.contract_eq).2.2.2.1, h.rows] at houtcome
  refine ⟨contract, output, table, stats, conflicts, hwidened, hmerge, houtcome, ?_, ?_, ?_, ?_⟩
  · rw [htable]
    exact h.columns
  · rw [htable]
    exact h.leftTrails
  · rw [htable]
    exact h.rightTrails
  · rintro rfl
    have hout := h.kept rfl
    rw [hkept, hout]
    intro reading hreading
    rw [hout]
    exact List.mem_map_of_mem hreading

theorem copy_spec (sqlite : Sqlite Value) (hr : ProfileTable name right rightContract) :
    ∃ table stats, copyRightOnlyTable sqlite name right = .ok (table, stats) ∧
      Outcome name rightContract.semanticKey [] (readings right) table stats [] ∧
      table.columns = right.columns := by
  obtain ⟨_, _, _, _, hcolumns, hprimary, _⟩ := tableContract_eq_ok hr.contract_eq
  have hcopy : ∀ (rows : List (Row Value)) (table : Table Value), (∀ row ∈ rows, row ∈ right.rows) →
      table.columns = right.columns →
      readings (rows.foldl (fun table row => insertRow sqlite table rightContract row) table) =
        readings table ++ rows.map value ∧
      (rows.foldl (fun table row => insertRow sqlite table rightContract row) table).columns =
        right.columns := by
    intro rows
    induction rows with
    | nil => intro table _ h; exact ⟨(List.append_nil _).symm, h⟩
    | cons row rows ih =>
      intro table hmem htable
      have hrow := hmem row List.mem_cons_self
      have hread : readings (insertRow sqlite table rightContract row) =
          readings table ++ [value row] := by
        refine value_insertRow sqlite (takes_of_columns hr htable (htable ▸ hcolumns) hprimary)
          (covered_of_trails hr (.refl _) hcolumns hprimary hrow) ?_
        intro column hcolumn hpk hnot
        exact plain_of_trails hr (.refl _) hrow (htable ▸ hcolumn) hpk hnot
      rw [List.foldl_cons, List.map_cons, List.append_cons, ← hread]
      exact ih _ (fun other hother => hmem other (List.mem_cons_of_mem _ hother)) htable
  have hperm := selectOrdered_perm sqlite right rightContract
  obtain ⟨hrows, htable⟩ := hcopy (selectOrdered sqlite right rightContract)
    { columns := right.columns, indexes := right.indexes, rows := [], sequence := 0 }
    (fun row hrow => hperm.mem_iff.mp hrow) rfl
  have hstats : (⟨name, 0, right.rows.length, right.rows.length, 0, 0⟩ : TableMergeStats) =
      tally name rightContract.semanticKey [] (readings right) := by
    have hnone : ∀ (same : Reading Value → Reading Value → Prop) [DecidableRel same],
        (readings right).countP
          (fun reading => Meets (keyAt rightContract.semanticKey) same [] reading) = 0 := by
      intro same _
      exact List.countP_eq_zero.mpr fun reading _ hmeets =>
        not_meets List.not_mem_nil (of_decide_eq_true hmeets)
    have hall : (readings right).countP
        (fun reading => Fresh (keyAt rightContract.semanticKey) [] reading) =
        (readings right).length :=
      List.countP_eq_length.mpr fun reading _ => decide_eq_true List.not_mem_nil
    rw [tally, hall, hnone, hnone, readings, List.length_map]
    rfl
  refine ⟨_, _, ?_, ⟨⟨_, hperm.map value, hrows.trans union_nil_left.symm⟩, hstats, ?_⟩, htable⟩
  · rw [copyRightOnlyTable, hr.contract_eq]
    rfl
  · rw [← hstats]
    rfl

end widened

end ProfileMerge

end ServingSim
