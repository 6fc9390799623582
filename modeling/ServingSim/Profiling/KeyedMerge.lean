import Mathlib.Data.Set.Basic
import ServingSim.Common.Checked
import ServingSim.Profiling.MergedColumns

/-
  A merge of two profile databases is a keyed union.

  What is proved:
    1. `keyed_union` — the merge is published exactly when no key has differing rows, and what
       it publishes.
-/

namespace ServingSim

namespace ProfileMerge

open KeyedUnion

variable {Value : Type}

/-! ## Profile databases -/

/-- A profile database of the current schema. -/
structure Stored (db : Database Value) : Prop where
  names : (db.tables.map Prod.fst).Nodup
  current : comparedMetadata db = expectedMetadata
  retired : ∀ name ∈ retiredTables, name ∉ db.tables.map Prod.fst
  tables : ∀ name table, db.tables.lookup name = some table →
    ∃ contract, ProfileTable name table contract

/-- The common tables have one semantic key, and columns that are equal or trail each other. -/
structure Compatible (left right : Database Value) : Prop where
  key : ∀ name l r lc rc, left.tables.lookup name = some l → right.tables.lookup name = some r →
    tableContract name l = .ok lc → tableContract name r = .ok rc →
    lc.semanticKey = rc.semanticKey
  columns : ∀ name l r, left.tables.lookup name = some l → right.tables.lookup name = some r →
    Trails l.columns r.columns ∨ Trails r.columns l.columns

theorem Compatible.symm {left right : Database Value} (h : Compatible left right) :
    Compatible right left :=
  ⟨fun name l r lc rc hl hr hlc hrc => (h.key name r l rc lc hr hl hrc hlc).symm,
    fun name l r hl hr => (h.columns name r l hr hl).symm⟩

theorem compatible_self (db : Database Value) : Compatible db db := by
  refine ⟨fun name l r lc rc hl hr hlc hrc => ?_, fun name l r hl hr => ?_⟩
  · obtain rfl := Option.some.inj (hl.symm.trans hr)
    rw [Except.ok.inj (hlc.symm.trans hrc)]
  · obtain rfl := Option.some.inj (hl.symm.trans hr)
    exact .inl (.refl _)

def rowsOf (db : Database Value) (name : String) : List (Reading Value) :=
  ((db.tables.lookup name).map readings).getD []

/-- The semantic key of a table of the database. -/
def keyIn (db : Database Value) (name : String) : Option (List String) :=
  (db.tables.lookup name).bind fun table =>
    (tableContract name table).toOption.map TableContract.semanticKey

/-- The semantic key under which two databases hold a name. -/
def sharedKey (left right : Database Value) (name : String) : List String :=
  ((keyIn left name).or (keyIn right name)).getD []

section names

variable {left right : Database Value} {name : String}

variable {contract : TableContract} {db : Database Value}

theorem keyIn_of_contract {table : Table Value}
    (hlookup : db.tables.lookup name = some table)
    (hcontract : tableContract name table = .ok contract) :
    keyIn db name = some contract.semanticKey := by
  rw [keyIn, hlookup, Option.bind_some, hcontract]
  rfl

theorem rowsOf_of_lookup {table : Table Value}
    (hlookup : db.tables.lookup name = some table) : rowsOf db name = readings table := by
  rw [rowsOf, hlookup]
  rfl

theorem rowsOf_of_none (hlookup : db.tables.lookup name = none) :
    rowsOf db name = [] := by
  rw [rowsOf, hlookup]
  rfl

theorem sharedKey_left {table : Table Value}
    (hlookup : left.tables.lookup name = some table)
    (hcontract : tableContract name table = .ok contract) :
    sharedKey left right name = contract.semanticKey := by
  rw [sharedKey, keyIn_of_contract hlookup hcontract]
  rfl

theorem sharedKey_right {table : Table Value}
    (hleft : left.tables.lookup name = none) (hlookup : right.tables.lookup name = some table)
    (hcontract : tableContract name table = .ok contract) :
    sharedKey left right name = contract.semanticKey := by
  have hnone : keyIn left name = none := by
    rw [keyIn, hleft]
    rfl
  rw [sharedKey, hnone, keyIn_of_contract hlookup hcontract]
  rfl

theorem sharedKey_comm (hl : Stored left) (hr : Stored right) (h : Compatible left right) :
    sharedKey left right name = sharedKey right left name := by
  cases hleft : left.tables.lookup name with
  | none =>
    have hnone : keyIn left name = none := by
      rw [keyIn, hleft]
      rfl
    rw [sharedKey, sharedKey, hnone, Option.none_or, Option.or_none]
  | some l =>
    obtain ⟨lc, hlc⟩ := hl.tables name l hleft
    cases hright : right.tables.lookup name with
    | none =>
      have hnone : keyIn right name = none := by
        rw [keyIn, hright]
        rfl
      rw [sharedKey, sharedKey, hnone, Option.none_or, Option.or_none]
    | some r =>
      obtain ⟨rc, hrc⟩ := hr.tables name r hright
      rw [sharedKey_left hleft hlc.contract_eq, sharedKey_left hright hrc.contract_eq]
      exact h.key name l r lc rc hleft hright hlc.contract_eq hrc.contract_eq

theorem nodup_rowsOf_left (hl : Stored left) :
    ((rowsOf left name).map (keyAt (sharedKey left right name))).Nodup := by
  cases hleft : left.tables.lookup name with
  | none =>
    rw [rowsOf_of_none hleft]
    exact List.nodup_nil
  | some l =>
    obtain ⟨lc, hlc⟩ := hl.tables name l hleft
    rw [rowsOf_of_lookup hleft, sharedKey_left hleft hlc.contract_eq]
    exact hlc.readings_keys

theorem nodup_rowsOf_right (hl : Stored left) (hr : Stored right) (h : Compatible left right) :
    ((rowsOf right name).map (keyAt (sharedKey left right name))).Nodup := by
  rw [sharedKey_comm hl hr h]
  exact nodup_rowsOf_left hr

end names

/-! ## Assigning a table -/

theorem lookup_assign_self {V : Type} (dict : List (String × V)) (key : String) (new : V) :
    (assign dict key new).lookup key = some new := by
  rw [assign]
  by_cases hmem : key ∈ dict.map Prod.fst
  · rw [if_pos hmem]
    induction dict with
    | nil => cases hmem
    | cons entry dict ih =>
      rw [List.map_cons]
      by_cases hentry : entry.1 = key
      · rw [if_pos hentry, List.lookup_cons, beq_self_eq_true]
      · have hne : (key == entry.1) = false := beq_eq_false_iff_ne.mpr (Ne.symm hentry)
        rw [if_neg hentry, List.lookup_cons, hne]
        exact ih ((List.mem_cons.mp hmem).resolve_left (Ne.symm hentry))
  · rw [if_neg hmem, List.lookup_append, Dictionary.lookup_eq_none hmem, Option.none_or,
      List.lookup_cons, beq_self_eq_true]

theorem lookup_assign_ne {V : Type} (dict : List (String × V)) {key other : String} (new : V)
    (h : other ≠ key) : (assign dict key new).lookup other = dict.lookup other := by
  have hne : (other == key) = false := beq_eq_false_iff_ne.mpr h
  rw [assign]
  by_cases hmem : key ∈ dict.map Prod.fst
  · rw [if_pos hmem]
    clear hmem
    induction dict with
    | nil => rfl
    | cons entry dict ih =>
      rw [List.map_cons, List.lookup_cons, List.lookup_cons, ih]
      by_cases hentry : entry.1 = key
      · rw [if_pos hentry, hentry, hne]
      · rw [if_neg hentry]
  · rw [if_neg hmem, List.lookup_append, List.lookup_cons, hne, List.lookup_nil, Option.or_none]

/-! ## One table -/

section run

variable [DecidableEq Value] {left right : Database Value}

/-- The counts of one name. -/
noncomputable def tallyOf (left right : Database Value) (name : String) : TableMergeStats :=
  tally name (sharedKey left right name) (rowsOf left name) (rowsOf right name)

/-- What the output holds under a name that was merged. -/
structure MergedName (left right : Database Value) (name : String) (table : Table Value) :
    Prop where
  rows : ∃ ordered, ordered.Perm (rowsOf right name) ∧
    readings table = union (keyAt (sharedKey left right name)) (rowsOf left name) ordered
  leftTrails : ∀ l, left.tables.lookup name = some l → Trails l.columns table.columns
  rightTrails : ∀ r, right.tables.lookup name = some r → Trails r.columns table.columns
  columns : ∃ db table', (db = left ∨ db = right) ∧ db.tables.lookup name = some table' ∧
    table.columns = table'.columns
  kept : left.tables.lookup name = right.tables.lookup name →
    left.tables.lookup name = some table

theorem mergeTable_spec (sqlite : Sqlite Value) (hl : Stored left) (hr : Stored right)
    (h : Compatible left right) {name : String}
    (hname : name ∈ left.tables.map Prod.fst ∨ name ∈ right.tables.map Prod.fst)
    {state : MergingTables Value}
    (hstate : state.output.lookup name = left.tables.lookup name) :
    ∃ next table conflicts, mergeTable sqlite left right state name = .ok next ∧
      next.output.lookup name = some table ∧ MergedName left right name table ∧
      (∀ other, other ≠ name → next.output.lookup other = state.output.lookup other) ∧
      next.stats = state.stats ++ [tallyOf left right name] ∧
      next.conflicts = state.conflicts ++ conflicts ∧
      conflicts.length = (tallyOf left right name).conflictRows := by
  -- a table of one side is copied or kept as it is; a table of both is widened, then merged
  cases hleft : left.tables.lookup name with
  | none =>
    cases hright : right.tables.lookup name with
    | none =>
      rcases hname with hmem | hmem
      · obtain ⟨table, htable⟩ := Dictionary.mem_keys_iff.mp hmem
        rw [hleft] at htable
        cases htable
      · obtain ⟨table, htable⟩ := Dictionary.mem_keys_iff.mp hmem
        rw [hright] at htable
        cases htable
    | some r =>
      obtain ⟨rc, hrc⟩ := hr.tables name r hright
      obtain ⟨table, stats, hcopy, houtcome, hcolumns⟩ := copy_spec sqlite hrc
      have hkey := sharedKey_right hleft hright hrc.contract_eq
      have htally : tallyOf left right name = tally name rc.semanticKey [] (readings r) := by
        rw [tallyOf, hkey, rowsOf_of_none hleft, rowsOf_of_lookup hright]
      refine ⟨{ state with
          output := assign state.output name table, stats := state.stats ++ [stats] },
        table, [], ?_, lookup_assign_self _ _ _, ?_,
        fun other hne => lookup_assign_ne _ _ hne, ?_, (List.append_nil _).symm, ?_⟩
      · rw [mergeTable, hleft, hright]
        simp only [hcopy, ok_bind]
        rfl
      · refine ⟨?_, ?_, ?_, ⟨right, r, .inr rfl, hright, hcolumns⟩, ?_⟩
        · rw [hkey, rowsOf_of_none hleft, rowsOf_of_lookup hright]
          exact houtcome.rows
        · intro l hl'
          rw [hleft] at hl'
          cases hl'
        · intro r' hr'
          obtain rfl := Option.some.inj (hright.symm.trans hr')
          exact hcolumns ▸ .refl _
        · intro heq
          rw [hleft, hright] at heq
          cases heq
      · rw [htally, houtcome.stats]
      · rw [htally]
        exact houtcome.conflicts
  | some l =>
    obtain ⟨lc, hlc⟩ := hl.tables name l hleft
    have hkey : sharedKey left right name = lc.semanticKey := sharedKey_left hleft hlc.contract_eq
    cases hright : right.tables.lookup name with
    | none =>
      have htally : tallyOf left right name = ⟨name, l.rows.length, 0, 0, 0, 0⟩ := by
        rw [tallyOf, rowsOf_of_none hright, rowsOf_of_lookup hleft, tally, readings,
          List.length_map]
        rfl
      refine ⟨{ state with stats := state.stats ++ [⟨name, l.rows.length, 0, 0, 0, 0⟩] }, l, [],
        ?_, hstate.trans hleft, ?_, fun other _ => rfl, ?_, (List.append_nil _).symm, ?_⟩
      · rw [mergeTable, hleft, hright]
        simp only [hlc.contract_eq, ok_bind]
        rfl
      · refine ⟨⟨[], ?_, ?_⟩, ?_, ?_, ⟨left, l, .inl rfl, hleft, rfl⟩, ?_⟩
        · rw [rowsOf_of_none hright]
        · rw [rowsOf_of_lookup hleft, union_nil_right]
        · intro l' hl'
          obtain rfl := Option.some.inj (hleft.symm.trans hl')
          exact .refl _
        · intro r' hr'
          rw [hright] at hr'
          cases hr'
        · exact fun _ => hleft
      · rw [htally]
      · rw [htally]
        rfl
    | some r =>
      obtain ⟨rc, hrc⟩ := hr.tables name r hright
      have hsame := h.key name l r lc rc hleft hright hlc.contract_eq hrc.contract_eq
      obtain ⟨contract, output, table, stats, conflicts, hwidened, hmerge, houtcome, hcolumns,
        hleftTrails, hrightTrails, hkept⟩ := common_spec sqlite hlc hrc hsame
          (h.columns name l r hleft hright)
          (fun table => (assign state.output name table).lookup runTable)
          (right.tables.lookup runTable)
      have htally : tallyOf left right name =
          tally name lc.semanticKey (readings l) (readings r) := by
        rw [tallyOf, hkey, rowsOf_of_lookup hleft, rowsOf_of_lookup hright]
      refine ⟨⟨assign state.output name table, state.stats ++ [stats],
          state.conflicts ++ conflicts⟩, table, conflicts, ?_, lookup_assign_self _ _ _, ?_,
        fun other hne => lookup_assign_ne _ _ hne, ?_, rfl, ?_⟩
      · have hstored : (state.output.lookup name).getD l = l := by
          rw [hstate, hleft]
          rfl
        rw [mergeTable, hleft, hright]
        simp only [hlc.contract_eq, hrc.contract_eq, ok_bind, hstored, hwidened, hmerge]
        rfl
      · refine ⟨?_, ?_, ?_, ?_, ?_⟩
        · rw [hkey, rowsOf_of_lookup hleft, rowsOf_of_lookup hright]
          exact houtcome.rows
        · intro l' hl'
          obtain rfl := Option.some.inj (hleft.symm.trans hl')
          exact hleftTrails
        · intro r' hr'
          obtain rfl := Option.some.inj (hright.symm.trans hr')
          exact hrightTrails
        · rcases hcolumns with heq | heq
          · exact ⟨left, l, .inl rfl, hleft, heq⟩
          · exact ⟨right, r, .inr rfl, hright, heq⟩
        · intro heq
          rw [hleft, hright] at heq
          rw [hleft, hkept (Option.some.inj heq)]
      · rw [htally, houtcome.stats]
      · rw [htally]
        exact houtcome.conflicts

/-! ## Every table -/

omit [DecidableEq Value] in
theorem mem_tableNames {name : String} : name ∈ tableNames left right ↔
    name ∈ left.tables.map Prod.fst ∨ name ∈ right.tables.map Prod.fst := by
  rw [tableNames, List.mem_insertionSort, List.mem_dedup, List.mem_append]

omit [DecidableEq Value] in
theorem nodup_tableNames : (tableNames left right).Nodup :=
  (List.perm_insertionSort _ _).nodup_iff.mpr (List.nodup_dedup _)

/-- What the loop over the names keeps. -/
structure MergedNames (left right : Database Value) (visited : List String)
    (state : MergingTables Value) : Prop where
  merged : ∀ name ∈ visited, ∃ table, state.output.lookup name = some table ∧
    MergedName left right name table
  rest : ∀ name, name ∉ visited → state.output.lookup name = left.tables.lookup name
  stats : state.stats = visited.map (tallyOf left right)
  conflicts : state.conflicts = [] ↔ ∀ name ∈ visited, (tallyOf left right name).conflictRows = 0

theorem mergeTables_spec (sqlite : Sqlite Value) (hl : Stored left) (hr : Stored right)
    (h : Compatible left right) : ∃ state, mergeTables sqlite left right = .ok state ∧
      MergedNames left right (tableNames left right) state := by
  refine foldlM_ok_of_visited (fun visited name rest state hlist hI => ?_)
    ⟨fun _ h => absurd h List.not_mem_nil, fun _ _ => rfl, rfl,
      ⟨fun _ _ h => absurd h List.not_mem_nil, fun _ => rfl⟩⟩
  have hnodup : (visited ++ name :: rest).Nodup := hlist ▸ nodup_tableNames
  have hnew : name ∉ visited := fun hmem =>
    (List.nodup_append.mp hnodup).2.2 name hmem name List.mem_cons_self rfl
  have hname : name ∈ tableNames left right := hlist ▸ List.mem_append_right _ List.mem_cons_self
  obtain ⟨next, table, conflicts, hstep, htable, hmerged, hothers, hstats, hconflicts, hcount⟩ :=
    mergeTable_spec sqlite hl hr h (mem_tableNames.mp hname) (hI.rest name hnew)
  refine ⟨next, hstep, ?_, ?_, ?_, ?_⟩
  · intro other hother
    by_cases heq : other = name
    · exact heq ▸ ⟨table, htable, hmerged⟩
    · have hvisited : other ∈ visited :=
        (List.mem_append.mp hother).resolve_right (mt List.mem_singleton.mp heq)
      rw [hothers other heq]
      exact hI.merged other hvisited
  · intro other hother
    rw [List.mem_append, not_or] at hother
    rw [hothers other (mt List.mem_singleton.mpr hother.2)]
    exact hI.rest other hother.1
  · rw [hstats, hI.stats, List.map_append]
    rfl
  · rw [hconflicts, List.append_eq_nil_iff, hI.conflicts, ← List.length_eq_zero_iff, hcount]
    constructor
    · rintro ⟨hvisited, hlast⟩ other hother
      rcases List.mem_append.mp hother with hin | hin
      · exact hvisited other hin
      · exact List.mem_singleton.mp hin ▸ hlast
    · intro hall
      exact ⟨fun other hother => hall other (List.mem_append_left _ hother),
        hall name (List.mem_append_right _ (List.mem_singleton_self _))⟩

/-! ## Contents -/

/-- The rows that a database holds under a name, but for ids and creation times. -/
def contents (db : Database Value) (name : String) : Set (Reading Value) :=
  { content | ∃ reading ∈ rowsOf db name, visible reading = content }

/-- Some semantic key has rows that differ outside their creation time. -/
def Differ (left right : Database Value) : Prop :=
  ∃ name l r contract, left.tables.lookup name = some l ∧ right.tables.lookup name = some r ∧
    tableContract name l = .ok contract ∧ ∃ x ∈ l.rows, ∃ y ∈ r.rows,
      keyOf contract.semanticKey x = keyOf contract.semanticKey y ∧
        visible (value x) ≠ visible (value y)

/-- Every run key that a row holds is a run's. -/
def RunsPresent (db : Database Value) : Prop :=
  ∀ name, ∀ reading ∈ rowsOf db name, ∀ key, reading "run_key" = some key →
    ∃ run ∈ rowsOf db runTable, run "run_key" = some key

theorem conflictRows_eq_zero_iff {name : String} : (tallyOf left right name).conflictRows = 0 ↔
      Consistent (keyAt (sharedKey left right name)) visible (rowsOf left name)
        (rowsOf right name) := by
  show List.countP _ _ = 0 ↔ _
  rw [List.countP_eq_zero]
  constructor
  · intro h x hx y hy hkey
    by_contra hne
    exact h y hy (decide_eq_true ⟨x, hx, hkey, hne⟩)
  · intro h y hy hmeets
    obtain ⟨x, hx, hkey, hne⟩ := of_decide_eq_true hmeets
    exact hne (h x hx y hy hkey)

theorem not_differ_iff (hl : Stored left) : ¬Differ left right ↔
    ∀ name ∈ tableNames left right, (tallyOf left right name).conflictRows = 0 := by
  constructor
  · intro h name _
    rw [conflictRows_eq_zero_iff]
    intro x hx y hy hkey
    cases hleft : left.tables.lookup name with
    | none =>
      rw [rowsOf_of_none hleft] at hx
      cases hx
    | some l =>
      cases hright : right.tables.lookup name with
      | none =>
        rw [rowsOf_of_none hright] at hy
        cases hy
      | some r =>
        obtain ⟨lc, hlc⟩ := hl.tables name l hleft
        rw [rowsOf_of_lookup hleft] at hx
        rw [rowsOf_of_lookup hright] at hy
        rw [sharedKey_left hleft hlc.contract_eq] at hkey
        obtain ⟨xr, hxr, rfl⟩ := List.mem_map.mp hx
        obtain ⟨yr, hyr, rfl⟩ := List.mem_map.mp hy
        by_contra hne
        exact h ⟨name, l, r, lc, hleft, hright, hlc.contract_eq, xr, hxr, yr, hyr, hkey, hne⟩
  · rintro h ⟨name, l, r, lc, hleft, hright, hlc, x, hx, y, hy, hkey, hne⟩
    have hname : name ∈ tableNames left right :=
      mem_tableNames.mpr (.inl (Dictionary.mem_keys_iff.mpr ⟨l, hleft⟩))
    have hconsistent := conflictRows_eq_zero_iff.mp (h name hname)
    rw [rowsOf_of_lookup hleft, rowsOf_of_lookup hright, sharedKey_left hleft hlc] at hconsistent
    exact hne (hconsistent _ (List.mem_map_of_mem hx) _ (List.mem_map_of_mem hy) hkey)

theorem MergedName.contents {name : String} {table : Table Value}
    (h : MergedName left right name table)
    (hconflicts : (tallyOf left right name).conflictRows = 0) (content : Reading Value) :
    (∃ reading ∈ readings table, visible reading = content) ↔
      content ∈ contents left name ∪ contents right name := by
  obtain ⟨ordered, hperm, hrows⟩ := h.rows
  have hconsistent : Consistent (keyAt (sharedKey left right name)) visible (rowsOf left name)
      ordered := fun x hx y hy =>
    conflictRows_eq_zero_iff.mp hconflicts x hx y (hperm.mem_iff.mp hy)
  rw [hrows, mem_union_content hconsistent]
  refine or_congr_right ?_
  exact ⟨fun ⟨y, hy, hcontent⟩ => ⟨y, hperm.mem_iff.mp hy, hcontent⟩,
    fun ⟨y, hy, hcontent⟩ => ⟨y, hperm.mem_iff.mpr hy, hcontent⟩⟩

theorem MergedName.one_row {name : String} {table : Table Value} (hl : Stored left)
    (hr : Stored right) (hcompatible : Compatible left right)
    (h : MergedName left right name table) :
    ((readings table).map (keyAt (sharedKey left right name))).Nodup := by
  obtain ⟨ordered, hperm, hrows⟩ := h.rows
  rw [hrows]
  exact nodup_union (nodup_rowsOf_left hl)
    ((hperm.map _).nodup_iff.mpr (nodup_rowsOf_right hl hr hcompatible))

theorem MergedName.columns_comm {name : String} {table swapped : Table Value}
    (h : MergedName left right name table) (hswapped : MergedName right left name swapped) :
    swapped.columns = table.columns := by
  have hto : ∀ {a b : Database Value} {t u : Table Value}, MergedName a b name t →
      MergedName b a name u → Trails t.columns u.columns := by
    intro a b t u ht hu
    obtain ⟨db, source, hdb, hlookup, hcolumns⟩ := ht.columns
    rw [hcolumns]
    rcases hdb with rfl | rfl
    · exact hu.rightTrails source hlookup
    · exact hu.leftTrails source hlookup
  exact (hto hswapped h).eq_of_length (hto h hswapped).length_le

/-! ## Swapped inputs -/

/-- The counts of one table with the sides swapped. -/
structure Mirrored (stats swapped : TableMergeStats) : Prop where
  table : swapped.table = stats.table
  leftRows : swapped.leftRows = stats.rightRows
  rightRows : swapped.rightRows = stats.leftRows
  duplicateRows : swapped.duplicateRows = stats.duplicateRows
  conflictRows : swapped.conflictRows = stats.conflictRows
  insertedRows : swapped.leftRows + swapped.insertedRows = stats.leftRows + stats.insertedRows

theorem tally_sum (name : String) {key : List String} {leftRows : List (Reading Value)}
    (hl : (leftRows.map (keyAt key)).Nodup) (rightRows : List (Reading Value)) :
    (tally name key leftRows rightRows).insertedRows +
      (tally name key leftRows rightRows).duplicateRows +
      (tally name key leftRows rightRows).conflictRows = rightRows.length := by
  simp only [tally]
  exact tally_total hl Same rightRows

theorem mirrored_tally {name : String} {key : List String}
    {leftRows rightRows : List (Reading Value)} (hl : (leftRows.map (keyAt key)).Nodup)
    (hr : (rightRows.map (keyAt key)).Nodup) :
    Mirrored (tally name key leftRows rightRows) (tally name key rightRows leftRows) := by
  have hduplicates : (tally name key rightRows leftRows).duplicateRows =
      (tally name key leftRows rightRows).duplicateRows := by
    refine (met_comm hr hl Same).trans (List.countP_congr fun y _ => ?_)
    rw [decide_eq_true_iff, decide_eq_true_iff]
    exact ⟨fun ⟨x, hx, hkey, hsame⟩ => ⟨x, hx, hkey, hsame.symm⟩,
      fun ⟨x, hx, hkey, hsame⟩ => ⟨x, hx, hkey, hsame.symm⟩⟩
  have hconflicts : (tally name key rightRows leftRows).conflictRows =
      (tally name key leftRows rightRows).conflictRows := by
    refine (met_comm hr hl fun x y => ¬Same x y).trans (List.countP_congr fun y _ => ?_)
    rw [decide_eq_true_iff, decide_eq_true_iff]
    exact ⟨fun ⟨x, hx, hkey, hne⟩ => ⟨x, hx, hkey, fun hsame => hne hsame.symm⟩,
      fun ⟨x, hx, hkey, hne⟩ => ⟨x, hx, hkey, fun hsame => hne hsame.symm⟩⟩
  have hforward := tally_sum name hl rightRows
  have hbackward := tally_sum name hr leftRows
  refine ⟨rfl, rfl, rfl, hduplicates, hconflicts, ?_⟩
  show rightRows.length + _ = leftRows.length + _
  omega

theorem mirrored_tallyOf (hl : Stored left) (hr : Stored right) (h : Compatible left right)
    (name : String) : Mirrored (tallyOf left right name) (tallyOf right left name) := by
  rw [tallyOf, tallyOf, sharedKey_comm hr hl h.symm]
  exact mirrored_tally (nodup_rowsOf_left hl) (nodup_rowsOf_right hl hr h)

omit [DecidableEq Value] in
theorem tableNames_comm : tableNames right left = tableNames left right := by
  have hperm : (tableNames right left).Perm (tableNames left right) :=
    (List.perm_ext_iff_of_nodup nodup_tableNames nodup_tableNames).mpr fun name => by
      rw [mem_tableNames, mem_tableNames, or_comm]
  exact hperm.eq_of_pairwise (fun a b _ _ => le_antisymm) (List.pairwise_insertionSort _ _)
    (List.pairwise_insertionSort _ _)

/-! ## Published merges -/

omit [DecidableEq Value] in
theorem validateDatabase_eq_ok {path : String} {db : Database Value} (h : Stored db) :
    validateDatabase path db = .ok () := by
  have hnone : retiredTables.filter (fun name => name ∈ db.tables.map Prod.fst) = [] :=
    List.filter_eq_nil_iff.mpr fun name hname hmem => h.retired name hname (of_decide_eq_true hmem)
  simp only [validateDatabase, hnone, List.insertionSort_nil, ensure, if_pos]

omit [DecidableEq Value] in
theorem validateMetadata_eq_ok {side : String} {db : Database Value} (h : Stored db) :
    validateMetadata side db = .ok () := by
  rw [validateMetadata, ensure, if_pos h.current]

theorem merge_spec (sqlite : Sqlite Value) (leftPath rightPath : String) (hl : Stored left)
    (hr : Stored right) (h : Compatible left right) :
    ∃ report state, mergeProfileDatabases sqlite leftPath rightPath left right = .ok report ∧
      MergedNames left right (tableNames left right) state ∧ report.tables = state.stats ∧
      report.output = if state.conflicts = [] then
          some { metadata := left.metadata, tables := state.output }
        else none := by
  obtain ⟨state, hmerge, hstate⟩ := mergeTables_spec sqlite hl hr h
  refine ⟨⟨if state.conflicts = [] then
      some { metadata := left.metadata, tables := state.output } else none,
    state.stats, state.conflicts⟩, state, ?_, hstate, rfl, rfl⟩
  rw [mergeProfileDatabases, validateDatabase_eq_ok hl, validateDatabase_eq_ok hr,
    validateCompatibleMetadata, validateMetadata_eq_ok hl, validateMetadata_eq_ok hr, hmerge]
  rfl

/-- What a published database is: the union of the two, under one row a key. -/
structure Union (left right output : Database Value) : Prop where
  tables : ∀ name, name ∈ output.tables.map Prod.fst ↔ name ∈ tableNames left right
  contents : ∀ name, contents output name = contents left name ∪ contents right name
  one_row : ∀ name, ((rowsOf output name).map (keyAt (sharedKey left right name))).Nodup
  runs : RunsPresent left → RunsPresent right → RunsPresent output

theorem union_of_merged (hl : Stored left) (hr : Stored right) (h : Compatible left right)
    {state : MergingTables Value} (hstate : MergedNames left right (tableNames left right) state)
    (hconflicts : ∀ name ∈ tableNames left right,
      (tallyOf left right name).conflictRows = 0) {output : Database Value}
    (houtput : output.tables = state.output) : Union left right output := by
  have hnone : ∀ name, name ∉ tableNames left right →
      left.tables.lookup name = none ∧ right.tables.lookup name = none ∧
        output.tables.lookup name = none := by
    intro name hname
    have hleft := Dictionary.lookup_eq_none fun hmem => hname (mem_tableNames.mpr (.inl hmem))
    exact ⟨hleft, Dictionary.lookup_eq_none fun hmem => hname (mem_tableNames.mpr (.inr hmem)),
      houtput ▸ (hstate.rest name hname).trans hleft⟩
  have hmergedName : ∀ name ∈ tableNames left right, ∃ table,
      output.tables.lookup name = some table ∧ MergedName left right name table :=
    houtput ▸ hstate.merged
  have hcontents : ∀ name, contents output name = contents left name ∪ contents right name := by
    intro name
    ext content
    by_cases hname : name ∈ tableNames left right
    · obtain ⟨table, htable, hmerged⟩ := hmergedName name hname
      rw [← hmerged.contents (hconflicts name hname) content]
      show (∃ reading ∈ rowsOf _ name, _) ↔ _
      rw [rowsOf_of_lookup htable]
    · obtain ⟨hleft, hright, hout⟩ := hnone name hname
      show (∃ reading ∈ rowsOf output name, _) ↔
        (∃ reading ∈ rowsOf left name, _) ∨ ∃ reading ∈ rowsOf right name, _
      rw [rowsOf_of_none hleft, rowsOf_of_none hright, rowsOf_of_none hout, or_self]
  refine ⟨fun name => ?_, hcontents, fun name => ?_, fun hleftRuns hrightRuns => ?_⟩
  · by_cases hname : name ∈ tableNames left right
    · obtain ⟨table, htable, _⟩ := hmergedName name hname
      exact ⟨fun _ => hname, fun _ => Dictionary.mem_keys_iff.mpr ⟨table, htable⟩⟩
    · refine ⟨fun hmem => ?_, fun hin => absurd hin hname⟩
      obtain ⟨table, htable⟩ := Dictionary.mem_keys_iff.mp hmem
      rw [(hnone name hname).2.2] at htable
      cases htable
  · by_cases hname : name ∈ tableNames left right
    · obtain ⟨table, htable, hmerged⟩ := hmergedName name hname
      rw [rowsOf_of_lookup htable]
      exact hmerged.one_row hl hr h
    · rw [rowsOf_of_none (hnone name hname).2.2]
      exact List.nodup_nil
  · -- A row's run is among the runs of the side that the row comes from.
    intro name reading hreading key hkey
    have hagree : ∀ {x y : Reading Value}, visible x = visible y → x "run_key" = y "run_key" := by
      intro x y hsame
      have hcolumn := congrFun hsame "run_key"
      rwa [visible, visible, if_neg (by decide), if_neg (by decide)] at hcolumn
    have hmem : visible reading ∈ contents left name ∪ contents right name :=
      hcontents name ▸ ⟨reading, hreading, rfl⟩
    have hrun : ∃ run ∈ rowsOf left runTable ++ rowsOf right runTable,
        run "run_key" = some key := by
      rcases hmem with ⟨source, hsource, hsame⟩ | ⟨source, hsource, hsame⟩
      · have hkey' : source "run_key" = some key := (hagree hsame).trans hkey
        obtain ⟨run, hrun, hrunKey⟩ := hleftRuns name source hsource key hkey'
        exact ⟨run, List.mem_append_left _ hrun, hrunKey⟩
      · have hkey' : source "run_key" = some key := (hagree hsame).trans hkey
        obtain ⟨run, hrun, hrunKey⟩ := hrightRuns name source hsource key hkey'
        exact ⟨run, List.mem_append_right _ hrun, hrunKey⟩
    obtain ⟨run, hrunMem, hrunKey⟩ := hrun
    have hpublished : visible run ∈ contents output runTable := by
      rw [hcontents]
      exact (List.mem_append.mp hrunMem).imp (fun h => ⟨run, h, rfl⟩) fun h => ⟨run, h, rfl⟩
    obtain ⟨stored, hstored, hsame⟩ := hpublished
    exact ⟨stored, hstored, (hagree hsame).trans hrunKey⟩

/-- What a merge of the swapped inputs publishes: the same content, and mirrored counts. -/
structure Swapped (output : Database Value) (tables : List TableMergeStats)
    (other : Database Value) (otherTables : List TableMergeStats) : Prop where
  contents : ∀ name, contents other name = contents output name
  columns : ∀ name table table', output.tables.lookup name = some table →
    other.tables.lookup name = some table' → table'.columns = table.columns
  counts : List.Forall₂ Mirrored tables otherTables

/-- A merge of two profile databases is published exactly when no semantic key has rows that
    differ outside their creation time; what it publishes is the keyed union, whichever side is
    the left one; a database merged with itself is unchanged; and in every table the inserted,
    the duplicate and the conflicting rows are the right rows. -/
theorem keyed_union (sqlite : Sqlite Value) (leftPath rightPath : String) (hl : Stored left)
    (hr : Stored right) (h : Compatible left right) :
    ∃ report, mergeProfileDatabases sqlite leftPath rightPath left right = .ok report ∧
      (report.output.isSome ↔ ¬Differ left right) ∧
      (∀ output, report.output = some output → Union left right output ∧
        ∃ swapped other, mergeProfileDatabases sqlite rightPath leftPath right left = .ok swapped ∧
          swapped.output = some other ∧ Swapped output report.tables other swapped.tables) ∧
      (∃ own unchanged, mergeProfileDatabases sqlite leftPath leftPath left left = .ok own ∧
        own.output = some unchanged ∧ unchanged.metadata = left.metadata ∧
        ∀ name, unchanged.tables.lookup name = left.tables.lookup name) ∧
      report.tables.map TableMergeStats.table = tableNames left right ∧
      ∀ stats ∈ report.tables,
        stats.insertedRows + stats.duplicateRows + stats.conflictRows = stats.rightRows ∧
          stats.leftRows = (rowsOf left stats.table).length ∧
          stats.rightRows = (rowsOf right stats.table).length := by
  obtain ⟨report, state, hreport, hstate, htables, houtput⟩ :=
    merge_spec sqlite leftPath rightPath hl hr h
  refine ⟨report, hreport, ?_, ?_, ?_, ?_, ?_⟩
  · rw [houtput, not_differ_iff hl, ← hstate.conflicts]
    by_cases hnone : state.conflicts = []
    · simp [hnone]
    · simp [hnone]
  · intro output hout
    have hnone : state.conflicts = [] := by
      by_contra hsome
      rw [houtput, if_neg hsome] at hout
      cases hout
    rw [houtput, if_pos hnone] at hout
    obtain rfl := Option.some.inj hout
    have hconflicts := hstate.conflicts.mp hnone
    have hunion : Union left right ⟨left.metadata, state.output⟩ :=
      union_of_merged hl hr h hstate hconflicts rfl
    -- the merge the other way round meets the same conflicts, so it too has an output
    obtain ⟨swapped, back, hswapped, hback, hbackTables, hbackOutput⟩ :=
      merge_spec sqlite rightPath leftPath hr hl h.symm
    have hbackConflicts : ∀ name ∈ tableNames right left,
        (tallyOf right left name).conflictRows = 0 := fun name hname => by
      rw [(mirrored_tallyOf hl hr h name).conflictRows]
      exact hconflicts name (tableNames_comm ▸ hname)
    have hbackUnion : Union right left ⟨right.metadata, back.output⟩ :=
      union_of_merged hr hl h.symm hback hbackConflicts rfl
    rw [if_pos (hback.conflicts.mpr hbackConflicts)] at hbackOutput
    refine ⟨hunion, swapped, _, hswapped, hbackOutput, fun name => ?_, ?_, ?_⟩
    · rw [hbackUnion.contents, hunion.contents, Set.union_comm]
    · intro name table table' htable htable'
      have hname : name ∈ tableNames left right :=
        (hunion.tables name).mp (Dictionary.mem_keys_iff.mpr ⟨table, htable⟩)
      obtain ⟨merged, hmerged, hspec⟩ := hstate.merged name hname
      obtain ⟨merged', hmerged', hspec'⟩ := hback.merged name (tableNames_comm ▸ hname)
      obtain rfl := Option.some.inj (hmerged.symm.trans htable)
      obtain rfl := Option.some.inj (hmerged'.symm.trans htable')
      exact hspec.columns_comm hspec'
    · rw [htables, hbackTables, hstate.stats, hback.stats, tableNames_comm]
      exact List.forall₂_map_left_iff.mpr (List.forall₂_map_right_iff.mpr
        (List.forall₂_same.mpr fun name _ => mirrored_tallyOf hl hr h name))
  · obtain ⟨own, final, hown, hfinal, _, hownOutput⟩ :=
      merge_spec sqlite leftPath leftPath hl hl (compatible_self left)
    -- a row meets itself only
    have hconflicts : ∀ name ∈ tableNames left left,
        (tallyOf left left name).conflictRows = 0 := fun name _ =>
      conflictRows_eq_zero_iff.mpr fun x hx y hy hkey =>
        congrArg visible (eq_of_key (nodup_rowsOf_left hl) hx hy hkey)
    rw [if_pos (hfinal.conflicts.mpr hconflicts)] at hownOutput
    refine ⟨own, _, hown, hownOutput, rfl, fun name => ?_⟩
    by_cases hname : name ∈ tableNames left left
    · obtain ⟨table, htable, hmerged⟩ := hfinal.merged name hname
      exact htable.trans (hmerged.kept rfl).symm
    · exact hfinal.rest name hname
  · rw [htables, hstate.stats, List.map_map]
    exact List.map_id _
  · intro stats hstats
    rw [htables, hstate.stats] at hstats
    obtain ⟨name, _, rfl⟩ := List.mem_map.mp hstats
    exact ⟨tally_sum name (nodup_rowsOf_left hl) _, rfl, rfl⟩

end run

/-! ## A merge with a wider table -/

theorem stored_single {name : String} {table : Table Value} {contract : TableContract}
    (h : ProfileTable name table contract) (hname : name ∉ retiredTables) :
    Stored ⟨[("schema_version", schemaVersion), ("schema_hash", schemaHash)], [(name, table)]⟩ := by
  refine ⟨List.nodup_singleton _, rfl, fun retired hretired hmem => ?_, ?_⟩
  · have heq : retired = name := List.mem_singleton.mp hmem
    exact hname (heq ▸ hretired)
  · intro other table' hlookup
    obtain ⟨rfl, rfl⟩ := Prod.mk.inj (List.mem_singleton.mp (Dictionary.mem_of_lookup hlookup))
    exact ⟨contract, h⟩

def keyColumns : List Column :=
  [⟨"id", "INTEGER", false, none, 1, 0⟩, ⟨"gpu_name", "TEXT", true, none, 0, 0⟩,
    ⟨"backend", "TEXT", true, none, 0, 0⟩, ⟨"m", "INTEGER", true, none, 0, 0⟩]

def headDimV : Column := ⟨"head_dim_v", "INTEGER", false, none, 0, 0⟩

def sampleTable (columns : List Column) (cells : List (List (String × Option Nat))) :
    Table Nat where
  columns := columns
  indexes := [⟨true, false, ["gpu_name", "backend", "m"]⟩]
  rows := cells.zipIdx.map fun row => ⟨row.2 + 1, row.1⟩
  sequence := cells.length

def narrowTable : Table Nat :=
  sampleTable keyColumns [[("gpu_name", some 0), ("backend", some 0), ("m", some 8)],
    [("gpu_name", some 0), ("backend", some 0), ("m", some 16)]]

def wideTable : Table Nat :=
  sampleTable (keyColumns ++ [headDimV])
    [[("gpu_name", some 0), ("backend", some 0), ("m", some 8), ("head_dim_v", none)],
      [("gpu_name", some 0), ("backend", some 1), ("m", some 16), ("head_dim_v", some 64)]]

def sampleContract (columns : List Column) : TableContract where
  name := "gemm"
  columns := columns.map Column.name
  primaryKey := ["id"]
  semanticKey := ["gpu_name", "backend", "m"]
  columnSchema := columns

theorem narrow_profile : ProfileTable "gemm" narrowTable (sampleContract keyColumns) :=
  ⟨rfl, by decide, by decide, by decide, by decide, by decide, by decide⟩

theorem wide_profile : ProfileTable "gemm" wideTable (sampleContract (keyColumns ++ [headDimV])) :=
  ⟨rfl, by decide, by decide, by decide, by decide, by decide, by decide⟩

def sampleDatabase (table : Table Nat) : Database Nat :=
  ⟨[("schema_version", schemaVersion), ("schema_hash", schemaHash)], [("gemm", table)]⟩

theorem sample_compatible : Compatible (sampleDatabase narrowTable) (sampleDatabase wideTable) := by
  have hnarrow : ∀ {name : String} {l : Table Nat},
      (sampleDatabase narrowTable).tables.lookup name = some l → name = "gemm" ∧ l = narrowTable :=
    fun h => Prod.mk.inj (List.mem_singleton.mp (Dictionary.mem_of_lookup h))
  have hwide : ∀ {name : String} {r : Table Nat},
      (sampleDatabase wideTable).tables.lookup name = some r → name = "gemm" ∧ r = wideTable :=
    fun h => Prod.mk.inj (List.mem_singleton.mp (Dictionary.mem_of_lookup h))
  refine ⟨fun name l r lc rc hl hr hlc hrc => ?_, fun name l r hl hr => ?_⟩
  · obtain ⟨rfl, rfl⟩ := hnarrow hl
    obtain ⟨_, rfl⟩ := hwide hr
    rw [← Except.ok.inj (narrow_profile.contract_eq.symm.trans hlc),
      ← Except.ok.inj (wide_profile.contract_eq.symm.trans hrc)]
    rfl
  · obtain ⟨_, rfl⟩ := hnarrow hl
    obtain ⟨_, rfl⟩ := hwide hr
    exact .inl ⟨[headDimV], rfl, by decide⟩

def sampleSqlite : Sqlite Nat := ⟨fun left right => decide (left ≤ right), fun _ => none⟩

def mergedTable : Table Nat :=
  sampleTable (keyColumns ++ [headDimV])
    [[("gpu_name", some 0), ("backend", some 0), ("m", some 8), ("head_dim_v", none)],
      [("gpu_name", some 0), ("backend", some 0), ("m", some 16), ("head_dim_v", none)],
      [("gpu_name", some 0), ("backend", some 1), ("m", some 16), ("head_dim_v", some 64)]]

theorem wide_ordered :
    selectOrdered sampleSqlite wideTable (sampleContract (keyColumns ++ [headDimV])) =
      wideTable.rows :=
  List.mergeSort_of_pairwise (by decide)

theorem wide_merged (leftRuns : Table Nat → Option (Table Nat)) :
    mergeCommonTable sampleSqlite (sampleContract (keyColumns ++ [headDimV])) leftRuns none
      (addColumns narrowTable [headDimV]) wideTable =
        (mergedTable, ⟨"gemm", 2, 2, 1, 1, 0⟩, []) := by
  rw [mergeCommonTable, wide_ordered]
  rfl

theorem wide_published :
    mergeProfileDatabases sampleSqlite "left.db" "right.db" (sampleDatabase narrowTable)
        (sampleDatabase wideTable) =
      .ok ⟨some (sampleDatabase mergedTable), [⟨"gemm", 2, 2, 1, 1, 0⟩], []⟩ := by
  have htables : mergeTables sampleSqlite (sampleDatabase narrowTable) (sampleDatabase wideTable) =
      .ok ⟨[("gemm", mergedTable)], [⟨"gemm", 2, 2, 1, 1, 0⟩], []⟩ :=
    congrArg (fun merged : Table Nat × TableMergeStats × List (MergeConflict Nat) =>
      Except.ok (MergingTables.mk [("gemm", merged.1)] [merged.2.1] merged.2.2)) (wide_merged _)
  rw [mergeProfileDatabases, htables]
  rfl

/-- One row is on both sides, and the other of the wider one is inserted. -/
theorem keyed_union_wider : ∃ report, mergeProfileDatabases sampleSqlite "left.db" "right.db"
        (sampleDatabase narrowTable) (sampleDatabase wideTable) = .ok report ∧
      report.tables = [⟨"gemm", 2, 2, 1, 1, 0⟩] ∧
      report.output = some (sampleDatabase mergedTable) ∧
      ¬Differ (sampleDatabase narrowTable) (sampleDatabase wideTable) ∧
      Union (sampleDatabase narrowTable) (sampleDatabase wideTable)
        (sampleDatabase mergedTable) := by
  obtain ⟨report, hreport, hpublished, hunion, _⟩ :=
    keyed_union sampleSqlite "left.db" "right.db" (stored_single narrow_profile (by decide))
      (stored_single wide_profile (by decide)) sample_compatible
  obtain rfl := Except.ok.inj (wide_published.symm.trans hreport)
  exact ⟨_, hreport, rfl, rfl, hpublished.mp rfl, (hunion _ rfl).1⟩

end ProfileMerge

end ServingSim
