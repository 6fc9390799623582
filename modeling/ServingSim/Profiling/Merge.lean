import Mathlib.Data.List.Sort
import Mathlib.Data.String.Basic
import ServingSim.Common.Ensure

/-
  Merging two profile databases.

  A profile database holds one table a kernel kind, each with a surrogate `id` and one semantic
  unique key, and the runs that its rows reference by content key as just another table. A merge
  starts from a copy of the left database, takes in the right rows whose key the copy lacks,
  counts those that agree with the row already there, and reports those that differ.

  SQLite's tables are row lists here. What SQLite does by itself is a parameter: the order that
  `ORDER BY` puts two values in and the value of a column's default. A NULL is `none`.
-/

namespace ServingSim

namespace ProfileMerge

/-! ## Databases -/

/-- One row of `PRAGMA table_xinfo`. -/
structure Column where
  name : String
  declared : String
  notnull : Bool
  dfltValue : Option String
  pk : Nat
  hidden : Nat
deriving DecidableEq

/-- One row of `PRAGMA index_list`, with its `index_info`. -/
structure Index where
  unique : Bool
  isPartial : Bool
  columns : List String

/-- A stored row: its surrogate key, and the other columns in table order. -/
structure Row (Value : Type) where
  id : Nat
  cells : List (String × Option Value)

/-- A table; `sequence` is the last surrogate key that AUTOINCREMENT gave out. -/
structure Table (Value : Type) where
  columns : List Column
  indexes : List Index
  rows : List (Row Value)
  sequence : Nat

/-- A database: the `_db_metadata` table, and the profile tables by name. -/
structure Database (Value : Type) where
  metadata : List (String × String)
  tables : List (String × Table Value)

/-- What SQLite does by itself. -/
structure Sqlite (Value : Type) where
  le : Value → Value → Bool
  evaluate : String → Option Value

def runTable : String := "_profile_run"

def runColumns : List String :=
  ["profiler_git_hash", "cuda_version", "driver_version", "backend_version"]

def lookupKeys : List (String × List String) := [(runTable, ["run_key"])]

def retiredTables : List String :=
  ["_kernel_config", "_kernel_config_source", "_kernel_config_role", "_kernel_config_use",
    "_kernel_config_blob"]

def schemaVersion : String := "3"

def schemaHash : String := "l1-compact-keys-v3"

def ignoredEqualityColumns : List String := ["created_at"]

/-! ## Contracts -/

structure TableContract where
  name : String
  columns : List String
  primaryKey : List String
  semanticKey : List String
  columnSchema : List Column

def TableContract.insertColumns (contract : TableContract) : List String :=
  contract.columns.filter fun column => column ∉ contract.primaryKey

def TableContract.equalityColumns (contract : TableContract) : List String :=
  contract.insertColumns.filter fun column => column ∉ ignoredEqualityColumns

variable {Value : Type}

/-- `repr` of a tuple of plain names. -/
def reprNames (names : List String) : String :=
  let items := names.map fun name => "'" ++ name ++ "'"
  "(" ++ ", ".intercalate items ++ (if names.length = 1 then ",)" else ")")

/-- A lookup table is keyed by what it declares; any other table by the one unique index that
    begins with `(gpu_name, backend)`. -/
def semanticKeyOf (name : String) (table : Table Value) : Except String (List String) :=
  let unique := (table.indexes.filter fun index => index.unique && !index.isPartial).map
    Index.columns
  match lookupKeys.lookup name with
  | some lookupKey =>
    match unique.filter fun columns => columns = lookupKey with
    | [columns] => .ok columns
    | _ => .error s!"lookup table '{name}' must declare the unique key {reprNames lookupKey}"
  | none =>
    match unique.filter fun columns => columns.take 2 = ["gpu_name", "backend"] with
    | [columns] => .ok columns
    | _ => .error (s!"profile table '{name}' must declare exactly one unique semantic key " ++
        "beginning with (gpu_name, backend)")

def primaryKeyOf (table : Table Value) : List String :=
  ((table.columns.insertionSort fun left right => left.pk ≤ right.pk).filter
    fun column => 0 < column.pk).map Column.name

/-- The columns of a key that may hold NULL. -/
def nullableColumns (table : Table Value) (key : List String) : List String :=
  key.filter fun name => table.columns.any fun column => column.name = name && !column.notnull

def tableContract (name : String) (table : Table Value) : Except String TableContract := do
  ensure (table.columns ≠ []) s!"profile table '{name}' has no columns"
  ensure (primaryKeyOf table = ["id"])
    s!"profile table '{name}' must have the standard surrogate primary key 'id'"
  let semanticKey ← semanticKeyOf name table
  ensure (nullableColumns table semanticKey = [])
    (s!"profile table '{name}' has nullable semantic key columns: " ++
      ", ".intercalate (nullableColumns table semanticKey))
  return { name, columns := table.columns.map Column.name, primaryKey := primaryKeyOf table,
           semanticKey, columnSchema := table.columns }

def validateMatchingContracts (left right : TableContract) : Except String Unit := do
  ensure (left.columnSchema = right.columnSchema)
    s!"profile table '{left.name}' has incompatible column schemas"
  ensure (left.semanticKey = right.semanticKey)
    (s!"profile table '{left.name}' has incompatible semantic keys: " ++
      s!"{reprNames left.semanticKey} != {reprNames right.semanticKey}")

/-- `ALTER TABLE … ADD COLUMN` for each column: the rows there read NULL in it. -/
def addColumns (table : Table Value) (extra : List Column) : Table Value :=
  { table with
    columns := table.columns ++ extra.map fun column =>
      { name := column.name, declared := column.declared, notnull := false, dfltValue := none,
        pk := 0, hidden := 0 }
    rows := table.rows.map fun row =>
      { row with cells := row.cells ++ extra.map fun column => (column.name, none) } }

/-- The contract both sides merge under, and the output's table widened to it. -/
def widenedContract (left right : TableContract) (output : Table Value) :
    Except String (TableContract × Table Value) :=
  if left.columnSchema = right.columnSchema then do
    validateMatchingContracts left right
    return (left, output)
  else
    -- Sorting is stable, so the left contract is the narrow one of two as wide as each other.
    let rightIsWide := left.columnSchema.length ≤ right.columnSchema.length
    let narrow := if rightIsWide then left else right
    let wide := if rightIsWide then right else left
    let extra := wide.columnSchema.drop narrow.columnSchema.length
    do
      ensure (wide.columnSchema.take narrow.columnSchema.length = narrow.columnSchema ∧
          ∀ column ∈ extra, column.notnull = false ∧ column.dfltValue = none ∧ column.pk = 0)
        s!"profile table '{left.name}' has incompatible column schemas"
      validateMatchingContracts left { right with columnSchema := left.columnSchema }
      return (wide, if rightIsWide then addColumns output extra else output)

/-! ## Rows -/

/-- `row[column]`, or NULL when the row's table lacks the optional column. -/
def value (row : Row Value) (column : String) : Option Value := (row.cells.lookup column).join

/-- SQL's `=`: a NULL is equal to nothing. -/
def sqlEq [DecidableEq Value] (left right : Option Value) : Bool := left.isSome && left = right

def findByKey [DecidableEq Value] (table : Table Value) (contract : TableContract)
    (row : Row Value) : Option (Row Value) :=
  table.rows.find? fun existing =>
    contract.semanticKey.all fun column => sqlEq (value existing column) (value row column)

/-- The columns the row has are copied; `id` is a new one and any other column its default. -/
def insertRow (sqlite : Sqlite Value) (table : Table Value) (contract : TableContract)
    (row : Row Value) : Table Value :=
  let columns := contract.insertColumns.filter fun column => column ∈ row.cells.map Prod.fst
  let stored := table.columns.filter fun column => column.pk = 0
  { table with
    rows := table.rows ++ [{
      id := table.sequence + 1
      cells := stored.map fun column =>
        (column.name,
          if column.name ∈ columns then value row column.name
          else column.dfltValue.bind sqlite.evaluate) }]
    sequence := table.sequence + 1 }

/-- SQLite's order of two keys. -/
def keyLe [DecidableEq Value] (sqlite : Sqlite Value) :
    List (Option Value) → List (Option Value) → Bool
  | some left :: lefts, some right :: rights =>
    if left = right then keyLe sqlite lefts rights else sqlite.le left right
  | none :: lefts, none :: rights => keyLe sqlite lefts rights
  | some _ :: _, none :: _ => false
  | _, _ => true

def keyOf (key : List String) (row : Row Value) : List (Option Value) := key.map (value row)

def selectOrdered [DecidableEq Value] (sqlite : Sqlite Value) (table : Table Value)
    (contract : TableContract) : List (Row Value) :=
  table.rows.mergeSort fun left right =>
    keyLe sqlite (keyOf contract.semanticKey left) (keyOf contract.semanticKey right)

/-! ## Merging -/

structure TableMergeStats where
  table : String
  leftRows : Nat
  rightRows : Nat
  insertedRows : Nat
  duplicateRows : Nat
  conflictRows : Nat
deriving DecidableEq

structure MergeConflict (Value : Type) where
  table : String
  key : List (String × Option Value)
  differingColumns : List String
  left : List (String × Option Value)
  right : List (String × Option Value)

/-- `dict[key] = new`. -/
def assign {V : Type} (dict : List (String × V)) (key : String) (new : V) : List (String × V) :=
  if key ∈ dict.map Prod.fst then
    dict.map fun entry => if entry.1 = key then (key, new) else entry
  else dict ++ [(key, new)]

/-- A run key means nothing to whoever resolves the conflict, so the run itself is reported. -/
def reportRow [DecidableEq Value] (runs : Option (Table Value)) (row : Row Value)
    (contract : TableContract) : List (String × Option Value) :=
  let out := contract.insertColumns.map fun column => (column, value row column)
  let run := (runs.map Table.rows).bind fun rows =>
    rows.find? fun run => sqlEq (value run "run_key") (value row "run_key")
  match if "run_key" ∈ contract.insertColumns then run else none with
  | some run => runColumns.foldl (fun out column => assign out column (value run column)) out
  | none => out

/-- The state of the loop over one table's right rows. -/
structure Merging (Value : Type) where
  table : Table Value
  inserted : Nat := 0
  duplicates : Nat := 0
  conflicts : List (MergeConflict Value) := []

def differing [DecidableEq Value] (contract : TableContract) (existing row : Row Value) :
    List String :=
  contract.equalityColumns.filter fun column => value existing column ≠ value row column

/-- One turn of the loop. `leftRuns` reads the output's runs as the output's table now is. -/
def mergeRow [DecidableEq Value] (sqlite : Sqlite Value) (contract : TableContract)
    (leftRuns : Table Value → Option (Table Value)) (rightRuns : Option (Table Value))
    (state : Merging Value) (row : Row Value) : Merging Value :=
  match findByKey state.table contract row with
  | none =>
    { state with
      table := insertRow sqlite state.table contract row
      inserted := state.inserted + 1 }
  | some existing =>
    if differing contract existing row = [] then
      { state with duplicates := state.duplicates + 1 }
    else
      { state with
        conflicts := state.conflicts ++ [{
          table := contract.name
          key := contract.semanticKey.map fun column => (column, value row column)
          differingColumns := differing contract existing row
          left := reportRow (leftRuns state.table) existing contract
          right := reportRow rightRuns row contract }] }

def mergeCommonTable [DecidableEq Value] (sqlite : Sqlite Value) (contract : TableContract)
    (leftRuns : Table Value → Option (Table Value)) (rightRuns : Option (Table Value))
    (output right : Table Value) : Table Value × TableMergeStats × List (MergeConflict Value) :=
  let merged := (selectOrdered sqlite right contract).foldl
    (mergeRow sqlite contract leftRuns rightRuns) { table := output }
  (merged.table,
    { table := contract.name
      leftRows := output.rows.length
      rightRows := right.rows.length
      insertedRows := merged.inserted
      duplicateRows := merged.duplicates
      conflictRows := merged.conflicts.length },
    merged.conflicts)

/-- The table is created as the right database declares it, and every row is inserted. -/
def copyRightOnlyTable [DecidableEq Value] (sqlite : Sqlite Value) (name : String)
    (right : Table Value) : Except String (Table Value × TableMergeStats) := do
  let contract ← tableContract name right
  let created : Table Value :=
    { columns := right.columns, indexes := right.indexes, rows := [], sequence := 0 }
  return ((selectOrdered sqlite right contract).foldl
      (fun table row => insertRow sqlite table contract row) created,
    { table := name, leftRows := 0, rightRows := right.rows.length,
      insertedRows := right.rows.length, duplicateRows := 0, conflictRows := 0 })

/-- The output database while the tables are merged, with the report so far. -/
structure MergingTables (Value : Type) where
  output : List (String × Table Value)
  stats : List TableMergeStats := []
  conflicts : List (MergeConflict Value) := []

/-- One turn of `_merge_tables`: the table called `name`. -/
def mergeTable [DecidableEq Value] (sqlite : Sqlite Value) (left right : Database Value)
    (state : MergingTables Value) (name : String) : Except String (MergingTables Value) :=
  match left.tables.lookup name, right.tables.lookup name with
  | none, none => return state
  | none, some rightTable => do
    let (table, stats) ← copyRightOnlyTable sqlite name rightTable
    return { state with output := assign state.output name table, stats := state.stats ++ [stats] }
  | some leftTable, none => do
    let _ ← tableContract name leftTable
    return { state with
      stats := state.stats ++ [{
        table := name, leftRows := leftTable.rows.length, rightRows := 0, insertedRows := 0,
        duplicateRows := 0, conflictRows := 0 }] }
  | some leftTable, some rightTable => do
    let leftContract ← tableContract name leftTable
    let rightContract ← tableContract name rightTable
    let (contract, output) ← widenedContract leftContract rightContract
      ((state.output.lookup name).getD leftTable)
    let leftRuns := fun table => (assign state.output name table).lookup runTable
    let (table, stats, conflicts) := mergeCommonTable sqlite contract leftRuns
      (right.tables.lookup runTable) output rightTable
    return {
      output := assign state.output name table
      stats := state.stats ++ [stats]
      conflicts := state.conflicts ++ conflicts }

/-- `sorted(left_tables | right_tables)`. -/
def tableNames (left right : Database Value) : List String :=
  (left.tables.map Prod.fst ++ right.tables.map Prod.fst).dedup.insertionSort (· ≤ ·)

def mergeTables [DecidableEq Value] (sqlite : Sqlite Value) (left right : Database Value) :
    Except String (MergingTables Value) :=
  (tableNames left right).foldlM (mergeTable sqlite left right) { output := left.tables }

/-! ## Publication -/

/-- What a merge returns; `output` is the database it published, if any. -/
structure ProfileDbMergeReport (Value : Type) where
  output : Option (Database Value)
  tables : List TableMergeStats
  conflicts : List (MergeConflict Value)

def validateDatabase (path : String) (db : Database Value) : Except String Unit :=
  let retired := (retiredTables.filter fun name => name ∈ db.tables.map Prod.fst).insertionSort
    (· ≤ ·)
  ensure (retired = [])
    (path ++ " holds tables this checkout retired (" ++ ", ".intercalate retired ++
      s!"); run `uv run python -m launcher kernel-profile migrate-db {path}` first")

/-- The metadata that a merge compares, a missing one as `None`. -/
def comparedMetadata (db : Database Value) : List (String × Option String) :=
  ["schema_version", "schema_hash"].map fun key => (key, db.metadata.lookup key)

def expectedMetadata : List (String × Option String) :=
  [("schema_version", some schemaVersion), ("schema_hash", some schemaHash)]

def reprMetadata (metadata : List (String × Option String)) : String :=
  let items := metadata.map fun entry =>
    "'" ++ entry.1 ++ "': " ++ (entry.2.map fun text => "'" ++ text ++ "'").getD "None"
  "\x7b" ++ ", ".intercalate items ++ "\x7d"

def validateMetadata (side : String) (db : Database Value) : Except String Unit :=
  ensure (comparedMetadata db = expectedMetadata)
    (side ++ " profile DB schema metadata is incompatible: expected " ++
      reprMetadata expectedMetadata ++ ", got " ++ reprMetadata (comparedMetadata db))

def validateCompatibleMetadata (left right : Database Value) : Except String Unit := do
  validateMetadata "left" left
  validateMetadata "right" right

def mergeProfileDatabases [DecidableEq Value] (sqlite : Sqlite Value)
    (leftPath rightPath : String) (left right : Database Value) :
    Except String (ProfileDbMergeReport Value) := do
  validateDatabase leftPath left
  validateDatabase rightPath right
  validateCompatibleMetadata left right
  let merged ← mergeTables sqlite left right
  return {
    output := if merged.conflicts = [] then
        some { metadata := left.metadata, tables := merged.output }
      else none
    tables := merged.stats
    conflicts := merged.conflicts }

end ProfileMerge

end ServingSim
