import ServingSim.Profiling.KernelArgs

/-
  One profile table.

  A table holds the rows of one kernel kind, one row per GPU, backend and hash of the canonical
  args. It holds a column per required args field, and one per optional field that some row has
  set. A query looks its args up in chunks, each a join of a `VALUES` table with the table's
  rows, and puts every row found at the position of its args.

  Renamed (Python ↔ Lean):
    `Table.db_key`, `Table.args_hash` ↔ `dbKey`, `tableArgsHash`
    `_row_values`, `Table._insert` ↔ `rowValues`, `upsert`
    `_match_rows`, `_stored_values` ↔ `boundRow`, `joins`, `matchRows`
  SQLite applies column affinity as `stored_value` describes it (`affinity`). A database without
  the table is `none`. The metrics of the table's family are read back as they are written, so
  their type is a parameter. The provenance columns are no part of the key and are left out.
-/

namespace ServingSim

namespace ProfileTable

/-- What a table's profiler spec tells it. -/
structure KernelProfilerSpec where
  kernelKind : String
  backend : String

/-- A row to be inserted. -/
structure ProfileRow (schema : ArgsSchema) (Metrics : Type) where
  args : KernelArgs schema
  metrics : Metrics
  gpuName : String
  backend : String

/-- A stored row; its args columns in table order, an unset optional one NULL. -/
structure StoredRow (Hash Metrics : Type) where
  gpuName : String
  backend : String
  args : List (String × Option Stored)
  argsHash : Hash
  metrics : Metrics
  isOutlier : Bool

/-- A table; `optionals` are the optional args columns appended so far. -/
structure KindTable (Hash Metrics : Type) where
  optionals : List String := []
  rows : List (StoredRow Hash Metrics) := []

structure MissingEntry (schema : ArgsSchema) where
  kernelKind : String
  backend : String
  gpuName : String
  args : KernelArgs schema

inductive Answer (schema : ArgsSchema) (Metrics : Type) where
  | metrics (metrics : Metrics)
  | missing (entry : MissingEntry schema)

/-- What the model leaves to SQLite and the standard library: the texts of strings and floats,
    and the hash of the stored args. -/
structure Storage (Hash : Type) where
  texts : ScalarTexts
  digest : List (String × Stored) → Hash

section table

variable {schema : ArgsSchema} {Hash Metrics : Type}

/-! ## Keys -/

/-- `args` as the table stores them, in field order; an unset optional arg is `none`. -/
def dbKey (storage : Storage Hash) (args : KernelArgs schema) : List (Option DbValue) :=
  schema.fields.map fun field =>
    ((canonicalArgs args).value field).map (toDbValue storage.texts field.type)

/-- `_declared_types`. -/
def declaredTypes (schema : ArgsSchema) (column : String) : SqlType :=
  ((schema.fields.find? fun field => field.name = column).map fun field =>
    sqliteType field.type).getD .text

/-- The `args_hash` column of a row keyed `key`: unset optional args are not hashed. -/
def tableArgsHash (storage : Storage Hash) (schema : ArgsSchema) (key : List (Option DbValue)) :
    Except String Hash :=
  let hashed := (schema.fields.zip key).filter fun entry =>
    entry.2.isSome || entry.1.sameAs.isNone
  storageArgsHash storage.texts storage.digest (hashed.map fun entry => (entry.1.name, entry.2))
    (declaredTypes schema)

/-- The args columns the table holds: the required ones, and the optional ones some row set. -/
def storedArgsColumns (schema : ArgsSchema) (table : KindTable Hash Metrics) : List Field :=
  schema.fields.filter fun field => field.sameAs.isNone || field.name ∈ table.optionals

/-- Whether a row keyed `key` can be in a table holding `stored`. -/
def storable (schema : ArgsSchema) (key : List (Option DbValue)) (stored : List Field) : Bool :=
  (schema.fields.zip key).all fun entry => entry.2.isNone || entry.1 ∈ stored

/-- The stored columns of a key, under the affinity of their declared types. -/
def storedValues (schema : ArgsSchema) (key : List (Option DbValue)) (stored : List Field) :
    List (String × Option Stored) :=
  ((schema.fields.zip key).filter fun entry => entry.1 ∈ stored).map fun entry =>
    (entry.1.name, entry.2.bind fun value => affinity value (sqliteType entry.1.type))

/-! ## Inserting -/

/-- Append each column in `columns` that the table lacks: the rows there read NULL in it. -/
def ensureOptionalColumns (table : KindTable Hash Metrics) (columns : List String) :
    KindTable Hash Metrics :=
  let added := columns.filter fun column => column ∉ table.optionals
  { optionals := table.optionals ++ added
    rows := table.rows.map fun row =>
      { row with args := row.args ++ added.map fun column => (column, none) } }

def rowValues (storage : Storage Hash) (row : ProfileRow schema Metrics) (stored : List Field) :
    Except String (StoredRow Hash Metrics) := do
  let key := dbKey storage row.args
  let argsHash ← tableArgsHash storage schema key
  return { gpuName := row.gpuName, backend := row.backend
           args := storedValues schema key stored, argsHash, metrics := row.metrics
           isOutlier := false }

/-- The unique key of a row. -/
def StoredRow.key (row : StoredRow Hash Metrics) : String × String × Hash :=
  (row.gpuName, row.backend, row.argsHash)

/-- `INSERT … ON CONFLICT(gpu_name, backend, args_hash) DO UPDATE`: the key columns stay. -/
def upsert [DecidableEq Hash] (rows : List (StoredRow Hash Metrics))
    (row : StoredRow Hash Metrics) : List (StoredRow Hash Metrics) :=
  if row.key ∈ rows.map StoredRow.key then
    rows.map fun existing =>
      if existing.key = row.key then
        { existing with metrics := row.metrics, isOutlier := false }
      else existing
  else rows ++ [row]

/-- The optional columns that a row of the batch sets. -/
def setOptional (rows : List (ProfileRow schema Metrics)) : List String :=
  (schema.fields.filter fun field => field.sameAs.isSome &&
    rows.any fun row => ((canonicalArgs row.args).value field).isSome).map Field.name

def insert [DecidableEq Hash] (storage : Storage Hash) (db : Option (KindTable Hash Metrics))
    (rows : List (ProfileRow schema Metrics)) : Except String (Option (KindTable Hash Metrics)) :=
  if rows = [] then .ok db
  else do
    let table := ensureOptionalColumns (db.getD {}) (setOptional rows)
    let values ← rows.mapM fun row => rowValues storage row (storedArgsColumns schema table)
    return some { table with rows := values.foldl upsert table.rows }

/-! ## Querying -/

/-- A row of the `VALUES` table: the position of the args, their hash and their columns. -/
structure BoundRow (Hash : Type) where
  index : Nat
  argsHash : Hash
  args : List (String × Option Stored)

def boundRow (storage : Storage Hash) (schema : ArgsSchema) (stored : List Field) (index : Nat)
    (key : List (Option DbValue)) : Except String (BoundRow Hash) := do
  let argsHash ← tableArgsHash storage schema key
  return { index, argsHash, args := storedValues schema key stored }

def cellOf (cells : List (String × Option Stored)) (column : String) : Option Stored :=
  (cells.lookup column).join

/-- `IS` for an optional column, so NULL matches NULL, and `=` for a required one. -/
def cellMatches (field : Field) (left right : Option Stored) : Bool :=
  if field.sameAs.isSome then left = right else left.isSome && left = right

/-- The join condition. -/
def joins [DecidableEq Hash] (stored : List Field) (gpuName backend : String)
    (includeOutliers : Bool) (bound : BoundRow Hash) (row : StoredRow Hash Metrics) : Bool :=
  row.gpuName = gpuName && row.backend = backend && row.argsHash = bound.argsHash &&
    (stored.all fun field =>
      cellMatches field (cellOf row.args field.name) (cellOf bound.args field.name)) &&
    (includeOutliers || !row.isOutlier)

def sqlVariables : Nat := 30000

/-- The parts of `l`, each of `size` items but the last. -/
def chunks {α : Type} (size : Nat) (l : List α) : List (List α) :=
  (List.range ((l.length + size - 1) / size)).map fun part => (l.drop (part * size)).take size

/-- The row of each args on `(gpu_name, backend)`, or none. -/
def matchRows [DecidableEq Hash] (storage : Storage Hash) (table : KindTable Hash Metrics)
    (argsList : List (KernelArgs schema)) (backend gpuName : String) (includeOutliers : Bool) :
    Except String (List (Option (StoredRow Hash Metrics))) := do
  let stored := storedArgsColumns schema table
  let keyed := ((argsList.map (dbKey storage)).zipIdx).filter fun entry =>
    storable schema entry.1 stored
  let chunk := max 1 ((sqlVariables - 2) / (stored.length + 2))
  (chunks chunk keyed).foldlM (fun found part => do
      let values ← part.mapM fun entry => boundRow storage schema stored entry.2 entry.1
      let joined := values.flatMap fun bound =>
        (table.rows.filter (joins stored gpuName backend includeOutliers bound)).map fun row =>
          (bound.index, row)
      return joined.foldl (fun found pair => found.set pair.1 (some pair.2)) found)
    (List.replicate argsList.length none)

def answer (spec : KernelProfilerSpec) (backend gpuName : String) (args : KernelArgs schema)
    (metrics : Option Metrics) : Answer schema Metrics :=
  match metrics with
  | none => .missing { kernelKind := spec.kernelKind, backend, gpuName, args }
  | some metrics => .metrics metrics

/-- `backend or self.profiler_spec.backend`. -/
def chosenBackend (spec : KernelProfilerSpec) (backend : Option String) : String :=
  match backend with
  | none => spec.backend
  | some backend => if backend = "" then spec.backend else backend

def query [DecidableEq Hash] (storage : Storage Hash) (spec : KernelProfilerSpec)
    (db : Option (KindTable Hash Metrics)) (argsList : List (KernelArgs schema))
    (backend : Option String) (gpuName : String) (includeOutliers : Bool) :
    Except String (List (Answer schema Metrics)) :=
  let backend := chosenBackend spec backend
  match db with
  | none => .ok (argsList.map fun args => answer spec backend gpuName args none)
  | some table => do
    let rows ← matchRows storage table argsList backend gpuName includeOutliers
    return (argsList.zip rows).map fun entry =>
      answer spec backend gpuName entry.1 (entry.2.map StoredRow.metrics)

/-! ## Runs -/

/-- A call on the table. -/
inductive Call (schema : ArgsSchema) (Metrics : Type) where
  | insert (rows : List (ProfileRow schema Metrics))
  | query (argsList : List (KernelArgs schema)) (backend : Option String) (gpuName : String)

/-- The answers to the queries of a run, in order. -/
def run [DecidableEq Hash] (storage : Storage Hash) (spec : KernelProfilerSpec) :
    Option (KindTable Hash Metrics) → List (Call schema Metrics) →
      Except String (List (List (Answer schema Metrics)))
  | _, [] => .ok []
  | db, .insert rows :: calls => do
    let db ← insert storage db rows
    run storage spec db calls
  | db, .query argsList backend gpuName :: calls => do
    let answers ← query storage spec db argsList backend gpuName false
    let others ← run storage spec db calls
    return answers :: others

/-- `args_hash` of a row as it is stored: its args columns in table order, the unset ones left
    out. -/
def storedRowHash (storage : Storage Hash) (schema : ArgsSchema) (row : StoredRow Hash Metrics) :
    Except String Hash :=
  storageArgsHash storage.texts storage.digest
    ((row.args.filter fun cell => cell.2.isSome).map fun cell => (cell.1, cell.2.map Stored.read))
    (declaredTypes schema)

end table

end ProfileTable

end ServingSim
