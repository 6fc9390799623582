import ServingSim.Profiling.ArgsKey

/-
  A profile table is a map keyed by canonical args.

  What is proved:
    1. `profile_table_map` — the three together with the hash of the stored row, and the schemas
       that keep one call under one key.
-/

namespace ServingSim

namespace ProfileTable

variable {schema : ArgsSchema} {Hash Metrics : Type}

/-! ## What a table keeps -/

/-- The unique key that a row to be inserted is stored under. -/
def keyOf (storage : Storage Hash) (row : ProfileRow schema Metrics) : String × String × Hash :=
  (row.gpuName, row.backend, hashOf storage row.args)

/-- A stored row of an inserted one: its key, and its cell in every column of the table. -/
structure Fits (storage : Storage Hash) (table : KindTable Hash Metrics)
    (row : ProfileRow schema Metrics) (stored : StoredRow Hash Metrics) : Prop where
  key : stored.key = keyOf storage row
  verified : stored.isOutlier = false
  columns : ∀ column, column ∈ stored.args.map Prod.fst ↔
    column ∈ (storedArgsColumns schema table).map Field.name
  nodup : (stored.args.map Prod.fst).Nodup
  cells : ∀ field ∈ storedArgsColumns schema table,
    (field.name, cell storage row.args field) ∈ stored.args

/-- The optional columns that some args set are the table's. -/
def Covers (table : KindTable Hash Metrics) (args : KernelArgs schema) : Prop :=
  ∀ field ∈ schema.fields, (canonicalArgs args).value field ≠ none →
    field ∈ storedArgsColumns schema table

section keeps

variable [DecidableEq Hash] {storage : Storage Hash} {history : List (ProfileRow schema Metrics)}
  {table : KindTable Hash Metrics}

/-- The last row inserted under a key. -/
def lastUnder (storage : Storage Hash) (history : List (ProfileRow schema Metrics))
    (key : String × String × Hash) : Option (ProfileRow schema Metrics) :=
  history.reverse.find? fun row => keyOf storage row = key

structure Holds (storage : Storage Hash) (history : List (ProfileRow schema Metrics))
    (table : KindTable Hash Metrics) : Prop where
  fits : ∀ stored ∈ table.rows, ∃ row ∈ history, Fits storage table row stored
  covers : ∀ row ∈ history, Covers table row.args
  keys : (table.rows.map StoredRow.key).Nodup
  last : ∀ key, (table.rows.find? fun stored => stored.key = key).map StoredRow.metrics =
    (lastUnder storage history key).map ProfileRow.metrics

theorem holds_empty (storage : Storage Hash) :
    Holds storage ([] : List (ProfileRow schema Metrics)) ({} : KindTable Hash Metrics) :=
  ⟨fun _ h => absurd h List.not_mem_nil, fun _ h => absurd h List.not_mem_nil, List.nodup_nil,
    fun _ => rfl⟩

/-! ## Adding optional columns -/

omit [DecidableEq Hash] in
theorem mem_ensured_iff {columns : List String} {field : Field} :
    field ∈ storedArgsColumns schema (ensureOptionalColumns table columns) ↔
      field ∈ storedArgsColumns schema table ∨ (field ∈ schema.fields ∧ field.name ∈ columns) := by
  rw [mem_storedArgsColumns, mem_storedArgsColumns, ensureOptionalColumns, List.mem_append,
    List.mem_filter, decide_eq_true_iff]
  by_cases hin : field.name ∈ table.optionals
  · simp only [hin, or_true, and_true, not_true_eq_false, and_false, or_false]
    exact ⟨.inl, fun h => h.elim id And.left⟩
  · simp only [hin, false_or, or_false, not_false_eq_true, and_true]
    exact and_or_left

theorem Holds.ensure (h : Holds storage history table) {columns : List String}
    (hnodup : columns.Nodup) (hdeclared : ∀ column ∈ columns, ∃ field ∈ schema.fields,
      field.name = column ∧ field.sameAs.isSome) :
    Holds storage history (ensureOptionalColumns table columns) := by
  have hadded : ∀ {column : String},
      column ∈ columns.filter (fun column => column ∉ table.optionals) ↔
        column ∈ columns ∧ column ∉ table.optionals := by
    intro column
    rw [List.mem_filter, decide_eq_true_iff]
  -- A column that is added was not among the stored ones.
  have hfresh : ∀ {column : String}, column ∈ columns → column ∉ table.optionals →
      column ∉ (storedArgsColumns schema table).map Field.name := by
    intro column hcolumn hnot hmem
    obtain ⟨field, hfield, hname⟩ := List.mem_map.mp hmem
    obtain ⟨hdecl, hcases⟩ := mem_storedArgsColumns.mp hfield
    obtain ⟨other, hother, hotherName, hoptional⟩ := hdeclared column hcolumn
    have heq := eq_of_name hdecl hother (hname.trans hotherName.symm)
    rcases hcases with hrequired | hstored
    · rw [heq] at hrequired
      rw [Option.isNone_iff_eq_none.mp hrequired] at hoptional
      cases hoptional
    · exact hnot (hname ▸ hstored)
  refine ⟨?_, ?_, ?_, ?_⟩
  · intro stored hstored
    obtain ⟨old, hold, rfl⟩ := List.mem_map.mp hstored
    obtain ⟨row, hrow, hfits⟩ := h.fits old hold
    have hnames : (old.args ++ (columns.filter fun column => column ∉ table.optionals).map
        fun column => (column, (none : Option Stored))).map Prod.fst =
          old.args.map Prod.fst ++ columns.filter fun column => column ∉ table.optionals := by
      rw [List.map_append, List.map_map]
      exact congrArg _ (List.map_id _)
    refine ⟨row, hrow, hfits.key, hfits.verified, fun column => ?_, ?_, fun field hfield => ?_⟩
    · show column ∈ (old.args ++ _).map Prod.fst ↔ _
      rw [hnames, List.mem_append, hfits.columns, hadded]
      constructor
      · rintro (hold | ⟨hcolumn, _⟩)
        · obtain ⟨field, hfield, hname⟩ := List.mem_map.mp hold
          exact List.mem_map.mpr ⟨field, mem_ensured_iff.mpr (.inl hfield), hname⟩
        · obtain ⟨field, hfield, hname, _⟩ := hdeclared column hcolumn
          exact List.mem_map.mpr ⟨field, mem_ensured_iff.mpr (.inr ⟨hfield, hname ▸ hcolumn⟩),
            hname⟩
      · intro hnew
        obtain ⟨field, hfield, rfl⟩ := List.mem_map.mp hnew
        rcases mem_ensured_iff.mp hfield with hold | ⟨hdecl, hcolumn⟩
        · exact .inl (List.mem_map_of_mem hold)
        · by_cases hin : field.name ∈ table.optionals
          · exact .inl (List.mem_map_of_mem (mem_storedArgsColumns.mpr ⟨hdecl, .inr hin⟩))
          · exact .inr ⟨hcolumn, hin⟩
    · show ((old.args ++ _).map Prod.fst).Nodup
      rw [hnames]
      refine List.nodup_append.mpr ⟨hfits.nodup, hnodup.filter _, fun a ha b hb heq => ?_⟩
      subst heq
      obtain ⟨hcolumn, hnot⟩ := hadded.mp hb
      exact hfresh hcolumn hnot ((hfits.columns a).mp ha)
    · rcases mem_ensured_iff.mp hfield with hold | ⟨hdecl, hcolumn⟩
      · exact List.mem_append_left _ (hfits.cells field hold)
      · by_cases hin : field ∈ storedArgsColumns schema table
        · exact List.mem_append_left _ (hfits.cells field hin)
        · have hnot : field.name ∉ table.optionals := fun hmem =>
            hin (mem_storedArgsColumns.mpr ⟨hdecl, .inr hmem⟩)
          have hunset : (canonicalArgs row.args).value field = none := by
            by_contra hset
            exact hin (h.covers row hrow field hdecl hset)
          have hcell : cell storage row.args field = none := by
            rw [cell, hunset]
            rfl
          refine List.mem_append_right _ (List.mem_map.mpr ⟨field.name, hadded.mpr
            ⟨hcolumn, hnot⟩, ?_⟩)
          rw [hcell]
  · intro row hrow field hfield hset
    exact mem_ensured_iff.mpr (.inl (h.covers row hrow field hfield hset))
  · show ((table.rows.map _).map _).Nodup
    rw [List.map_map]
    exact h.keys
  · intro key
    rw [← h.last key]
    show ((table.rows.map _).find? _).map _ = _
    rw [List.find?_map, Option.map_map]
    rfl

/-! ## Inserting a row -/

omit [DecidableEq Hash] in
theorem rowValues_eq (storage : Storage Hash) (row : ProfileRow schema Metrics)
    (table : KindTable Hash Metrics) :
    rowValues storage row (storedArgsColumns schema table) = .ok
      { gpuName := row.gpuName, backend := row.backend
        args := (storedArgsColumns schema table).map fun field =>
          (field.name, cell storage row.args field)
        argsHash := hashOf storage row.args, metrics := row.metrics, isOutlier := false } := by
  rw [rowValues]
  simp only [tableArgsHash_dbKey, ok_bind, storedValues_dbKey]
  rfl

omit [DecidableEq Hash] in
theorem fits_rowValues {row : ProfileRow schema Metrics} {stored : StoredRow Hash Metrics}
    (h : rowValues storage row (storedArgsColumns schema table) = .ok stored) :
    Fits storage table row stored ∧ stored.metrics = row.metrics := by
  rw [rowValues_eq] at h
  obtain rfl := Except.ok.inj h
  have hnames : ((storedArgsColumns schema table).map fun field =>
      (field.name, cell storage row.args field)).map Prod.fst =
        (storedArgsColumns schema table).map Field.name := by
    rw [List.map_map]
    rfl
  refine ⟨⟨rfl, rfl, fun column => ?_, ?_, fun field hfield => List.mem_map_of_mem hfield⟩, rfl⟩
  · rw [hnames]
  · rw [hnames]
    exact nodup_storedArgsColumns schema table

theorem key_of_find {rows : List (StoredRow Hash Metrics)} {key : String × String × Hash}
    {found : StoredRow Hash Metrics}
    (h : (rows.find? fun stored => stored.key = key) = some found) : found.key = key := by
  simpa using List.find?_some h

theorem lastUnder_concat (storage : Storage Hash) (history : List (ProfileRow schema Metrics))
    (row : ProfileRow schema Metrics) (key : String × String × Hash) :
    lastUnder storage (history ++ [row]) key =
      if keyOf storage row = key then some row else lastUnder storage history key := by
  rw [lastUnder, List.reverse_append, List.reverse_singleton, List.singleton_append,
    List.find?_cons]
  by_cases h : keyOf storage row = key
  · rw [if_pos h, decide_eq_true h]
  · rw [if_neg h, decide_eq_false h]
    rfl

theorem Holds.upsert (h : Holds storage history table) {row : ProfileRow schema Metrics}
    (hcovers : Covers table row.args) {stored : StoredRow Hash Metrics}
    (hstored : rowValues storage row (storedArgsColumns schema table) = .ok stored) :
    Holds storage (history ++ [row]) { table with rows := upsert table.rows stored } := by
  obtain ⟨hfits, hmetrics⟩ := fits_rowValues hstored
  have hkey := hfits.key
  have hhistory : ∀ other ∈ history ++ [row], Covers table other.args := by
    intro other hother
    rcases List.mem_append.mp hother with hin | hin
    · exact h.covers other hin
    · exact List.mem_singleton.mp hin ▸ hcovers
  by_cases hmem : stored.key ∈ table.rows.map StoredRow.key
  · -- The key is there: its row gets the new metrics.
    have hrows : ProfileTable.upsert table.rows stored = table.rows.map fun existing =>
        if existing.key = stored.key then
          { existing with metrics := stored.metrics, isOutlier := false }
        else existing := if_pos hmem
    -- an update leaves every key where it was
    have hkeep : ∀ existing : StoredRow Hash Metrics, (if existing.key = stored.key then
        { existing with metrics := stored.metrics, isOutlier := false } else existing).key =
          existing.key := by
      intro existing
      by_cases heq : existing.key = stored.key
      · rw [if_pos heq]
        rfl
      · rw [if_neg heq]
    refine ⟨?_, hhistory, ?_, ?_⟩
    · intro updated hupdated
      rw [hrows] at hupdated
      obtain ⟨existing, hexisting, rfl⟩ := List.mem_map.mp hupdated
      obtain ⟨old, hold, hfitsOld⟩ := h.fits existing hexisting
      refine ⟨old, List.mem_append_left _ hold, ?_⟩
      by_cases heq : existing.key = stored.key
      · rw [if_pos heq]
        exact ⟨hfitsOld.key, rfl, hfitsOld.columns, hfitsOld.nodup, hfitsOld.cells⟩
      · rw [if_neg heq]
        exact ⟨hfitsOld.key, hfitsOld.verified, hfitsOld.columns, hfitsOld.nodup, hfitsOld.cells⟩
    · rw [hrows, List.map_map]
      refine (List.map_congr_left fun existing _ => hkeep existing) ▸ h.keys
    · intro key
      rw [hrows, List.find?_map, lastUnder_concat, ← hkey]
      have hfind : (table.rows.find? ((fun existing : StoredRow Hash Metrics =>
          decide (existing.key = key)) ∘ fun existing => if existing.key = stored.key then
            { existing with metrics := stored.metrics, isOutlier := false } else existing)) =
          table.rows.find? fun existing => existing.key = key :=
        List.find?_congr fun existing _ => by
          rw [Function.comp_apply, hkeep existing]
      rw [hfind]
      by_cases heq : stored.key = key
      · rw [if_pos heq, Option.map_some, ← hmetrics]
        obtain ⟨existing, hexisting, hexistingKey⟩ := List.mem_map.mp hmem
        cases hfound : table.rows.find? fun existing => existing.key = key with
        | none =>
          exact absurd (decide_eq_true (hexistingKey.trans heq))
            (List.find?_eq_none.mp hfound existing hexisting)
        | some found =>
          have hfoundKey : found.key = key := key_of_find hfound
          rw [Option.map_some, Option.map_some, if_pos (hfoundKey.trans heq.symm)]
      · rw [if_neg heq, ← h.last key, Option.map_map]
        refine Option.map_congr fun found hfound => ?_
        have hfoundKey : found.key = key := key_of_find hfound
        rw [Function.comp_apply, if_neg fun hsame => heq (hsame.symm.trans hfoundKey)]
  · have hrows : ProfileTable.upsert table.rows stored = table.rows ++ [stored] := if_neg hmem
    refine ⟨?_, hhistory, ?_, ?_⟩
    · intro updated hupdated
      rw [hrows] at hupdated
      rcases List.mem_append.mp hupdated with hin | hin
      · obtain ⟨old, hold, hfitsOld⟩ := h.fits updated hin
        exact ⟨old, List.mem_append_left _ hold, hfitsOld.key, hfitsOld.verified,
          hfitsOld.columns, hfitsOld.nodup, hfitsOld.cells⟩
      · obtain rfl := List.mem_singleton.mp hin
        exact ⟨row, List.mem_append_right _ (List.mem_singleton_self _), hfits.key,
          hfits.verified, hfits.columns, hfits.nodup, hfits.cells⟩
    · rw [hrows, List.map_append]
      refine List.nodup_append.mpr ⟨h.keys, List.nodup_singleton _, fun a ha b hb heq => ?_⟩
      rw [List.mem_singleton.mp hb] at heq
      exact hmem (heq ▸ ha)
    · intro key
      rw [hrows, List.find?_append, lastUnder_concat, ← hkey]
      by_cases heq : stored.key = key
      -- the key is new, so the appended row is the only one under it
      · have hnone : table.rows.find? (fun existing => existing.key = key) = none :=
          List.find?_eq_none.mpr fun existing hexisting hfound =>
            hmem (heq ▸ of_decide_eq_true hfound ▸ List.mem_map_of_mem hexisting)
        rw [hnone, if_pos heq, Option.none_or, List.find?_cons, decide_eq_true heq,
          Option.map_some, Option.map_some, hmetrics]
      · rw [if_neg heq, ← h.last key, List.find?_cons, decide_eq_false heq, List.find?_nil,
          Option.or_none]

/-! ## Inserting a batch -/

theorem setOptional_nodup (rows : List (ProfileRow schema Metrics)) : (setOptional rows).Nodup :=
  schema.names.sublist (List.filter_sublist.map Field.name)

omit [DecidableEq Hash] in
/-- The columns a batch is inserted under cover every row of it. -/
theorem covers_ensured {rows : List (ProfileRow schema Metrics)}
    {row : ProfileRow schema Metrics} (hrow : row ∈ rows) :
    Covers (ensureOptionalColumns table (setOptional rows)) row.args := by
  intro field hfield hset
  refine mem_ensured_iff.mpr ?_
  cases hsame : field.sameAs with
  | none =>
    exact .inl (mem_storedArgsColumns.mpr ⟨hfield, .inl (by rw [hsame]; rfl)⟩)
  | some name =>
    refine .inr ⟨hfield, List.mem_map_of_mem (List.mem_filter.mpr ⟨hfield, ?_⟩)⟩
    rw [hsame, Option.isSome_some, Bool.true_and, List.any_eq_true]
    exact ⟨row, hrow, Option.isSome_iff_ne_none.mpr hset⟩

theorem insert_spec {db : Option (KindTable Hash Metrics)}
    (h : Holds storage history (db.getD {})) (rows : List (ProfileRow schema Metrics)) :
    ∃ next, insert storage db rows = .ok next ∧ Holds storage (history ++ rows) (next.getD {}) := by
  by_cases hempty : rows = []
  · subst hempty
    exact ⟨db, rfl, (List.append_nil history).symm ▸ h⟩
  · have hensured := h.ensure (setOptional_nodup rows) fun column hcolumn => by
      obtain ⟨field, hfield, hname⟩ := List.mem_map.mp hcolumn
      obtain ⟨hdecl, hset⟩ := List.mem_filter.mp hfield
      exact ⟨field, hdecl, hname, (Bool.and_eq_true_iff.mp hset).1⟩
    set table := ensureOptionalColumns (db.getD {}) (setOptional rows) with htable
    -- The rows of the batch go in one by one.
    have hbatch : ∀ (batch : List (ProfileRow schema Metrics)),
        (∀ row ∈ batch, row ∈ rows) → ∀ {done : List (ProfileRow schema Metrics)}
          {stored : List (StoredRow Hash Metrics)},
        Holds storage done { table with rows := stored } →
        ∃ values, batch.mapM (fun row => rowValues storage row (storedArgsColumns schema table)) =
            .ok values ∧
          Holds storage (done ++ batch)
            { table with rows := values.foldl ProfileTable.upsert stored } := by
      intro batch
      induction batch with
      | nil =>
        intro _ done stored hdone
        exact ⟨[], rfl, (List.append_nil done).symm ▸ hdone⟩
      | cons row batch ih =>
        intro hmem done stored hdone
        have hvalue := rowValues_eq storage row table
        have hstep := hdone.upsert (covers_ensured (hmem row List.mem_cons_self)) hvalue
        obtain ⟨values, hvalues, hholds⟩ :=
          ih (fun other hother => hmem other (List.mem_cons_of_mem _ hother)) hstep
        refine ⟨_ :: values, ?_, List.append_cons done row batch ▸ hholds⟩
        rw [List.mapM_cons, hvalue, hvalues]
        rfl
    obtain ⟨values, hvalues, hholds⟩ := hbatch rows (fun _ h => h) hensured
    refine ⟨some { table with rows := values.foldl ProfileTable.upsert table.rows }, ?_, hholds⟩
    rw [insert, if_neg hempty]
    simp only [← htable, hvalues]
    rfl

/-! ## Finding a row -/

omit [DecidableEq Hash] in
theorem boundRow_eq (storage : Storage Hash) (table : KindTable Hash Metrics) (index : Nat)
    (args : KernelArgs schema) :
    boundRow storage schema (storedArgsColumns schema table) index (dbKey storage args) = .ok
      { index, argsHash := hashOf storage args
        args := (storedArgsColumns schema table).map fun field =>
          (field.name, cell storage args field) } := by
  rw [boundRow]
  simp only [tableArgsHash_dbKey, ok_bind, storedValues_dbKey]
  rfl

theorem Holds.sameCanonical (h : Holds storage history table)
    (hdigest : Function.Injective storage.digest) {stored : StoredRow Hash Metrics}
    (hstored : stored ∈ table.rows) {args : KernelArgs schema}
    (hhash : stored.argsHash = hashOf storage args) :
    ∃ row ∈ history, Fits storage table row stored ∧ SameCanonical row.args args := by
  obtain ⟨row, hrow, hfits⟩ := h.fits stored hstored
  have hkey : stored.argsHash = hashOf storage row.args :=
    congrArg (fun key : String × String × Hash => key.2.2) hfits.key
  exact ⟨row, hrow, hfits, (hashOf_eq_iff hdigest).mp (hkey.symm.trans hhash)⟩

theorem Holds.joins_iff (h : Holds storage history table)
    (hdigest : Function.Injective storage.digest) {stored : StoredRow Hash Metrics}
    (hstored : stored ∈ table.rows) (args : KernelArgs schema) (index : Nat)
    (gpuName backend : String) (outliers : Bool) :
    joins (storedArgsColumns schema table) gpuName backend outliers
        { index, argsHash := hashOf storage args
          args := (storedArgsColumns schema table).map fun field =>
            (field.name, cell storage args field) } stored = true ↔
      stored.key = (gpuName, backend, hashOf storage args) := by
  constructor
  · intro hjoins
    simp only [joins, Bool.and_eq_true, decide_eq_true_iff] at hjoins
    obtain ⟨⟨⟨⟨hgpu, hbackend⟩, hhash⟩, _⟩, _⟩ := hjoins
    rw [StoredRow.key, hgpu, hbackend, hhash]
  · intro hkey
    obtain ⟨hgpu, hrest⟩ := Prod.mk.inj hkey
    obtain ⟨hbackend, hhash⟩ := Prod.mk.inj hrest
    obtain ⟨row, _, hfits, hsame⟩ := h.sameCanonical hdigest hstored hhash
    simp only [joins, Bool.and_eq_true, decide_eq_true_iff]
    refine ⟨⟨⟨⟨hgpu, hbackend⟩, hhash⟩, List.all_eq_true.mpr fun field hfield => ?_⟩, ?_⟩
    · have hdecl := (mem_storedArgsColumns.mp hfield).1
      have hlookup := Dictionary.lookup_of_mem hfits.nodup (hfits.cells field hfield)
      have hleft : cellOf stored.args field.name = cell storage args field := by
        rw [cellOf, hlookup]
        exact cell_eq_iff.mpr (hsame field hdecl)
      rw [hleft, cellOf_columns (nodup_storedArgsColumns schema table) _ hfield, cellMatches]
      cases hoptional : field.sameAs with
      | some name => simp
      | none =>
        have hset := (canonicalArgs args).required field hdecl hoptional
        have hcell : (cell storage args field).isSome = true := by
          rw [cell, Option.isSome_map]
          exact hset
        simp [hcell]
    · rw [hfits.verified, Bool.not_false, Bool.or_true]

/-- The row of some args, by its key. -/
def rowUnder (table : KindTable Hash Metrics) (key : String × String × Hash) :
    Option (StoredRow Hash Metrics) :=
  table.rows.find? fun stored => stored.key = key

theorem filter_key (hkeys : (table.rows.map StoredRow.key).Nodup)
    (key : String × String × Hash) :
    (table.rows.filter fun stored => stored.key = key) = (rowUnder table key).toList := by
  rw [rowUnder]
  revert hkeys
  induction table.rows with
  | nil => intro _; rfl
  | cons stored rows ih =>
    intro hkeys
    obtain ⟨hfirst, hrest⟩ := List.nodup_cons.mp hkeys
    by_cases hkey : stored.key = key
    · have hnone : (rows.filter fun other => other.key = key) = [] :=
        List.filter_eq_nil_iff.mpr fun other hother heq =>
          hfirst (hkey ▸ of_decide_eq_true heq ▸ List.mem_map_of_mem hother)
      rw [List.filter_cons_of_pos (by simpa using hkey), hnone, List.find?_cons_of_pos
        (by simpa using hkey)]
      rfl
    · rw [List.filter_cons_of_neg (by simpa using hkey), ih hrest, List.find?_cons_of_neg
        (by simpa using hkey)]

theorem Holds.filter_joins (h : Holds storage history table)
    (hdigest : Function.Injective storage.digest) (args : KernelArgs schema) (index : Nat)
    (gpuName backend : String) (outliers : Bool) :
    table.rows.filter (joins (storedArgsColumns schema table) gpuName backend outliers
        { index, argsHash := hashOf storage args
          args := (storedArgsColumns schema table).map fun field =>
            (field.name, cell storage args field) }) =
      (rowUnder table (gpuName, backend, hashOf storage args)).toList := by
  rw [← filter_key h.keys]
  refine List.filter_congr fun stored hstored => ?_
  rw [Bool.eq_iff_iff, h.joins_iff hdigest hstored, decide_eq_true_iff]

theorem Holds.rowUnder_unstorable (h : Holds storage history table)
    (hdigest : Function.Injective storage.digest) {args : KernelArgs schema}
    (hnot : ¬storable schema (dbKey storage args) (storedArgsColumns schema table) = true)
    (gpuName backend : String) :
    rowUnder table (gpuName, backend, hashOf storage args) = none := by
  refine List.find?_eq_none.mpr fun stored hstored hkey => hnot ?_
  have hhash : stored.argsHash = hashOf storage args :=
    congrArg (fun key : String × String × Hash => key.2.2) (of_decide_eq_true hkey)
  obtain ⟨row, hrow, _, hsame⟩ := h.sameCanonical hdigest hstored hhash
  refine storable_dbKey_iff.mpr fun field hfield hset => ?_
  exact h.covers row hrow field hfield (hsame field hfield ▸ hset)

/-! ## Chunks -/

theorem flatten_chunks {α : Type} {size : Nat} (hsize : 0 < size) (l : List α) :
    (chunks size l).flatten = l := by
  have htake : ∀ n, ((List.range n).map fun part =>
      (l.drop (part * size)).take size).flatten = l.take (n * size) := by
    intro n
    induction n with
    | zero => rw [Nat.zero_mul, List.take_zero]; rfl
    | succ n ih =>
      rw [List.range_succ, List.map_append, List.flatten_append, ih, Nat.succ_mul, List.take_add,
        List.map_singleton, List.flatten_singleton]
  rw [chunks, htake]
  refine List.take_of_length_le ?_
  have hdiv := Nat.div_add_mod (l.length + size - 1) size
  have hmod := Nat.mod_lt (l.length + size - 1) hsize
  rw [Nat.mul_comm] at hdiv
  omega

theorem chunks_map {α β : Type} (f : α → β) (size : Nat) (l : List α) :
    chunks size (l.map f) = (chunks size l).map (List.map f) := by
  rw [chunks, chunks, List.length_map, List.map_map]
  exact List.map_congr_left fun part _ => by
    rw [Function.comp_apply, List.map_take, List.map_drop]

/-! ## Positions -/

section positions

variable {X : Type}

/-- The rows found so far, each at its position. -/
def place (found : List (Option X)) (pairs : List (Nat × X)) : List (Option X) :=
  pairs.foldl (fun found pair => found.set pair.1 (some pair.2)) found

theorem length_place (pairs : List (Nat × X)) (found : List (Option X)) :
    (place found pairs).length = found.length := by
  induction pairs generalizing found with
  | nil => rfl
  | cons pair pairs ih =>
    show (place (found.set pair.1 (some pair.2)) pairs).length = _
    rw [ih, List.length_set]

theorem place_of_not_mem {pairs : List (Nat × X)} {index : Nat}
    (h : index ∉ pairs.map Prod.fst) (found : List (Option X)) :
    (place found pairs)[index]? = found[index]? := by
  induction pairs generalizing found with
  | nil => rfl
  | cons pair pairs ih =>
    rw [List.map_cons, List.mem_cons, not_or] at h
    show (place (found.set pair.1 (some pair.2)) pairs)[index]? = _
    rw [ih h.2, List.getElem?_set_ne (Ne.symm h.1)]

theorem place_of_mem {pairs : List (Nat × X)} (hnodup : (pairs.map Prod.fst).Nodup)
    {pair : Nat × X} (hmem : pair ∈ pairs) {found : List (Option X)}
    (hlt : pair.1 < found.length) : (place found pairs)[pair.1]? = some (some pair.2) := by
  induction pairs generalizing found with
  | nil => cases hmem
  | cons first pairs ih =>
    obtain ⟨hfirst, hrest⟩ := List.nodup_cons.mp hnodup
    show (place (found.set first.1 (some first.2)) pairs)[pair.1]? = _
    rcases List.mem_cons.mp hmem with rfl | hin
    · rw [place_of_not_mem hfirst, List.getElem?_set_self hlt]
    · exact ih hrest hin (by rw [List.length_set]; exact hlt)

end positions

/-! ## Querying -/

/-- The row that an entry of the lookup finds, at its position. -/
def pairsOf (storage : Storage Hash) (table : KindTable Hash Metrics) (gpuName backend : String)
    (entry : KernelArgs schema × Nat) : List (Nat × StoredRow Hash Metrics) :=
  (rowUnder table (gpuName, backend, hashOf storage entry.1)).toList.map fun row => (entry.2, row)

theorem sublist_pairsOf (gpuName backend : String) (entries : List (KernelArgs schema × Nat)) :
    ((entries.flatMap (pairsOf storage table gpuName backend)).map Prod.fst).Sublist
      (entries.map Prod.snd) := by
  induction entries with
  | nil => exact .slnil
  | cons entry entries ih =>
    rw [List.flatMap_cons, List.map_append, List.map_cons, pairsOf]
    cases rowUnder table (gpuName, backend, hashOf storage entry.1) with
    | none => exact ih.cons _
    | some row => exact ih.cons_cons _

theorem place_pairs (h : Holds storage history table)
    (hdigest : Function.Injective storage.digest) (argsList : List (KernelArgs schema))
    (gpuName backend : String) :
    place (List.replicate argsList.length none)
        ((argsList.zipIdx.filter fun entry =>
          storable schema (dbKey storage entry.1) (storedArgsColumns schema table)).flatMap
            (pairsOf storage table gpuName backend)) =
      argsList.map fun args => rowUnder table (gpuName, backend, hashOf storage args) := by
  set entries := argsList.zipIdx.filter fun entry =>
    storable schema (dbKey storage entry.1) (storedArgsColumns schema table) with hentries
  have hnodup : ((entries.flatMap (pairsOf storage table gpuName backend)).map
      Prod.fst).Nodup := by
    refine List.Nodup.sublist (sublist_pairsOf gpuName backend entries) ?_
    refine List.Nodup.sublist (List.filter_sublist.map Prod.snd) ?_
    rw [List.zipIdx_map_snd]
    exact List.nodup_range' 1
  refine List.ext_getElem? fun index => ?_
  by_cases hlt : index < argsList.length
  · have hget : argsList[index]? = some argsList[index] := List.getElem?_eq_getElem hlt
    rw [List.getElem?_map, hget, Option.map_some]
    cases hrow : rowUnder table (gpuName, backend, hashOf storage argsList[index]) with
    | some row =>
      have hstorable : storable schema (dbKey storage argsList[index])
          (storedArgsColumns schema table) = true := by
        by_contra hnot
        rw [h.rowUnder_unstorable hdigest hnot] at hrow
        cases hrow
      have hentry : (argsList[index], index) ∈ entries := List.mem_filter.mpr
        ⟨List.mem_zipIdx_iff_getElem?.mpr hget, hstorable⟩
      have hpair : (index, row) ∈ entries.flatMap (pairsOf storage table gpuName backend) := by
        refine List.mem_flatMap.mpr ⟨_, hentry, ?_⟩
        rw [pairsOf, hrow]
        exact List.mem_singleton_self _
      exact place_of_mem hnodup hpair (by rw [List.length_replicate]; exact hlt)
    | none =>
      rw [place_of_not_mem, List.getElem?_replicate, if_pos hlt]
      intro hmem
      obtain ⟨pair, hpair, hindex⟩ := List.mem_map.mp hmem
      obtain ⟨entry, hentry, hin⟩ := List.mem_flatMap.mp hpair
      obtain ⟨row, hfound, rfl⟩ := List.mem_map.mp hin
      have hargs : argsList[entry.2]? = some entry.1 :=
        List.mem_zipIdx_iff_getElem?.mp (List.mem_filter.mp hentry).1
      have hsame : entry.1 = argsList[index] :=
        Option.some.inj (hargs.symm.trans (congrArg (argsList[·]?) hindex |>.trans hget))
      rw [hsame, hrow] at hfound
      cases hfound
  · rw [List.getElem?_eq_none (by rw [length_place, List.length_replicate]; omega),
      List.getElem?_eq_none (by rw [List.length_map]; omega)]

theorem matchRows_spec (h : Holds storage history table)
    (hdigest : Function.Injective storage.digest) (argsList : List (KernelArgs schema))
    (backend gpuName : String) (outliers : Bool) :
    matchRows storage table argsList backend gpuName outliers = .ok
      (argsList.map fun args => rowUnder table (gpuName, backend, hashOf storage args)) := by
  let columns := storedArgsColumns schema table
  let entries := argsList.zipIdx.filter fun entry =>
    storable schema (dbKey storage entry.1) columns
  have hkeyed : ((argsList.map (dbKey storage)).zipIdx).filter
      (fun entry => storable schema entry.1 columns) =
        entries.map fun entry => (dbKey storage entry.1, entry.2) := by
    rw [List.zipIdx_map, List.filter_map]
    rfl
  set chunk := max 1 ((sqlVariables - 2) / (columns.length + 2)) with hchunk
  have hsize : 0 < chunk := Nat.lt_of_lt_of_le Nat.one_pos (Nat.le_max_left _ _)
  -- One statement places the rows of its own part.
  have hpart : ∀ (part : List (KernelArgs schema × Nat))
      (found : List (Option (StoredRow Hash Metrics))), (do
        let values ← (part.map fun entry => (dbKey storage entry.1, entry.2)).mapM fun entry =>
          boundRow storage schema columns entry.2 entry.1
        let joined := values.flatMap fun bound =>
          (table.rows.filter (joins columns gpuName backend outliers bound)).map fun row =>
            (bound.index, row)
        return joined.foldl (fun found pair => found.set pair.1 (some pair.2)) found :
          Except String (List (Option (StoredRow Hash Metrics)))) =
      .ok (place found (part.flatMap (pairsOf storage table gpuName backend))) := by
    intro part found
    have hvalues : ((part.map fun entry => (dbKey storage entry.1, entry.2)).mapM fun entry =>
        boundRow storage schema columns entry.2 entry.1) = .ok (part.map fun entry =>
          ({ index := entry.2, argsHash := hashOf storage entry.1
             args := columns.map fun field =>
              (field.name, cell storage entry.1 field) } : BoundRow Hash)) := by
      induction part with
      | nil => rfl
      | cons entry part ih =>
        rw [List.map_cons, List.mapM_cons, boundRow_eq, ih]
        rfl
    have hpairs : (fun entry : KernelArgs schema × Nat =>
        (table.rows.filter (joins columns gpuName backend outliers
          { index := entry.2, argsHash := hashOf storage entry.1
            args := columns.map fun field =>
              (field.name, cell storage entry.1 field) })).map fun row => (entry.2, row)) =
        pairsOf storage table gpuName backend := funext fun entry =>
      congrArg (List.map fun row => (entry.2, row))
        (h.filter_joins hdigest entry.1 entry.2 gpuName backend outliers)
    rw [hvalues]
    simp only [ok_bind, List.flatMap_map]
    rw [hpairs]
    rfl
  have hparts : ∀ (parts : List (List (KernelArgs schema × Nat)))
      (found : List (Option (StoredRow Hash Metrics))),
      ((parts.map (List.map fun entry => (dbKey storage entry.1, entry.2))).foldlM
        (fun found part => do
          let values ← part.mapM fun entry => boundRow storage schema columns entry.2 entry.1
          let joined := values.flatMap fun bound =>
            (table.rows.filter (joins columns gpuName backend outliers bound)).map fun row =>
              (bound.index, row)
          return joined.foldl (fun found pair => found.set pair.1 (some pair.2)) found) found :
        Except String (List (Option (StoredRow Hash Metrics)))) =
      .ok (place found (parts.flatten.flatMap (pairsOf storage table gpuName backend))) := by
    intro parts
    induction parts with
    | nil => intro found; rfl
    | cons part parts ih =>
      intro found
      rw [List.map_cons, List.foldlM_cons, hpart, ok_bind, ih, List.flatten_cons,
        List.flatMap_append, place, place, place, List.foldl_append]
  rw [matchRows]
  simp only
  rw [hkeyed, chunks_map, hparts, flatten_chunks hsize, place_pairs h hdigest]

/-- The last row inserted under a GPU, a backend and some canonical args. -/
def lastRow (history : List (ProfileRow schema Metrics)) (gpuName backend : String)
    (args : KernelArgs schema) : Option (ProfileRow schema Metrics) :=
  history.reverse.find? fun row =>
    row.gpuName = gpuName ∧ row.backend = backend ∧ SameCanonical row.args args

theorem lastUnder_eq (hdigest : Function.Injective storage.digest)
    (history : List (ProfileRow schema Metrics)) (gpuName backend : String)
    (args : KernelArgs schema) :
    lastUnder storage history (gpuName, backend, hashOf storage args) =
      lastRow history gpuName backend args := by
  refine List.find?_congr fun row _ => ?_
  rw [Bool.eq_iff_iff, decide_eq_true_iff, decide_eq_true_iff, keyOf, Prod.mk.injEq,
    Prod.mk.injEq, hashOf_eq_iff hdigest]

theorem Holds.found (h : Holds storage history table)
    (hdigest : Function.Injective storage.digest) (gpuName backend : String)
    (args : KernelArgs schema) :
    (rowUnder table (gpuName, backend, hashOf storage args)).map StoredRow.metrics =
      (lastRow history gpuName backend args).map ProfileRow.metrics := by
  rw [rowUnder, h.last, lastUnder_eq hdigest]

/-- What a query should answer. -/
def expectedAnswers (spec : KernelProfilerSpec) (history : List (ProfileRow schema Metrics))
    (argsList : List (KernelArgs schema)) (backend : Option String) (gpuName : String) :
    List (Answer schema Metrics) :=
  argsList.map fun args => answer spec (chosenBackend spec backend) gpuName args
    ((lastRow history gpuName (chosenBackend spec backend) args).map ProfileRow.metrics)

theorem query_spec {db : Option (KindTable Hash Metrics)} (h : Holds storage history (db.getD {}))
    (hdigest : Function.Injective storage.digest) (spec : KernelProfilerSpec)
    (argsList : List (KernelArgs schema)) (backend : Option String) (gpuName : String)
    (outliers : Bool) :
    query storage spec db argsList backend gpuName outliers =
      .ok (expectedAnswers spec history argsList backend gpuName) := by
  cases db with
  | none =>
    exact congrArg Except.ok (List.map_congr_left fun args _ =>
      congrArg (answer spec (chosenBackend spec backend) gpuName args)
        (h.found hdigest gpuName (chosenBackend spec backend) args))
  | some table =>
    have hrows := matchRows_spec h hdigest argsList (chosenBackend spec backend) gpuName outliers
    have hzip := @List.zip_map' _ _ _ id (fun args : KernelArgs schema =>
      rowUnder table (gpuName, chosenBackend spec backend, hashOf storage args)) argsList
    rw [List.map_id] at hzip
    rw [query]
    simp only [Option.getD_some] at hrows
    simp only [hrows, ok_bind, hzip, List.map_map]
    exact congrArg Except.ok (List.map_congr_left fun args _ =>
      congrArg (answer spec (chosenBackend spec backend) gpuName args)
        (h.found hdigest gpuName (chosenBackend spec backend) args))

/-! ## The hash of a stored row -/

theorem Holds.storedRowHash (h : Holds storage history table) {stored : StoredRow Hash Metrics}
    (hstored : stored ∈ table.rows) : ∃ row ∈ history, stored.key = keyOf storage row ∧
      tableArgsHash storage schema (dbKey storage row.args) = .ok stored.argsHash ∧
      storedRowHash storage schema stored = .ok stored.argsHash := by
  obtain ⟨row, hrow, hfits⟩ := h.fits stored hstored
  have hhash : stored.argsHash = hashOf storage row.args :=
    congrArg (fun key : String × String × Hash => key.2.2) hfits.key
  refine ⟨row, hrow, hfits.key, hhash ▸ tableArgsHash_dbKey storage row.args, ?_⟩
  have hmem : ∀ {name : String} {value : Stored}, (name, some value) ∈ stored.args ↔
      ∃ field ∈ schema.fields, field.name = name ∧ cell storage row.args field = some value := by
    intro name value
    constructor
    · intro hin
      obtain ⟨field, hfield, hname⟩ := List.mem_map.mp
        ((hfits.columns name).mp (List.mem_map_of_mem hin))
      refine ⟨field, (mem_storedArgsColumns.mp hfield).1, hname, ?_⟩
      have hcell := hfits.cells field hfield
      have heq := List.inj_on_of_nodup_map hfits.nodup hcell hin hname
      exact (Prod.mk.inj heq).2
    · rintro ⟨field, hfield, rfl, hcell⟩
      have hset : (canonicalArgs row.args).value field ≠ none := by
        intro hnone
        rw [cell, hnone] at hcell
        cases hcell
      exact hcell ▸ hfits.cells field (h.covers row hrow field hfield hset)
  -- What is read back is stored as it was.
  have hread : ∀ cells : List (String × Option Stored), (∀ entry ∈ cells, entry ∈ stored.args) →
      ((((cells.filter fun entry => entry.2.isSome).map fun entry =>
          (entry.1, entry.2.map Stored.read)).mapM fun entry => do
        let value ← storedValue storage.texts entry.2 (declaredTypes schema entry.1)
        return (entry.1, value)) : Except String (List (String × Stored))) =
      .ok (cells.filterMap fun entry => entry.2.map fun value => (entry.1, value)) := by
    intro cells
    induction cells with
    | nil => intro _; rfl
    | cons entry cells ih =>
      intro hcells
      have hrest := ih fun other hother => hcells other (List.mem_cons_of_mem _ hother)
      obtain ⟨name, value⟩ := entry
      cases value with
      | none =>
        rw [List.filter_cons_of_neg (by simp), List.filterMap_cons_none rfl]
        exact hrest
      | some value =>
        obtain ⟨field, hfield, rfl, hcell⟩ := hmem.mp (hcells _ List.mem_cons_self)
        have hvalue : storedValue storage.texts (some value.read)
            (declaredTypes schema field.name) = .ok value := by
          obtain ⟨x, _, rfl⟩ := Option.map_eq_some_iff.mp hcell
          rw [declaredTypes_of_mem hfield, storedValue, Option.bind_some,
            affinity_read storage.texts]
        rw [List.filter_cons_of_pos (by simp), List.map_cons, List.mapM_cons]
        simp only [Option.map_some, hvalue]
        rw [hrest]
        rfl
  have hkeys : ((stored.args.filterMap fun entry =>
      entry.2.map fun value => (entry.1, value)).map Prod.fst).Nodup := by
    refine List.Nodup.sublist ?_ hfits.nodup
    generalize stored.args = cells
    induction cells with
    | nil => exact .slnil
    | cons entry cells ih =>
      obtain ⟨name, value⟩ := entry
      cases value with
      | none => exact ih.cons _
      | some value => exact ih.cons_cons _
  have hperm : (stored.args.filterMap fun entry =>
      entry.2.map fun value => (entry.1, value)).Perm (hashedArgs storage row.args) := by
    refine (List.perm_ext_iff_of_nodup (List.Nodup.of_map _ hkeys)
      (List.Nodup.of_map _ (nodup_hashedArgs storage row.args))).mpr fun entry => ?_
    obtain ⟨name, value⟩ := entry
    rw [mem_hashedArgs_iff, ← hmem, List.mem_filterMap]
    constructor
    · rintro ⟨⟨other, value'⟩, hin, heq⟩
      obtain ⟨stored', hstored', heq'⟩ := Option.map_eq_some_iff.mp heq
      obtain ⟨rfl, rfl⟩ := Prod.mk.inj heq'
      exact hstored' ▸ hin
    · intro hin
      exact ⟨_, hin, rfl⟩
  rw [ProfileTable.storedRowHash, storageArgsHash]
  simp only [hread stored.args fun _ h => h, ok_bind, hhash, hashOf, sort_eq_of_perm hperm hkeys]
  rfl

end keeps

end ProfileTable

end ServingSim
