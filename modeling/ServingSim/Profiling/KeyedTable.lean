import Mathlib.Logic.Encodable.Basic
import Mathlib.Data.Rat.Encodable
import ServingSim.Profiling.TableMap

/-
  A profile table over a whole run of inserts and queries.

  What is proved:
    1. `profile_table_map` — the table is a map keyed by canonical args, each row is stored under
       the hash of what is stored, and one call has one key, exactly in the schemas that do not
       chain their `same_as` fields.
    2. `chained_args_split` — a schema that chains them, and one call under two keys.
-/

namespace ServingSim

namespace ProfileTable

/-! ## Runs -/

section runs

variable {schema : ArgsSchema} {Hash Metrics : Type} [DecidableEq Hash]

/-- The rows that a run inserts, in order. -/
def inserted : List (Call schema Metrics) → List (ProfileRow schema Metrics)
  | [] => []
  | .insert rows :: calls => rows ++ inserted calls
  | .query _ _ _ :: calls => inserted calls

/-- What the queries of a run should answer after `history` was inserted. -/
def expectedRun (spec : KernelProfilerSpec) : List (ProfileRow schema Metrics) →
    List (Call schema Metrics) → List (List (Answer schema Metrics))
  | _, [] => []
  | history, .insert rows :: calls => expectedRun spec (history ++ rows) calls
  | history, .query argsList backend gpuName :: calls =>
    expectedAnswers spec history argsList backend gpuName :: expectedRun spec history calls

/-- The database after a run. -/
def after (storage : Storage Hash) : Option (KindTable Hash Metrics) →
    List (Call schema Metrics) → Except String (Option (KindTable Hash Metrics))
  | db, [] => .ok db
  | db, .insert rows :: calls => do
    let db ← insert storage db rows
    after storage db calls
  | db, .query _ _ _ :: calls => after storage db calls

variable {storage : Storage Hash}

theorem run_spec (hdigest : Function.Injective storage.digest) (spec : KernelProfilerSpec)
    (calls : List (Call schema Metrics)) {history : List (ProfileRow schema Metrics)}
    {db : Option (KindTable Hash Metrics)} (h : Holds storage history (db.getD {})) :
    run storage spec db calls = .ok (expectedRun spec history calls) := by
  induction calls generalizing history db with
  | nil => rfl
  | cons call calls ih =>
    cases call with
    | insert rows =>
      obtain ⟨next, hnext, hholds⟩ := insert_spec h rows
      rw [run, hnext, ok_bind, ih hholds, expectedRun]
    | query argsList backend gpuName =>
      rw [run, query_spec h hdigest, ok_bind, ih h, ok_bind, expectedRun]
      rfl

theorem after_spec (calls : List (Call schema Metrics))
    {history : List (ProfileRow schema Metrics)} {db : Option (KindTable Hash Metrics)}
    (h : Holds storage history (db.getD {})) : ∃ final, after storage db calls = .ok final ∧
      Holds storage (history ++ inserted calls) (final.getD {}) := by
  induction calls generalizing history db with
  | nil => exact ⟨db, rfl, (List.append_nil history).symm ▸ h⟩
  | cons call calls ih =>
    cases call with
    | insert rows =>
      obtain ⟨next, hnext, hholds⟩ := insert_spec h rows
      obtain ⟨final, hfinal, hlast⟩ := ih hholds
      refine ⟨final, ?_, ?_⟩
      · rw [after, hnext, ok_bind, hfinal]
      · rw [inserted, ← List.append_assoc]
        exact hlast
    | query argsList backend gpuName => exact ih h

/-- A table over a schema is a map keyed by canonical args: its queries answer what was last
    inserted under them, a stored row is under the hash that the args and the row itself give,
    and one call has one key. -/
structure KeyedMap (storage : Storage Hash) (schema : ArgsSchema) (Metrics : Type) : Prop where
  answers : ∀ (spec : KernelProfilerSpec) (calls : List (Call schema Metrics)),
    run storage spec none calls = .ok (expectedRun spec [] calls)
  hashes : ∀ calls : List (Call schema Metrics), ∃ final,
    after storage none calls = .ok final ∧ ∀ table, final = some table →
      ∀ stored ∈ table.rows, ∃ row ∈ inserted calls,
        row.gpuName = stored.gpuName ∧ row.backend = stored.backend ∧
        tableArgsHash storage schema (dbKey storage row.args) = .ok stored.argsHash ∧
        storedRowHash storage schema stored = .ok stored.argsHash
  keys : KeyLaw storage schema

/-- A profile table is a map keyed by canonical args under which one call has one key exactly
    when no `same_as` field of its schema is an optional field that can itself be spelled equal
    to its own. -/
theorem profile_table_map (storage : Storage Hash)
    (hdigest : Function.Injective storage.digest) :
    KeyedMap storage schema Metrics ↔ Unchained schema := by
  have hempty : Holds storage ([] : List (ProfileRow schema Metrics))
      ((none : Option (KindTable Hash Metrics)).getD {}) := holds_empty storage
  constructor
  · exact fun h => keyLaw_iff.mp h.keys
  · intro h
    refine ⟨fun spec calls => run_spec hdigest spec calls hempty, fun calls => ?_, keyLaw_iff.mpr h⟩
    obtain ⟨final, hfinal, hholds⟩ := after_spec calls hempty
    refine ⟨final, hfinal, fun table htable stored hstored => ?_⟩
    subst htable
    obtain ⟨row, hrow, hkey, hargs, hself⟩ := hholds.storedRowHash hstored
    obtain ⟨hgpu, hrest⟩ := Prod.mk.inj hkey
    exact ⟨row, hrow, hgpu.symm, (Prod.mk.inj hrest).1.symm, hargs, hself⟩

end runs

/-! ## A schema of the repository -/

theorem delimits_code : JsonText.Delimits fun s : String =>
    JsonText.listText (fun c : Char => JsonText.intText c.toNat) s.toList :=
  (JsonText.delimits_list (JsonText.delimits_int.comp fun _ _ h =>
    Char.toNat_inj.mp (Int.ofNat.inj h))).comp fun _ _ => String.toList_injective

theorem delimits_rational : JsonText.Delimits fun q : ℚ =>
    JsonText.intText (Encodable.encode q : Nat) :=
  JsonText.delimits_int.comp fun _ _ h => Encodable.encode_injective (Int.ofNat.inj h)

def sampleTexts : ScalarTexts := ⟨_, _, delimits_code, delimits_rational⟩

def sampleStorage : Storage (List (String × Stored)) := ⟨sampleTexts, id⟩

def kvCacheAppendFields : List Field :=
  [⟨"num_kv_heads", .int, none⟩, ⟨"head_dim", .int, none⟩, ⟨"block_size", .int, none⟩,
    ⟨"input_dtype", .dtype, none⟩, ⟨"kv_dtype", .dtype, none⟩, ⟨"cache_layout", .str, none⟩,
    ⟨"scale_granularity", .str, none⟩, ⟨"num_tokens", .int, none⟩,
    ⟨"head_dim_v", .int, some "head_dim"⟩]

theorem kvCacheAppend_names : (kvCacheAppendFields.map Field.name).Nodup := by decide

theorem kvCacheAppend_declared : ∀ field ∈ kvCacheAppendFields, ∀ name ∈ field.sameAs,
    name ∈ kvCacheAppendFields.map Field.name := by decide

def kvCacheAppendArgs : ArgsSchema :=
  ⟨kvCacheAppendFields, kvCacheAppend_names, kvCacheAppend_declared⟩

theorem profile_table_map_append : KeyedMap sampleStorage kvCacheAppendArgs Nat :=
  (profile_table_map sampleStorage Function.injective_id).mpr (unchained_of_required (by decide))

/-! ## A chained schema -/

def firstField : Field := ⟨"a", .int, none⟩

def secondField : Field := ⟨"b", .int, some "a"⟩

/-- Its `same_as` field is itself an optional one. -/
def thirdField : Field := ⟨"c", .int, some "b"⟩

theorem chained_names : ([firstField, secondField, thirdField].map Field.name).Nodup := by decide

theorem chained_declared : ∀ field ∈ [firstField, secondField, thirdField],
    ∀ name ∈ field.sameAs, name ∈ [firstField, secondField, thirdField].map Field.name := by
  decide

def chainedArgs : ArgsSchema := ⟨[firstField, secondField, thirdField], chained_names,
  chained_declared⟩

/-- A value of every integer field that is not left out. -/
def integerArgs (left : List String) (n : Int) (field : Field) : Option field.type.Value :=
  if field.name ∈ left then none
  else match field.type with
    | .int => some n
    | _ => none

theorem spelledOut_required : ∀ field ∈ chainedArgs.fields, field.sameAs = none →
    (integerArgs [] 5 field).isSome := by decide

theorem leftOut_required : ∀ field ∈ chainedArgs.fields, field.sameAs = none →
    (integerArgs ["b"] 5 field).isSome := by decide

/-- `a=5, b=5, c=5`. -/
def spelledOut : KernelArgs chainedArgs := ⟨integerArgs [] 5, spelledOut_required⟩

/-- `a=5, c=5`, with `b` left out. -/
def leftOut : KernelArgs chainedArgs := ⟨integerArgs ["b"] 5, leftOut_required⟩

/-- The two differ by a field that is left out in one and spelled equal to its `same_as` field in
    the other, and their keys differ. -/
theorem chained_args_split : SameCall spelledOut leftOut ∧
    dbKey sampleStorage spelledOut ≠ dbKey sampleStorage leftOut ∧
    ¬KeyedMap sampleStorage chainedArgs Nat := by
  have hcall : SameCall spelledOut leftOut := by
    show ∀ field ∈ chainedArgs.fields, _
    decide
  have hkeys : dbKey sampleStorage spelledOut ≠ dbKey sampleStorage leftOut := by
    rw [ne_eq, dbKey_eq_iff]
    decide
  exact ⟨hcall, hkeys, fun h => hkeys ((h.keys _ _).mpr hcall)⟩

end ProfileTable

end ServingSim
