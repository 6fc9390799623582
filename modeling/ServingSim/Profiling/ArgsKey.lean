import ServingSim.Common.Checked
import ServingSim.Lib.Dictionary
import ServingSim.Profiling.KindTable

/-
  The key of a profile row.
-/

namespace ServingSim

namespace ProfileTable

variable {schema : ArgsSchema} {Hash Metrics : Type}

/-! ## Cells -/

/-- What SQLite stores for a field of some args; an unset one is NULL. -/
def cell (storage : Storage Hash) (args : KernelArgs schema) (field : Field) : Option Stored :=
  ((canonicalArgs args).value field).map (storedOf storage.texts field.type)

/-- The stored args that are hashed, in field order. -/
def hashedArgs (storage : Storage Hash) (args : KernelArgs schema) : List (String × Stored) :=
  schema.fields.filterMap fun field => (cell storage args field).map fun value =>
    (field.name, value)

def hashOf (storage : Storage Hash) (args : KernelArgs schema) : Hash :=
  storage.digest ((hashedArgs storage args).insertionSort fun left right => left.1 ≤ right.1)

/-- The canonical args agree. -/
def SameCanonical (a b : KernelArgs schema) : Prop :=
  ∀ field ∈ schema.fields, (canonicalArgs a).value field = (canonicalArgs b).value field

instance (a b : KernelArgs schema) : Decidable (SameCanonical a b) :=
  inferInstanceAs (Decidable (∀ field ∈ schema.fields, _ = _))

theorem eq_of_name {f g : Field} (hf : f ∈ schema.fields) (hg : g ∈ schema.fields)
    (h : f.name = g.name) : f = g :=
  List.inj_on_of_nodup_map schema.names hf hg h

variable {field : Field}

theorem find_name (hfield : field ∈ schema.fields) :
    schema.fields.find? (fun other => other.name = field.name) = some field := by
  cases hfind : schema.fields.find? (fun other => other.name = field.name) with
  | none => exact absurd (by simp) (List.find?_eq_none.mp hfind field hfield)
  | some other =>
    have hname : other.name = field.name := by simpa using List.find?_some hfind
    rw [eq_of_name (List.mem_of_find?_eq_some hfind) hfield hname]

theorem declaredTypes_of_mem (hfield : field ∈ schema.fields) :
    declaredTypes schema field.name = sqliteType field.type := by
  rw [declaredTypes, find_name hfield]
  rfl

theorem zip_dbKey (storage : Storage Hash) (args : KernelArgs schema) :
    schema.fields.zip (dbKey storage args) = schema.fields.map fun field =>
      (field, ((canonicalArgs args).value field).map (toDbValue storage.texts field.type)) := by
  have h := @List.zip_map' _ _ _ id (fun field : Field =>
    ((canonicalArgs args).value field).map (toDbValue storage.texts field.type)) schema.fields
  rwa [List.map_id] at h

theorem optional_of_unset {args : KernelArgs schema}
    (hfield : field ∈ schema.fields) (h : (canonicalArgs args).value field = none) :
    field.sameAs.isSome := by
  cases hsame : field.sameAs with
  | some _ => rfl
  | none =>
    have hset := (canonicalArgs args).required field hfield hsame
    rw [h] at hset
    cases hset

/-! ## The hash -/

theorem tableArgsHash_dbKey (storage : Storage Hash) (args : KernelArgs schema) :
    tableArgsHash storage schema (dbKey storage args) = .ok (hashOf storage args) := by
  have hmap : ∀ fields : List Field, (∀ field ∈ fields, field ∈ schema.fields) →
      ((((fields.map fun field => (field, ((canonicalArgs args).value field).map
          (toDbValue storage.texts field.type))).filter fun entry =>
            entry.2.isSome || entry.1.sameAs.isNone).map fun entry =>
              (entry.1.name, entry.2)).mapM fun entry => do
        let value ← storedValue storage.texts entry.2 (declaredTypes schema entry.1)
        return (entry.1, value) : Except String (List (String × Stored))) =
      .ok (fields.filterMap fun field => (cell storage args field).map fun value =>
        (field.name, value)) := by
    intro fields
    induction fields with
    | nil => intro _; rfl
    | cons field fields ih =>
      intro hmem
      have hfield := hmem field List.mem_cons_self
      have hrest := ih fun other hother => hmem other (List.mem_cons_of_mem _ hother)
      rw [List.map_cons]
      cases hvalue : (canonicalArgs args).value field with
      | none =>
        obtain ⟨same, hsame⟩ := Option.isSome_iff_exists.mp (optional_of_unset hfield hvalue)
        have hcell : cell storage args field = none := by
          rw [cell, hvalue]
          rfl
        rw [List.filter_cons_of_neg (by simp [hsame]), List.filterMap_cons_none (by
          rw [hcell]; rfl)]
        exact hrest
      | some x =>
        have hcell : cell storage args field = some (storedOf storage.texts field.type x) := by
          rw [cell, hvalue]
          rfl
        rw [List.filter_cons_of_pos (by simp), List.map_cons, List.mapM_cons,
          List.filterMap_cons_some (by rw [hcell]; rfl)]
        simp only [Option.map_some, declaredTypes_of_mem hfield, storedValue_toDb]
        rw [hrest]
        rfl
  rw [tableArgsHash, zip_dbKey, storageArgsHash]
  simp only [hmap schema.fields fun _ h => h]
  rfl

variable {storage : Storage Hash}

theorem mem_hashedArgs_iff {args : KernelArgs schema} {name : String}
    {value : Stored} : (name, value) ∈ hashedArgs storage args ↔
      ∃ field ∈ schema.fields, field.name = name ∧ cell storage args field = some value := by
  rw [hashedArgs, List.mem_filterMap]
  refine exists_congr fun field => and_congr_right fun _ => ?_
  cases cell storage args field with
  | none => simp
  | some stored => simp

theorem nodup_hashedArgs (storage : Storage Hash) (args : KernelArgs schema) :
    ((hashedArgs storage args).map Prod.fst).Nodup := by
  refine schema.names.sublist ?_
  rw [hashedArgs, List.map_filterMap]
  have hsub : ∀ fields : List Field, (fields.filterMap fun field =>
      ((cell storage args field).map fun value => (field.name, value)).map Prod.fst).Sublist
        (fields.map Field.name) := by
    intro fields
    induction fields with
    | nil => exact .slnil
    | cons field fields ih =>
      cases hcell : cell storage args field with
      | none =>
        rw [List.filterMap_cons_none (by rw [hcell]; rfl), List.map_cons]
        exact ih.cons _
      | some stored =>
        rw [List.filterMap_cons_some (by rw [hcell]; rfl), List.map_cons]
        exact ih.cons_cons _
  exact hsub schema.fields

theorem sort_eq_of_perm {V : Type} {left right : List (String × V)} (h : left.Perm right)
    (hkeys : (left.map Prod.fst).Nodup) :
    left.insertionSort (fun a b => a.1 ≤ b.1) = right.insertionSort (fun a b => a.1 ≤ b.1) := by
  have hperm := (List.perm_insertionSort (fun a b : String × V => a.1 ≤ b.1) left).trans
    (h.trans (List.perm_insertionSort (fun a b : String × V => a.1 ≤ b.1) right).symm)
  refine List.Perm.eq_of_pairwise (fun a b ha hb hab hba => ?_)
    (List.pairwise_insertionSort (fun a b : String × V => a.1 ≤ b.1) _)
    (List.pairwise_insertionSort (fun a b : String × V => a.1 ≤ b.1) _) hperm
  have hright : b ∈ left := h.mem_iff.mpr ((List.mem_insertionSort _).mp hb)
  exact List.inj_on_of_nodup_map hkeys ((List.mem_insertionSort _).mp ha) hright
    (le_antisymm hab hba)

variable {a b : KernelArgs schema}

theorem cell_eq_iff :
    cell storage a field = cell storage b field ↔
      (canonicalArgs a).value field = (canonicalArgs b).value field := by
  refine ⟨fun h => ?_, fun h => by rw [cell, cell, h]⟩
  exact Option.map_injective (fun _ _ => storedOf_injective storage.texts field.type) h

theorem hashOf_eq_iff (hdigest : Function.Injective storage.digest)
    : hashOf storage a = hashOf storage b ↔ SameCanonical a b := by
  constructor
  · intro h field hfield
    have hsorted := hdigest h
    have hperm : (hashedArgs storage a).Perm (hashedArgs storage b) := by
      have hsort := List.perm_insertionSort (fun left right : String × Stored => left.1 ≤ right.1)
      have hmiddle := (hsort (hashedArgs storage a)).symm
      rw [hsorted] at hmiddle
      exact hmiddle.trans (hsort (hashedArgs storage b))
    have hcells : cell storage a field = cell storage b field → _ := cell_eq_iff.mp
    refine hcells (Option.ext fun value => ?_)
    have hone : ∀ args : KernelArgs schema, cell storage args field = some value ↔
        (field.name, value) ∈ hashedArgs storage args := by
      intro args
      rw [mem_hashedArgs_iff]
      refine ⟨fun hcell => ⟨field, hfield, rfl, hcell⟩, fun ⟨other, hother, hname, hcell⟩ => ?_⟩
      rw [← eq_of_name hother hfield hname]
      exact hcell
    exact (hone a).trans (hperm.mem_iff.trans (hone b).symm)
  · intro h
    have hlist : hashedArgs storage a = hashedArgs storage b :=
      List.filterMap_congr fun field hfield => by rw [cell_eq_iff.mpr (h field hfield)]
    rw [hashOf, hashOf, hlist]

theorem dbKey_eq_iff :
    dbKey storage a = dbKey storage b ↔ SameCanonical a b := by
  rw [dbKey, dbKey, List.map_inj_left]
  refine forall₂_congr fun field _ => ?_
  have hinjective : Function.Injective (toDbValue storage.texts field.type) := by
    intro x y h
    have hx := affinity_toDb storage.texts field.type x
    rw [h, affinity_toDb] at hx
    exact (storedOf_injective storage.texts field.type (Option.some.inj hx)).symm
  exact ⟨fun h => Option.map_injective hinjective h, fun h => by rw [h]⟩

/-! ## Columns -/

theorem mem_storedArgsColumns {table : KindTable Hash Metrics} :
    field ∈ storedArgsColumns schema table ↔
      field ∈ schema.fields ∧ (field.sameAs.isNone ∨ field.name ∈ table.optionals) := by
  rw [storedArgsColumns, List.mem_filter, Bool.or_eq_true, decide_eq_true_iff]

theorem storedValues_dbKey (storage : Storage Hash) (args : KernelArgs schema)
    (table : KindTable Hash Metrics) :
    storedValues schema (dbKey storage args) (storedArgsColumns schema table) =
      (storedArgsColumns schema table).map fun field =>
        (field.name, cell storage args field) := by
  have hcell : ∀ field : Field, (((canonicalArgs args).value field).map
      (toDbValue storage.texts field.type)).bind
        (fun value => affinity value (sqliteType field.type)) = cell storage args field := by
    intro field
    rw [cell]
    cases (canonicalArgs args).value field with
    | none => rfl
    | some x => exact affinity_toDb storage.texts field.type x
  have hfilter : (schema.fields.filter fun field => field ∈ storedArgsColumns schema table) =
      storedArgsColumns schema table :=
    List.filter_congr fun field hfield => by
      rw [Bool.eq_iff_iff, decide_eq_true_iff, mem_storedArgsColumns, Bool.or_eq_true,
        decide_eq_true_iff]
      exact and_iff_right hfield
  rw [storedValues, zip_dbKey, List.filter_map, List.map_map]
  calc ((schema.fields.filter _).map _ : List (String × Option Stored))
      = (schema.fields.filter fun field => field ∈ storedArgsColumns schema table).map fun field =>
          (field.name, cell storage args field) := List.map_congr_left fun field _ => by
        simp only [Function.comp_apply, hcell]
    _ = _ := by rw [hfilter]

theorem storable_dbKey_iff {args : KernelArgs schema}
    {table : KindTable Hash Metrics} :
    storable schema (dbKey storage args) (storedArgsColumns schema table) = true ↔
      ∀ field ∈ schema.fields, (canonicalArgs args).value field ≠ none →
        field ∈ storedArgsColumns schema table := by
  rw [storable, zip_dbKey, List.all_map, List.all_eq_true]
  refine forall₂_congr fun field _ => ?_
  simp only [Function.comp_apply, Bool.or_eq_true, decide_eq_true_iff]
  cases (canonicalArgs args).value field with
  | none => simp
  | some x => simp

theorem cellOf_columns {columns : List Field}
    (hnodup : (columns.map Field.name).Nodup) (f : Field → Option Stored)
    (hfield : field ∈ columns) :
    cellOf (columns.map fun field => (field.name, f field)) field.name = f field := by
  have hkeys : ((columns.map fun field => (field.name, f field)).map Prod.fst).Nodup := by
    rw [List.map_map]
    exact hnodup
  have hlookup := Dictionary.lookup_of_mem hkeys
    (List.mem_map_of_mem (f := fun field : Field => (field.name, f field)) hfield)
  rw [cellOf, hlookup]
  rfl

theorem nodup_storedArgsColumns (schema : ArgsSchema) (table : KindTable Hash Metrics) :
    ((storedArgsColumns schema table).map Field.name).Nodup :=
  schema.names.sublist (List.filter_sublist.map Field.name)

/-! ## One call, one key -/

/-- Two args are one call as far as a key tells: every field is equal, or left out in one and
    spelled equal to its `same_as` field in the other. -/
def SameCall (a b : KernelArgs schema) : Prop :=
  ∀ field ∈ schema.fields, a.value field = b.value field ∨
    (a.value field = none ∧ b.spelled field = true) ∨
      (b.value field = none ∧ a.spelled field = true)

/-- An optional field left out and one spelled equal to its `same_as` field are one key, and any
    other difference is another key. -/
def KeyLaw (storage : Storage Hash) (schema : ArgsSchema) : Prop :=
  ∀ a b : KernelArgs schema, dbKey storage a = dbKey storage b ↔ SameCall a b

/-- No args spell an optional field equal to its `same_as` field where that field is itself an
    optional one spelled equal to its own. -/
def Unchained (schema : ArgsSchema) : Prop :=
  ∀ args : KernelArgs schema, ∀ field ∈ schema.fields, ∀ same,
    schema.sameField field = some same → args.spelled field = true → args.spelled same = false

theorem sameField_mem {field same : Field} (h : schema.sameField field = some same) :
    same ∈ schema.fields := by
  obtain ⟨name, _, hfind⟩ := Option.bind_eq_some_iff.mp h
  exact List.mem_of_find?_eq_some hfind

theorem optional_of_sameField {field same : Field} (h : schema.sameField field = some same) :
    field.sameAs ≠ none := by
  obtain ⟨name, hname, _⟩ := Option.bind_eq_some_iff.mp h
  rw [hname]
  exact Option.some_ne_none name

theorem canonical_value (args : KernelArgs schema) (field : Field) :
    (canonicalArgs args).value field =
      if args.spelled field = true then none else args.value field := rfl

theorem sameCanonical_iff (h : Unchained schema) :
    SameCanonical a b ↔ SameCall a b := by
  -- Where a field is spelled equal to another, that other one stays as it is.
  have hsame : ∀ {args : KernelArgs schema} {field same : Field}, field ∈ schema.fields →
      schema.sameField field = some same → args.spelled field = true →
      (canonicalArgs args).value same = args.value same := by
    intro args field same hfield hsame hspelled
    rw [canonical_value, if_neg]
    rw [h args field hfield same hsame hspelled]
    exact Bool.false_ne_true
  have hspell : ∀ {a b : KernelArgs schema}, SameCall a b → ∀ field ∈ schema.fields,
      a.value field = b.value field → a.spelled field = true → b.spelled field = true := by
    intro a b hcall field hfield hvalue hspelled
    obtain ⟨same, x, y, hsameField, hx, hy, heq⟩ := spelled_iff.mp hspelled
    have hunspelled := h a field hfield same hsameField hspelled
    have hb : b.value same = some y := by
      rcases hcall same (sameField_mem hsameField) with hvalues | ⟨hnone, _⟩ | ⟨_, hspelledSame⟩
      · exact hvalues.symm.trans hy
      · rw [hnone] at hy
        cases hy
      · rw [hunspelled] at hspelledSame
        cases hspelledSame
    exact spelled_iff.mpr ⟨same, x, y, hsameField, hvalue.symm.trans hx, hb, heq⟩
  constructor
  · intro hcanonical field hfield
    have hvalue := hcanonical field hfield
    rw [canonical_value, canonical_value] at hvalue
    by_cases ha : a.spelled field = true
    · by_cases hb : b.spelled field = true
      · obtain ⟨same, x, y, hsameField, hx, hy, heq⟩ := spelled_iff.mp ha
        obtain ⟨same', x', y', hsameField', hx', hy', heq'⟩ := spelled_iff.mp hb
        obtain rfl := Option.some.inj (hsameField.symm.trans hsameField')
        have hboth := hcanonical same (sameField_mem hsameField)
        rw [hsame hfield hsameField ha, hsame hfield hsameField hb, hy, hy'] at hboth
        obtain rfl := Option.some.inj hboth
        rw [hx, hx', pyEq_left_injective _ _ x x' y heq heq']
        exact .inl rfl
      · rw [if_pos ha, if_neg hb] at hvalue
        exact .inr (.inr ⟨hvalue.symm, ha⟩)
    · by_cases hb : b.spelled field = true
      · rw [if_neg ha, if_pos hb] at hvalue
        exact .inr (.inl ⟨hvalue, hb⟩)
      · rw [if_neg ha, if_neg hb] at hvalue
        exact .inl hvalue
  · intro hcall field hfield
    have hback : SameCall b a := fun field hfield =>
      (hcall field hfield).elim (fun heq => .inl heq.symm) fun h => .inr h.symm
    have hnone : ∀ {args : KernelArgs schema}, args.value field = none →
        (canonicalArgs args).value field = none := by
      intro args hvalue
      rw [canonical_value, hvalue, ite_self]
    rcases hcall field hfield with hvalue | ⟨hvalue, hspelled⟩ | ⟨hvalue, hspelled⟩
    · rw [canonical_value, canonical_value, hvalue]
      by_cases ha : a.spelled field = true
      · rw [if_pos ha, if_pos (hspell hcall field hfield hvalue ha)]
      · rw [if_neg ha, if_neg fun hb => ha (hspell hback field hfield hvalue.symm hb)]
    · rw [hnone hvalue, canonical_value, if_pos hspelled]
    · rw [hnone hvalue, canonical_value, if_pos hspelled]

/-! ## Chained schemas -/

theorem allEq_refl {α : Type} {eq : α → α → Bool} (h : ∀ x, eq x x = true) (xs : List α) :
    allEq eq xs xs = true := by
  induction xs with
  | nil => rfl
  | cons x xs ih => exact Bool.and_eq_true_iff.mpr ⟨h x, ih⟩

theorem pyEq_refl (t : ArgType) : ∀ x : t.Value, pyEq t t x x = true := by
  induction t with
  | int => exact fun n => scalarEq_iff.mpr (.inl ⟨n, rfl, rfl⟩)
  | float => exact fun q => scalarEq_iff.mpr (.inl ⟨q, rfl, rfl⟩)
  | str => exact fun s => scalarEq_iff.mpr (.inr ⟨s, rfl, rfl⟩)
  | bool => exact fun b => scalarEq_iff.mpr (.inl ⟨if b then 1 else 0, rfl, rfl⟩)
  | dtype => exact fun d => scalarEq_iff.mpr (.inr ⟨d.value, rfl, rfl⟩)
  | tuple t ih => exact allEq_refl ih

theorem exists_other (t : ArgType) (x : t.Value) : ∃ y : t.Value, y ≠ x := by
  have hinhabited : ∀ t : ArgType, Nonempty t.Value := by
    intro t
    cases t with
    | int => exact ⟨(0 : Int)⟩
    | float => exact ⟨(0 : ℚ)⟩
    | str => exact ⟨""⟩
    | bool => exact ⟨false⟩
    | dtype => exact ⟨DType.fp16⟩
    | tuple => exact ⟨[]⟩
  cases t with
  | int => exact ⟨(x + 1 : Int), (Int.lt_succ x).ne'⟩
  | float => exact ⟨(x + 1 : ℚ), by simp⟩
  | str =>
    refine ⟨x.push 'x', fun heq => ?_⟩
    have hlength := congrArg String.length heq
    rw [String.length_push] at hlength
    omega
  | bool => exact ⟨!x, by cases x <;> decide⟩
  | dtype =>
    by_cases hx : x = DType.fp16
    · exact ⟨DType.bf16, by rw [hx]; decide⟩
    · exact ⟨DType.fp16, Ne.symm hx⟩
  | tuple t =>
    cases x with
    | nil =>
      obtain ⟨item⟩ := hinhabited t
      exact ⟨[item], List.cons_ne_nil _ _⟩
    | cons item items => exact ⟨[], (List.cons_ne_nil _ _).symm⟩

/-- `args` with some optional fields left out. -/
def KernelArgs.without (args : KernelArgs schema) (out : Field → Prop) [DecidablePred out]
    (h : ∀ field, out field → field.sameAs ≠ none) : KernelArgs schema where
  value field := if out field then none else args.value field
  required field hfield hsame := by
    rw [if_neg fun hout => h field hout hsame]
    exact args.required field hfield hsame

/-- `args` with one field set. -/
def KernelArgs.withValue (args : KernelArgs schema) (field : Field) (x : field.type.Value) :
    KernelArgs schema where
  value := Function.update args.value field (some x)
  required other hother hsame := by
    by_cases heq : other = field
    · subst heq
      rw [Function.update_self]
      rfl
    · rw [Function.update_of_ne heq]
      exact args.required other hother hsame

theorem chain_breaks (h : KeyLaw storage schema)
    {args : KernelArgs schema} {field same : Field} (hfield : field ∈ schema.fields)
    (hsame : schema.sameField field = some same) (hspelled : args.spelled field = true)
    (hchain : args.spelled same = true) : same = field := by
  by_contra hne
  obtain ⟨next, _, _, hnext, _, _, _⟩ := spelled_iff.mp hchain
  let shorter := args.without (fun other => other = same) fun other hother =>
    hother ▸ optional_of_sameField hnext
  have hcall : SameCall args shorter := by
    intro other _
    by_cases hother : other = same
    · exact .inr (.inr ⟨if_pos hother, hother ▸ hchain⟩)
    · exact .inl (if_neg hother).symm
  have hcanonical := dbKey_eq_iff.mp ((h args shorter).mpr hcall) field hfield
  have hunspelled : ¬shorter.spelled field = true := by
    intro hspelled'
    obtain ⟨same', x, y, hsame', _, hy, _⟩ := spelled_iff.mp hspelled'
    obtain rfl := Option.some.inj (hsame.symm.trans hsame')
    have hnone : shorter.value same = none := if_pos rfl
    rw [hnone] at hy
    cases hy
  rw [canonical_value, canonical_value, if_pos hspelled, if_neg hunspelled] at hcanonical
  have hkept : shorter.value field = args.value field := if_neg (Ne.symm hne)
  obtain ⟨_, x, _, _, hx, _, _⟩ := spelled_iff.mp hspelled
  rw [hkept, hx] at hcanonical
  cases hcanonical

/-- A field that is its own `same_as` field is never kept, whatever it holds. -/
theorem self_breaks (h : KeyLaw storage schema)
    {args : KernelArgs schema} (hfield : field ∈ schema.fields)
    (hsame : schema.sameField field = some field) (hspelled : args.spelled field = true) :
    False := by
  obtain ⟨_, x, _, _, hx, _, _⟩ := spelled_iff.mp hspelled
  obtain ⟨y, hy⟩ := exists_other field.type x
  let alone := args.without (fun other => other.sameAs.isSome ∧ other ≠ field) fun other hother =>
    Option.isSome_iff_ne_none.mp hother.1
  let other := alone.withValue field y
  have hself : ∀ {a : KernelArgs schema} {z : field.type.Value}, a.value field = some z →
      a.spelled field = true := fun {a z} hz =>
    spelled_iff.mpr ⟨field, z, z, hsame, hz, hz, pyEq_refl _ z⟩
  have hx' : alone.value field = some x := (if_neg fun hout => hout.2 rfl).trans hx
  have hy' : other.value field = some y := Function.update_self _ _ _
  have hcanonical : SameCanonical alone other := by
    intro third hthird
    by_cases heq : third = field
    · subst heq
      rw [canonical_value, canonical_value, if_pos (hself hx'), if_pos (hself hy')]
    · have hvalue : other.value third = alone.value third := Function.update_of_ne heq _ _
      cases hoptional : third.sameAs with
      | none => rw [canonical_required hoptional, canonical_required hoptional, hvalue]
      | some name =>
        have hnone : alone.value third = none := if_pos ⟨by rw [hoptional]; rfl, heq⟩
        rw [canonical_value, canonical_value, hvalue, hnone, ite_self, ite_self]
  rcases (h alone other).mp (dbKey_eq_iff.mpr hcanonical) field hfield with heq | heq | heq
  · rw [hx', hy'] at heq
    exact hy (Option.some.inj heq).symm
  · rw [hx'] at heq
    cases heq.1
  · rw [hy'] at heq
    cases heq.1

theorem keyLaw_iff : KeyLaw storage schema ↔ Unchained schema := by
  constructor
  · intro h args field hfield same hsame hspelled
    by_contra hchain
    have hchain : args.spelled same = true := Bool.eq_true_of_not_eq_false hchain
    obtain rfl := chain_breaks h hfield hsame hspelled hchain
    exact self_breaks h hfield hsame hspelled
  · intro h a b
    exact dbKey_eq_iff.trans (sameCanonical_iff h)

/-- Where every `same_as` names a required field, no args chain. -/
theorem unchained_of_required
    (h : ∀ field ∈ schema.fields, ∀ same ∈ schema.sameField field, same.sameAs = none) :
    Unchained schema :=
  fun _ field hfield same hsame _ => spelled_required (h field hfield same hsame)

end ProfileTable

end ServingSim
