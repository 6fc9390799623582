import Mathlib.Data.List.Forall2
import Mathlib.Data.List.Sort
import Mathlib.Data.Rat.Defs
import Mathlib.Data.String.Basic
import ServingSim.Common.Ensure
import ServingSim.Lib.JsonText

/-
  The arguments that key a profile table.

  A kernel kind declares its arguments in an args schema: required fields, and optional ones that
  name the field they are the same as when absent. A profile row is keyed by the canonical args,
  in which an optional field that equals its `same_as` field is unset. The key is hashed in the
  form that SQLite stores it in.

  Renamed (Python ↔ Lean):
    `KernelArgs`, `field_types`, `optional_fields` ↔ `ArgsSchema`, `KernelArgs`,
      `sameField`
    `_to_db_value`, `json.dumps` ↔ `toDbValue`, `jsonText`
    `storage.args_hash` ↔ `storageArgsHash`
  A float is its value. The JSON texts of strings and floats, and the first 64 bits of a hash of
  a canonical JSON object, are parameters: see `ScalarTexts` and `digest`.
-/

namespace ServingSim

namespace ProfileTable

open JsonText

/-! ## Values -/

inductive DType where
  | fp16 | bf16 | fp32 | fp8E4m3 | fp8E5m2 | mxfp8E4m3 | int8 | int4 | nvfp4E2m1 | mxfp4E2m1
deriving DecidableEq

def DType.value : DType → String
  | fp16 => "fp16"
  | bf16 => "bf16"
  | fp32 => "fp32"
  | fp8E4m3 => "fp8_e4m3"
  | fp8E5m2 => "fp8_e5m2"
  | mxfp8E4m3 => "mxfp8_e4m3"
  | int8 => "int8"
  | int4 => "int4"
  | nvfp4E2m1 => "nvfp4_e2m1"
  | mxfp4E2m1 => "mxfp4_e2m1"

theorem DType.value_injective {a b : DType} (h : a.value = b.value) : a = b := by
  cases a <;> cases b <;> first | rfl | exact absurd h (by decide)

/-- The declared type of a field, or of what an optional field holds when set. -/
inductive ArgType where
  | int | float | str | bool | dtype
  | tuple (element : ArgType)
deriving DecidableEq

/-- The values of a declared type. -/
@[reducible] def ArgType.Value : ArgType → Type
  | int => Int
  | float => ℚ
  | str => String
  | bool => Bool
  | dtype => DType
  | tuple element => List element.Value

instance decEqValue : (t : ArgType) → DecidableEq t.Value
  | .int => inferInstanceAs (DecidableEq Int)
  | .float => inferInstanceAs (DecidableEq ℚ)
  | .str => inferInstanceAs (DecidableEq String)
  | .bool => inferInstanceAs (DecidableEq Bool)
  | .dtype => inferInstanceAs (DecidableEq DType)
  | .tuple t =>
    have : DecidableEq t.Value := decEqValue t
    inferInstanceAs (DecidableEq (List t.Value))

/-- A value that Python compares as a number: `True` is `1`. -/
def asNumber : (t : ArgType) → t.Value → Option ℚ
  | .int, n => some n
  | .float, q => some q
  | .bool, b => some (if b then 1 else 0)
  | _, _ => none

/-- A value that Python compares as text: a `StrEnum` is its string. -/
def asText : (t : ArgType) → t.Value → Option String
  | .str, s => some s
  | .dtype, d => some d.value
  | _, _ => none

/-- Python's `==` of two items after another, as far as both go. -/
def allEq {α β : Type} (eq : α → β → Bool) : List α → List β → Bool
  | [], [] => true
  | a :: as, b :: bs => eq a b && allEq eq as bs
  | _, _ => false

/-- Python's `==` of two values that are no tuples. -/
def scalarEq (s t : ArgType) (x : s.Value) (y : t.Value) : Bool :=
  ((asNumber s x).isSome && asNumber s x = asNumber t y) ||
    ((asText s x).isSome && asText s x = asText t y)

/-- Python's `==`. -/
def pyEq : (s t : ArgType) → s.Value → t.Value → Bool
  | .tuple s, .tuple t, xs, ys => allEq (pyEq s t) xs ys
  | s, t, x, y => scalarEq s t x y

theorem allEq_left_injective {α β : Type} {eq : α → β → Bool}
    (h : ∀ x x' y, eq x y = true → eq x' y = true → x = x') (xs : List α) :
    ∀ (xs' : List α) (ys : List β), allEq eq xs ys = true → allEq eq xs' ys = true → xs = xs' := by
  induction xs with
  | nil =>
    intro xs' ys hxs hxs'
    cases ys with
    | nil =>
      cases xs' with
      | nil => rfl
      | cons x' xs' => cases hxs'
    | cons y ys => cases hxs
  | cons x xs ih =>
    intro xs' ys hxs hxs'
    cases ys with
    | nil => cases hxs
    | cons y ys =>
      cases xs' with
      | nil => cases hxs'
      | cons x' xs' =>
        obtain ⟨hx, hrest⟩ := Bool.and_eq_true_iff.mp hxs
        obtain ⟨hx', hrest'⟩ := Bool.and_eq_true_iff.mp hxs'
        rw [h x x' y hx hx', ih xs' ys hrest hrest']

theorem asNumber_injective {s : ArgType} {x x' : s.Value} {q : ℚ} (h : asNumber s x = some q)
    (h' : asNumber s x' = some q) : x = x' := by
  have heq := h.trans h'.symm
  cases s with
  | int => exact Int.cast_injective (Option.some.inj heq)
  | float => exact Option.some.inj heq
  | bool =>
    have hval : (if x then 1 else 0 : ℚ) = if x' then 1 else 0 := Option.some.inj heq
    cases x <;> cases x' <;> first | rfl | exact absurd hval (by norm_num)
  | str => cases h
  | dtype => cases h
  | tuple => cases h

theorem asText_injective {s : ArgType} {x x' : s.Value} {w : String} (h : asText s x = some w)
    (h' : asText s x' = some w) : x = x' := by
  have heq := h.trans h'.symm
  cases s with
  | str => exact Option.some.inj heq
  | dtype => exact DType.value_injective (Option.some.inj heq)
  | int => cases h
  | float => cases h
  | bool => cases h
  | tuple => cases h

theorem number_or_text {t : ArgType} {y : t.Value} {q : ℚ} {w : String}
    (hnumber : asNumber t y = some q) (htext : asText t y = some w) : False := by
  cases t with
  | int => cases htext
  | float => cases htext
  | bool => cases htext
  | str => cases hnumber
  | dtype => cases hnumber
  | tuple => cases hnumber

theorem scalarEq_iff {s t : ArgType} {x : s.Value} {y : t.Value} : scalarEq s t x y = true ↔
    (∃ q, asNumber s x = some q ∧ asNumber t y = some q) ∨
      ∃ w, asText s x = some w ∧ asText t y = some w := by
  rw [scalarEq, Bool.or_eq_true, Bool.and_eq_true, Bool.and_eq_true, decide_eq_true_iff,
    decide_eq_true_iff, Option.isSome_iff_exists, Option.isSome_iff_exists]
  constructor
  · rintro (⟨⟨q, hq⟩, heq⟩ | ⟨⟨w, hw⟩, heq⟩)
    · exact .inl ⟨q, hq, heq ▸ hq⟩
    · exact .inr ⟨w, hw, heq ▸ hw⟩
  · rintro (⟨q, hq, hq'⟩ | ⟨w, hw, hw'⟩)
    · exact .inl ⟨⟨q, hq⟩, hq.trans hq'.symm⟩
    · exact .inr ⟨⟨w, hw⟩, hw.trans hw'.symm⟩

theorem scalarEq_left_injective {s t : ArgType} {x x' : s.Value} {y : t.Value}
    (h : scalarEq s t x y = true) (h' : scalarEq s t x' y = true) : x = x' := by
  rcases scalarEq_iff.mp h with ⟨q, hx, hy⟩ | ⟨w, hx, hy⟩
  · rcases scalarEq_iff.mp h' with ⟨q', hx', hy'⟩ | ⟨w', hx', hy'⟩
    · exact asNumber_injective hx (Option.some.inj (hy'.symm.trans hy) ▸ hx')
    · exact (number_or_text hy hy').elim
  · rcases scalarEq_iff.mp h' with ⟨q', hx', hy'⟩ | ⟨w', hx', hy'⟩
    · exact (number_or_text hy' hy).elim
    · exact asText_injective hx (Option.some.inj (hy'.symm.trans hy) ▸ hx')

theorem pyEq_left_injective (s : ArgType) : ∀ (t : ArgType) (x x' : s.Value) (y : t.Value),
    pyEq s t x y = true → pyEq s t x' y = true → x = x' := by
  induction s with
  | int => intro t x x' y h h'; cases t <;> exact scalarEq_left_injective h h'
  | float => intro t x x' y h h'; cases t <;> exact scalarEq_left_injective h h'
  | str => intro t x x' y h h'; cases t <;> exact scalarEq_left_injective h h'
  | bool => intro t x x' y h h'; cases t <;> exact scalarEq_left_injective h h'
  | dtype => intro t x x' y h h'; cases t <;> exact scalarEq_left_injective h h'
  | tuple s ih =>
    intro t x x' y h h'
    cases t with
    | tuple t => exact allEq_left_injective (ih t) x x' y h h'
    | _ => exact scalarEq_left_injective h h'

/-! ## Schemas and args -/

/-- A declared field; `sameAs` is set for one declared with `optional_arg`. -/
structure Field where
  name : String
  type : ArgType
  sameAs : Option String
deriving DecidableEq

/-- The fields of an args dataclass, in declaration order. -/
structure ArgsSchema where
  fields : List Field
  names : (fields.map Field.name).Nodup
  sameAs_declared : ∀ field ∈ fields, ∀ name, field.sameAs = some name →
    name ∈ fields.map Field.name

/-- `optional_fields`: the field that an optional field is the same as when absent. -/
def ArgsSchema.sameField (schema : ArgsSchema) (field : Field) : Option Field :=
  field.sameAs.bind fun name => schema.fields.find? fun other => other.name = name

/-- An args record: every required field is set, and holds a value of its type. -/
structure KernelArgs (schema : ArgsSchema) where
  value : (field : Field) → Option field.type.Value
  required : ∀ field ∈ schema.fields, field.sameAs = none → (value field).isSome

variable {schema : ArgsSchema}

/-- `getattr(args, field) is not None` and it equals the `same_as` field. -/
def KernelArgs.spelled (args : KernelArgs schema) (field : Field) : Bool :=
  match schema.sameField field with
  | none => false
  | some same =>
    match args.value field, args.value same with
    | some x, some y => pyEq field.type same.type x y
    | _, _ => false

theorem spelled_iff {args : KernelArgs schema} {field : Field} : args.spelled field = true ↔
    ∃ same x y, schema.sameField field = some same ∧ args.value field = some x ∧
      args.value same = some y ∧ pyEq field.type same.type x y = true := by
  rw [KernelArgs.spelled]
  cases hsame : schema.sameField field with
  | none => simp
  | some same =>
    cases hx : args.value field with
    | none => simp
    | some x =>
      cases hy : args.value same with
      | none => simp [hy]
      | some y => simp [hy]

theorem spelled_required {args : KernelArgs schema} {field : Field} (h : field.sameAs = none) :
    args.spelled field = false := by
  rw [KernelArgs.spelled, ArgsSchema.sameField, h]
  rfl

/-- `args` with each optional field that equals its `same_as` field unset. -/
def canonicalArgs (args : KernelArgs schema) : KernelArgs schema where
  value field := if args.spelled field then none else args.value field
  required field hfield h := by
    rw [spelled_required h]
    exact args.required field hfield h

theorem canonical_required {args : KernelArgs schema} {field : Field} (h : field.sameAs = none) :
    (canonicalArgs args).value field = args.value field :=
  if_neg (by rw [spelled_required h]; exact Bool.false_ne_true)

/-! ## Database values -/

/-- A value bound to a statement. -/
inductive DbValue where
  | int (n : Int)
  | float (q : ℚ)
  | str (s : String)
  | bool (b : Bool)
deriving DecidableEq

/-- A value as SQLite stores it. -/
inductive Stored where
  | integer (n : Int)
  | real (q : ℚ)
  | text (s : String)
deriving DecidableEq

inductive SqlType where
  | integer | real | text
deriving DecidableEq

def SqlType.declared : SqlType → String
  | integer => "INTEGER"
  | real => "REAL"
  | text => "TEXT"

/-- The JSON texts of strings and floats: each tells its value and where it ends. -/
structure ScalarTexts where
  str : String → List Char
  float : ℚ → List Char
  delimits_str : Delimits str
  delimits_float : Delimits float

/-- `json.dumps` without whitespace. -/
def jsonText (texts : ScalarTexts) : (t : ArgType) → t.Value → List Char
  | .int, n => intText n
  | .float, q => texts.float q
  | .str, s => texts.str s
  | .bool, b => boolText b
  | .dtype, d => texts.str d.value
  | .tuple t, items => listText (jsonText texts t) items

theorem delimits_jsonText (texts : ScalarTexts) (t : ArgType) : Delimits (jsonText texts t) := by
  induction t with
  | int => exact delimits_int
  | float => exact texts.delimits_float
  | str => exact texts.delimits_str
  | bool => exact delimits_bool
  | dtype => exact texts.delimits_str.comp fun _ _ => DType.value_injective
  | tuple t ih => exact delimits_list ih

/-- `_to_db_value`: an enum is its value, and a list is its JSON text. -/
def toDbValue (texts : ScalarTexts) : (t : ArgType) → t.Value → DbValue
  | .int, n => .int n
  | .float, q => .float q
  | .str, s => .str s
  | .bool, b => .bool b
  | .dtype, d => .str d.value
  | .tuple t, items => .str (String.ofList (jsonText texts (.tuple t) items))

def sqliteType : ArgType → SqlType
  | .int => .integer
  | .float => .real
  | _ => .text

/-- `repr`, of a value of `toDbValue` or `None`. -/
def reprDb (texts : ScalarTexts) : Option DbValue → String
  | none => "None"
  | some (.int n) => toString n
  | some (.float q) => String.ofList (texts.float q)
  | some (.str s) => "'" ++ s ++ "'"
  | some (.bool b) => if b then "True" else "False"

/-- The value as SQLite stores it in a column of a declared type, or nothing for a `TypeError`. -/
def affinity : DbValue → SqlType → Option Stored
  | .int n, .integer => some (.integer n)
  | .bool b, .integer => some (.integer (if b then 1 else 0))
  | .float q, .integer => if q.den = 1 then some (.integer q.num) else none
  | .int n, .real => some (.real n)
  | .bool b, .real => some (.real (if b then 1 else 0))
  | .float q, .real => some (.real q)
  | .str s, .text => some (.text s)
  | .bool b, .text => some (.text (if b then "1" else "0"))
  | .int n, .text => some (.text (toString n))
  | _, _ => none

def storedValue (texts : ScalarTexts) (value : Option DbValue) (declared : SqlType) :
    Except String Stored :=
  match value.bind fun value => affinity value declared with
  | some stored => .ok stored
  | none => .error s!"cannot key {reprDb texts value} stored in a {declared.declared} column"

/-- What a typed value is stored as under its own declared type. -/
def storedOf (texts : ScalarTexts) : (t : ArgType) → t.Value → Stored
  | .int, n => .integer n
  | .float, q => .real q
  | .str, s => .text s
  | .bool, b => .text (if b then "1" else "0")
  | .dtype, d => .text d.value
  | .tuple t, items => .text (String.ofList (jsonText texts (.tuple t) items))

theorem affinity_toDb (texts : ScalarTexts) (t : ArgType) (x : t.Value) :
    affinity (toDbValue texts t x) (sqliteType t) = some (storedOf texts t x) := by
  cases t <;> rfl

theorem storedValue_toDb (texts : ScalarTexts) (t : ArgType) (x : t.Value) :
    storedValue texts (some (toDbValue texts t x)) (sqliteType t) = .ok (storedOf texts t x) := by
  simp only [storedValue, Option.bind_some, affinity_toDb]

theorem storedOf_injective (texts : ScalarTexts) (t : ArgType) {x y : t.Value}
    (h : storedOf texts t x = storedOf texts t y) : x = y := by
  cases t with
  | int => exact Stored.integer.inj h
  | float => exact Stored.real.inj h
  | str => exact Stored.text.inj h
  | bool =>
    have htext := Stored.text.inj h
    cases x <;> cases y <;> first | rfl | exact absurd htext (by decide)
  | dtype => exact DType.value_injective (Stored.text.inj h)
  | tuple t =>
    exact (delimits_jsonText texts (.tuple t)).injective
      (String.ofList_injective (Stored.text.inj h))

/-- A stored value is stored as it is: `stored_value` of a row read back changes nothing. -/
def Stored.read : Stored → DbValue
  | .integer n => .int n
  | .real q => .float q
  | .text s => .str s

theorem affinity_read (texts : ScalarTexts) (t : ArgType) (x : t.Value) :
    affinity (storedOf texts t x).read (sqliteType t) = some (storedOf texts t x) := by
  cases t <;> rfl

/-! ## The hash of the args -/

/-- `storage.args_hash`; `digest` is the first 8 bytes of the hash of a canonical JSON object. -/
def storageArgsHash {Hash : Type} (texts : ScalarTexts)
    (digest : List (String × Stored) → Hash) (values : List (String × Option DbValue))
    (declared : String → SqlType) : Except String Hash := do
  let stored ← values.mapM fun entry => do
    let value ← storedValue texts entry.2 (declared entry.1)
    return (entry.1, value)
  return digest (stored.insertionSort fun left right => left.1 ≤ right.1)

end ProfileTable

end ServingSim
