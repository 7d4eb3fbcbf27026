import MySimpleDb.Common.Err
import MySimpleDb.Lib.DecimalText

/-!
# Values, types and columns

The data model shared by storage, expressions and planner: type attributes as
the `db_type` rows carry them, the boxed values of rows, and physical row
locations.
-/

namespace MySimpleDb.Storage

open MySimpleDb.Lib

/-- Location of a page; file 0 is the invalid location. -/
structure PageId where
  fileId : Nat := 0
  pageNo : Nat := 0
deriving DecidableEq, Repr

def invalidPage : PageId := {}

inductive Family
  | none | num | text | bool
deriving DecidableEq, Repr

/-- Value representation, one per alternative of a value's box. -/
inductive Rep
  | none | int64 | float | double | str | bool | dec
deriving DecidableEq, Repr

inductive Store
  | none | fixed | charPad | varLen | decimal
deriving DecidableEq, Repr

/-- The inlined fields of a `db_type` row; `id` 0 is the absent type. -/
structure TypeAttr where
  id : Nat := 0
  family : Family := .none
  rank : Nat := 0
  rep : Rep := .none
  store : Store := .none
  width : Nat := 0
deriving DecidableEq, Repr

/-- Seed row of a built-in type. -/
structure TypeSeed where
  attr : TypeAttr
  name : String
  aliasName : Option String
  lenAllowed : Bool
  lenDefault : Nat
  lenMax : Nat
  scaleAllowed : Bool

def kInt : TypeAttr := ⟨1, .num, 1, .int64, .fixed, 4⟩
def kBigint : TypeAttr := ⟨2, .num, 2, .int64, .fixed, 8⟩
def kDouble : TypeAttr := ⟨3, .num, 5, .double, .fixed, 8⟩
def kVarChar : TypeAttr := ⟨4, .text, 0, .str, .varLen, 0⟩
def kFloat : TypeAttr := ⟨5, .num, 4, .float, .fixed, 4⟩
def kChar : TypeAttr := ⟨6, .text, 0, .str, .charPad, 0⟩
def kBool : TypeAttr := ⟨7, .bool, 0, .bool, .fixed, 1⟩
def kNumeric : TypeAttr := ⟨8, .num, 3, .dec, .decimal, 0⟩

def kTypeSeeds : List TypeSeed :=
  [⟨kInt, "int", none, false, 0, 0, false⟩,
   ⟨kBigint, "bigint", none, false, 0, 0, false⟩,
   ⟨kDouble, "double", none, false, 0, 0, false⟩,
   ⟨kVarChar, "varchar", none, true, 0, 65535, false⟩,
   ⟨kFloat, "float", none, false, 0, 0, false⟩,
   ⟨kChar, "char", none, true, 1, 65535, false⟩,
   ⟨kBool, "boolean", some "bool", false, 0, 0, false⟩,
   ⟨kNumeric, "numeric", some "decimal", true, 0, 38, true⟩]

/-- A column: `length` is the declared length of text and the declared
precision of numeric (0 for none), `scale` the declared scale of numeric. -/
structure ColumnSpec where
  name : String
  type : TypeAttr
  length : Nat := 0
  notNull : Bool := false
  scale : Nat := 0
deriving DecidableEq, Repr

/-- Table entry of the catalog. -/
structure TableMeta where
  tableId : Nat := 0
  fileId : Nat := 0
  name : String := ""
  cols : List ColumnSpec := []
deriving DecidableEq, Repr

/-- Bound on the magnitude of an unscaled numeric: 38 decimal digits. -/
def kNumericUnscaledMax : Int := 10 ^ 38

/-- `unscaled * 10 ^ -scale`; trailing zeros are kept. -/
structure DecimalVal where
  unscaled : Int
  scale : Nat
deriving DecidableEq, Repr

/-- The alternatives of a value's box; `null` is `std::monostate`. -/
inductive Box
  | null
  | bool (b : Bool)
  | int64 (i : Int64)
  | double (d : F64)
  | float (x : F32)
  | str (s : Bytes)
  | dec (d : DecimalVal)
deriving DecidableEq

/-- A row value: type attribute and box. -/
structure Value where
  type : TypeAttr := {}
  box : Box := .null
deriving DecidableEq

def intVal (t : TypeAttr) (i : Int64) : Value := ⟨t, .int64 i⟩
def floatVal (t : TypeAttr) (x : F32) : Value := ⟨t, .float x⟩
def doubleVal (t : TypeAttr) (d : F64) : Value := ⟨t, .double d⟩
def strVal (t : TypeAttr) (s : Bytes) : Value := ⟨t, .str s⟩
def boolVal (t : TypeAttr) (b : Bool) : Value := ⟨t, .bool b⟩
def numericVal (t : TypeAttr) (unscaled : Int) (scale : Nat) : Value :=
  ⟨t, .dec ⟨unscaled, scale⟩⟩

/-- The untyped NULL. -/
def nullVal : Value := {}

/-- A NULL that carries a column type. -/
def typedNull (t : TypeAttr) : Value := ⟨t, .null⟩

/-- NULL is decided by the box alone, whatever the type tag. -/
def valueIsNull (v : Value) : Bool :=
  match v.box with
  | .null => true
  | _ => false

@[simp] theorem valueIsNull_nullVal : valueIsNull nullVal = true := rfl

@[simp] theorem valueIsNull_boolVal (t : TypeAttr) (b : Bool) :
    valueIsNull (boolVal t b) = false := rfl

theorem valueIsNull_iff {v : Value} : valueIsNull v = true ↔ v.box = .null := by
  rcases v with ⟨type, box⟩
  cases box <;> simp [valueIsNull]

/-- Physical location of a row: page and slot. -/
structure RowRef where
  page : PageId := invalidPage
  slot : Nat := 0
deriving DecidableEq, Repr

/-- A scanned row. -/
structure Row where
  rid : Nat := 0
  ref : RowRef := {}
  values : List Value := []
deriving DecidableEq

/-! ## Well-formed values -/

/-- The representation a box realises. -/
def Box.rep : Box → Rep
  | .null => .none
  | .bool _ => .bool
  | .int64 _ => .int64
  | .double _ => .double
  | .float _ => .float
  | .str _ => .str
  | .dec _ => .dec

/-- The type attributes of the built-in types. -/
def kTypeAttrs : List TypeAttr :=
  kTypeSeeds.map TypeSeed.attr

/-- Floating-point boxes hold finite numbers. -/
def Box.Finite : Box → Prop
  | .double d => d.isFinite = true
  | .float x => x.isFinite = true
  | _ => True

/-- A value as the factories, the row decoder and the evaluator produce it:
NULL, or a finite box of the representation its built-in type names. -/
def Value.Valid (v : Value) : Prop :=
  v.box = .null ∨ (v.type ∈ kTypeAttrs ∧ v.type.rep = v.box.rep ∧ v.box.Finite)

/-- A value of a static type: NULL, or a well-formed value of that type. -/
def Value.OfType (v : Value) (t : TypeAttr) : Prop :=
  v.Valid ∧ (v.box = .null ∨ v.type = t)

/-! ## Integer limits -/

def int32Min : Int := -2147483648
def int32Max : Int := 2147483647
def int64Min : Int := -9223372036854775808
def int64Max : Int := 9223372036854775807

end MySimpleDb.Storage
