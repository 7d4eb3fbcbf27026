import MySimpleDb.Parser.Ast
import MySimpleDb.Storage.Cast

/-!
# Binding expressions

Name resolution and static typing: from the parser's expression trees to bound
trees, against the row structure of a table and the type and function rows the
catalog was bootstrapped with.
-/

namespace MySimpleDb.Analyzer

open MySimpleDb.Lib MySimpleDb.Storage MySimpleDb.Parser

/-! ## Catalog rows -/

/-- A `db_func` row: one overload of a function. -/
structure FuncRow where
  id : Nat
  name : String
  args : List TypeAttr
  ret : TypeAttr
  strictNull : Bool := true

/-- The rows bootstrap inserts into `db_func`. -/
def kFuncRows : List FuncRow :=
  [⟨1, "abs", [kInt], kInt, true⟩,
   ⟨2, "abs", [kBigint], kBigint, true⟩,
   ⟨3, "abs", [kDouble], kDouble, true⟩,
   ⟨4, "abs", [kFloat], kFloat, true⟩,
   ⟨5, "abs", [kNumeric], kNumeric, true⟩,
   ⟨6, "round", [kInt], kInt, true⟩,
   ⟨7, "round", [kBigint], kBigint, true⟩,
   ⟨8, "round", [kDouble], kDouble, true⟩,
   ⟨9, "round", [kFloat], kFloat, true⟩,
   ⟨10, "round", [kNumeric], kNumeric, true⟩,
   ⟨11, "round", [kNumeric, kInt], kNumeric, true⟩,
   ⟨12, "floor", [kInt], kInt, true⟩,
   ⟨13, "floor", [kBigint], kBigint, true⟩,
   ⟨14, "floor", [kDouble], kDouble, true⟩,
   ⟨15, "floor", [kFloat], kFloat, true⟩,
   ⟨16, "floor", [kNumeric], kNumeric, true⟩,
   ⟨17, "ceil", [kInt], kInt, true⟩,
   ⟨18, "ceil", [kBigint], kBigint, true⟩,
   ⟨19, "ceil", [kDouble], kDouble, true⟩,
   ⟨20, "ceil", [kFloat], kFloat, true⟩,
   ⟨21, "ceil", [kNumeric], kNumeric, true⟩,
   ⟨22, "mod", [kInt, kInt], kInt, true⟩,
   ⟨23, "mod", [kBigint, kBigint], kBigint, true⟩,
   ⟨24, "mod", [kDouble, kDouble], kDouble, true⟩,
   ⟨25, "mod", [kFloat, kFloat], kFloat, true⟩,
   ⟨26, "mod", [kNumeric, kNumeric], kNumeric, true⟩]

/-- All overloads of a name. -/
def funcs (name : String) : List FuncRow :=
  kFuncRows.filter fun row => row.name = name

/-- The `db_type` row of a name or an alias. -/
def typeNamed (name : String) : Option TypeSeed :=
  kTypeSeeds.find? fun row => row.name = name || row.aliasName = some name

def findType (name : String) : Res TypeSeed :=
  match typeNamed name with
  | some row => .ok row
  | none => dbRaise .invalidType ("类型不存在: " ++ name)

def requireType (name : String) : Res TypeAttr :=
  match typeNamed name with
  | some row => .ok row.attr
  | none => dbRaise .internal ("内部类型缺失: " ++ name)

/-! ## Row structure -/

/-- Positions of the column names, and the column types by position. -/
structure RowDesc where
  cols : List (String × Nat)
  colTypes : List TypeAttr

def buildRowDesc (tbl : TableMeta) : RowDesc where
  cols := tbl.cols.zipIdx.map fun (col, i) => (col.name, i)
  colTypes := tbl.cols.map ColumnSpec.type

/-! ## Static types -/

/-- Length and scale as the type row allows them. -/
def checkTypeSpec (row : TypeSeed) (length scale : Option Int) : Res Unit := do
  if !row.lenAllowed && length.isSome then
    dbRaise .invalidType ("类型不接受长度: " ++ row.name)
  let n := length.getD row.lenDefault
  if length.isSome && (n ≤ 0 || row.lenMax < n) then
    if row.scaleAllowed then
      dbRaise .invalidType (row.name ++ " 精度非法: " ++ toString n)
    dbRaise .invalidType ("长度非法: " ++ toString n)
  if !row.scaleAllowed && scale.isSome then
    dbRaise .invalidType ("类型不接受标度: " ++ row.name)
  let s := scale.getD 0
  if s < 0 ∨ n < s then
    dbRaise .invalidType (row.name ++ " 标度非法: " ++ toString s)

/-- The attributes, length and scale a written type stands for. -/
def mapTypeSpec (type : String) (length scale : Option Int) : Res (TypeAttr × Nat × Nat) := do
  let row ← findType type
  checkTypeSpec row length scale
  let n := length.getD row.lenDefault
  let s := scale.getD 0
  pure (row.attr, n.toNat % 2 ^ 16, s.toNat % 2 ^ 8)

/-- The numeric class; an untyped operand passes as well. -/
def numOrUntyped (t : TypeAttr) : Bool :=
  t.family = .num || t.id = 0

def boolOrUntyped (t : TypeAttr) : Bool :=
  t.family = .bool || t.id = 0

/-- Both sides of one family, or one of them untyped. -/
def checkComparable (lt rt : TypeAttr) : Res Unit :=
  if lt.id ≠ 0 ∧ rt.id ≠ 0 ∧ lt.family ≠ rt.family then
    dbRaise .valueMismatch "比较运算两侧须同为数值、字符串或布尔"
  else .ok ()

/-- Result domain of arithmetic: the side of higher rank, but numeric with
float goes up to double. -/
def arithType (lt rt : TypeAttr) : Res TypeAttr :=
  if (lt.rep = .dec ∧ rt.rep = .float) ∨ (lt.rep = .float ∧ rt.rep = .dec) then
    requireType "double"
  else .ok (if rt.rank ≤ lt.rank then lt else rt)

/-- The overload whose argument types are exactly those given. -/
def matchOverload (overloads : List FuncRow) (argTypes : List TypeAttr) : Option FuncRow :=
  overloads.find? fun row => row.args.map TypeAttr.id = argTypes.map TypeAttr.id

/-- A cast to the operand's own type that no length or scale can affect. -/
def castIsPlain (type : TypeAttr) (len : Nat) : Bool :=
  if type.rep = .dec then len = 0
  else type.family ≠ .text || (type.store = .varLen && len = 0)

/-! ## Binding -/

mutual
/-- Bind an expression: the bound tree and its static type. -/
def bindExpr (rowDesc : Option RowDesc) : SqlExpr → Res (BoundExpr × TypeAttr)
  | .int text =>
      match fromCharsI64 text with
      | none => dbRaise .arithError "整数字面量超出可表示范围"
      | some v => do
          let type ← requireType
            (if int32Min ≤ v.toInt ∧ v.toInt ≤ int32Max then "int" else "bigint")
          pure (.const (intVal type v), type)
  | .float text =>
      match fromChars ⟨52, 11⟩ text with
      | none => dbRaise .arithError "浮点字面量超出可表示范围"
      | some v => do
          let type ← requireType "double"
          pure (.const (doubleVal type v), type)
  | .decimal text => do
      let d ← parseDecimalText text
      let type ← requireType "numeric"
      pure (.const (numericVal type d.unscaled d.scale), type)
  | .string value => do
      let type ← requireType "varchar"
      pure (.const (strVal type value), type)
  | .null => pure (.const nullVal, {})
  | .bool value => do
      let type ← requireType "boolean"
      pure (.const (boolVal type value), type)
  | .identifier name =>
      match rowDesc with
      | none => dbRaise .valueMismatch ("常量上下文不允许引用列: " ++ name)
      | some desc =>
          match desc.cols.lookup name with
          | none => dbRaise .unknownColumn ("列不存在: " ++ name)
          | some i =>
              match desc.colTypes[i]? with
              | some type => pure (.colRef i type, type)
              | none => .error (.crash "列类型下标越界")
  | .binaryOp op left right => do
      let (l, lt) ← bindExpr rowDesc left
      let (r, rt) ← bindExpr rowDesc right
      if !numOrUntyped lt || !numOrUntyped rt then
        dbRaise .valueMismatch "算术运算操作数不是数值"
      let type ← arithType lt rt
      pure (.arith op l r type, type)
  | .unaryOp op operand => do
      let (e, t) ← bindExpr rowDesc operand
      if !numOrUntyped t then dbRaise .valueMismatch "一元运算操作数不是数值"
      match op with
      | .plus => pure (e, t)
      | .minus => pure (.neg e t, t)
  | .compare op left right => do
      let (l, lt) ← bindExpr rowDesc left
      let (r, rt) ← bindExpr rowDesc right
      checkComparable lt rt
      let type ← requireType "boolean"
      pure (.cmp op l r, type)
  | .logic op left right => do
      let (l, lt) ← bindExpr rowDesc left
      let (r, rt) ← bindExpr rowDesc right
      if !boolOrUntyped lt || !boolOrUntyped rt then
        dbRaise .valueMismatch "逻辑运算操作数不是布尔值"
      let type ← requireType "boolean"
      pure (.logic op l r, type)
  | .not operand => do
      let (e, t) ← bindExpr rowDesc operand
      if !boolOrUntyped t then dbRaise .valueMismatch "逻辑运算操作数不是布尔值"
      let type ← requireType "boolean"
      pure (.not e, type)
  | .isNull operand negate => do
      let (e, _) ← bindExpr rowDesc operand
      let type ← requireType "boolean"
      pure (.isNull e negate, type)
  | .between expr lo hi => do
      -- the tested expression is bound twice, once for each comparison
      let (x1, _) ← bindExpr rowDesc expr
      let (lo, lot) ← bindExpr rowDesc lo
      let (x2, xt) ← bindExpr rowDesc expr
      let (hi, hit) ← bindExpr rowDesc hi
      checkComparable xt lot
      checkComparable xt hit
      let type ← requireType "boolean"
      pure (.logic .and (.cmp .ge x1 lo) (.cmp .le x2 hi), type)
  | .funcCall name args =>
      if (funcs name).isEmpty then dbRaise .unknownFunction ("函数不存在: " ++ name)
      else do
        let bound ← bindArgs rowDesc args
        match matchOverload (funcs name) (bound.map Prod.snd) with
        | none => dbRaise .valueMismatch ("函数实参个数或类型不符: " ++ name)
        | some row =>
            pure (.funcCall row.id name row.strictNull (bound.map Prod.fst) row.ret, row.ret)
  | .cast operand target => do
      let (e, ot) ← bindExpr rowDesc operand
      let (type, len, scl) ← mapTypeSpec target.type target.length target.scale
      if ot = type ∧ castIsPlain type len then pure (e, type)
      else pure (.cast e type len scl, type)

def bindArgs (rowDesc : Option RowDesc) : List SqlExpr → Res (List (BoundExpr × TypeAttr))
  | [] => .ok []
  | a :: args => do
      let e ← bindExpr rowDesc a
      let es ← bindArgs rowDesc args
      pure (e :: es)
end

/-- A WHERE condition has to be boolean or NULL. -/
def bindWhere (cond : SqlExpr) (rowDesc : RowDesc) : Res BoundExpr := do
  let (pred, t) ← bindExpr (some rowDesc) cond
  if !boolOrUntyped t then dbRaise .valueMismatch "WHERE 条件不是布尔表达式"
  pure pred

end MySimpleDb.Analyzer
