import MySimpleDb.Analyzer.BoundExpr
import MySimpleDb.Expr.Func

/-!
# Expression evaluation

The evaluator of bound trees under three-valued logic, the three-way value
comparison shared by comparisons and sorting, and the WHERE test.
-/

namespace MySimpleDb.Expr

open MySimpleDb.Lib MySimpleDb.Storage MySimpleDb.Analyzer

/-! ## Values as operands -/

/-- `std::get` of an alternative that is not present. -/
private def badAccess {α : Type} : Res α :=
  .error (.crash "bad_variant_access")

def toDouble (v : Value) (target : TypeAttr) : Res F64 := do
  match (← castValue v target).box with
  | .double d => .ok d
  | _ => badAccess

def toFloat (v : Value) (target : TypeAttr) : Res F32 := do
  match (← castValue v target).box with
  | .float x => .ok x
  | _ => badAccess

def getInt (v : Value) (domain : TypeAttr) : Res Int64 := do
  match (← castValue v domain).box with
  | .int64 i => .ok i
  | _ => badAccess

def toNumeric (v : Value) (target : TypeAttr) : Res DecimalVal := do
  match (← castValue v target).box with
  | .dec d => .ok d
  | _ => badAccess

/-- Promotion of a numeric value to double for mixed comparisons. -/
def boxF64 (v : Value) : Res F64 :=
  toDouble v kDouble

/-! ## Numeric arithmetic and comparison -/

/-- Long division loop: quotient and remainder of `q ub + rem` after `t` more
decimal places. -/
def decDivSteps (ub : Int) : Nat → Int → Int → Res (Int × Int)
  | 0, q, rem => .ok (q, rem)
  | t + 1, q, rem =>
      if kNumericUnscaledMax / 10 ≤ q then dbRaise .arithError "numeric 算术结果超界"
      else decDivSteps ub t (q * 10 + rem * 10 / ub) (rem * 10 % ub)

def decDiv (l r : DecimalVal) (rscale : Nat) : Res Int :=
  if r.unscaled = 0 then dbRaise .arithError "numeric 除零"
  else
    let neg : Bool := decide (l.unscaled < 0) != decide (r.unscaled < 0)
    let ua : Int := |l.unscaled|
    let ub : Int := |r.unscaled|
    let t : Int := rscale + r.scale - l.scale
    if t < 0 then dbRaise .internal "expr: numeric 除法标度推导违约"
    else do
      let (q, rem) ← decDivSteps ub t.toNat (ua / ub) (ua % ub)
      let q := if ub ≤ rem * 2 then q + 1 else q
      if kNumericUnscaledMax ≤ q then
        dbRaise .arithError "numeric 算术结果超界"
      pure (if neg then -q else q)

def decResultScale (op : ArithOp) (l r : DecimalVal) : Res Nat :=
  let hi := max l.scale r.scale
  let s := match op with
    | .add | .sub => hi
    | .mul => l.scale + r.scale
    | .div => min (hi + 4) 255
  if 255 < s then dbRaise .arithError "numeric 乘法标度超界"
  else .ok s

def decArith (op : ArithOp) (l r : DecimalVal) (rscale : Nat) : Res Int := do
  let bounded (out : Int) : Res Int :=
    if kNumericUnscaledMax ≤ |out| then dbRaise .arithError "numeric 算术结果超界"
    else .ok out
  match op with
  | .add =>
      bounded ((← decAlign l.unscaled l.scale rscale) + (← decAlign r.unscaled r.scale rscale))
  | .sub =>
      bounded ((← decAlign l.unscaled l.scale rscale) - (← decAlign r.unscaled r.scale rscale))
  | .mul => bounded (l.unscaled * r.unscaled)
  | .div => decDiv l r rscale

/-- Exact comparison: zeros first, then signs, then decimal positions, then
aligned magnitudes. -/
def decCmp (a b : DecimalVal) : Int :=
  let an : Bool := a.unscaled < 0
  let bn : Bool := b.unscaled < 0
  let az : Bool := a.unscaled = 0
  let bz : Bool := b.unscaled = 0
  if az || bz then
    if az && bz then 0
    else if az then (if bn then 1 else -1)
    else if an then -1 else 1
  else if an != bn then (if an then -1 else 1)
  else
    let ua := a.unscaled.natAbs
    let ub := b.unscaled.natAbs
    let ea : Int := decimalDigits ua - a.scale
    let eb : Int := decimalDigits ub - b.scale
    if ea ≠ eb then
      let aSmaller : Bool := ea < eb
      if (if an then !aSmaller else aSmaller) then -1 else 1
    else
      let ma := ua * 10 ^ (b.scale - a.scale)
      let mb := ub * 10 ^ (a.scale - b.scale)
      if ma = mb then 0
      else
        let mSmaller : Bool := ma < mb
        if (if an then !mSmaller else mSmaller) then -1 else 1

/-- `std::string_view::compare`. -/
def bytesCompare : Bytes → Bytes → Int
  | [], [] => 0
  | [], _ :: _ => -1
  | _ :: _, [] => 1
  | a :: as, b :: bs => if a < b then -1 else if b < a then 1 else bytesCompare as bs

/-- Three-way comparison of doubles: neither smaller nor greater is 0. -/
def f64Cmp (l r : F64) : Int :=
  if Flt.lt l r then -1 else if Flt.lt r l then 1 else 0

/-- Comparison inside the numeric family. -/
def numCmp (a b : Value) : Res Int :=
  match a.box, b.box with
  | .int64 l, .int64 r => .ok (if l < r then -1 else if r < l then 1 else 0)
  | .dec l, .dec r => .ok (decCmp l r)
  | .dec l, .int64 r => .ok (decCmp l ⟨r.toInt, 0⟩)
  | .int64 l, .dec r => .ok (decCmp ⟨l.toInt, 0⟩ r)
  | _, _ => do
      let l ← boxF64 a
      let r ← boxF64 b
      pure (f64Cmp l r)

def notComparable : Res Int :=
  dbRaise .internal "expr: 值家族不可比"

theorem notComparable_ne_ok {c : Int} : notComparable ≠ .ok c :=
  dbRaise_ne_ok

/-- Text as compared: the padded side loses its trailing spaces. -/
def compareView (v : Value) (s : Bytes) : Bytes :=
  if v.type.store = .charPad then rtrimSpace s else s

/-- Three-way comparison; NULL is the largest value. -/
def valueCmp (a b : Value) : Res Int :=
  if valueIsNull a || valueIsNull b then
    .ok (if valueIsNull a && valueIsNull b then 0 else if valueIsNull a then 1 else -1)
  else
    match a.type.family with
    | .num => if b.type.family = .num then numCmp a b else notComparable
    | .text =>
        if b.type.family = .text then
          match a.box, b.box with
          | .str l, .str r => .ok (bytesCompare (compareView a l) (compareView b r))
          | _, _ => notComparable
        else notComparable
    | .bool =>
        if b.type.family = .bool then
          match a.box, b.box with
          | .bool l, .bool r => .ok (if l = r then 0 else if l then 1 else -1)
          | _, _ => notComparable
        else notComparable
    | .none => notComparable

/-! ## Operators on evaluated operands -/

def arithOverflowMsg : ArithOp → String
  | .add => "整型加法溢出"
  | .sub => "整型减法溢出"
  | .mul => "整型乘法溢出"
  | .div => "整型除法溢出"

/-- Checked 64-bit arithmetic. -/
def i64Arith (op : ArithOp) (l r : Int64) : Res Int :=
  let checked (out : Int) : Res Int :=
    if out < int64Min ∨ int64Max < out then dbRaise .arithError (arithOverflowMsg op)
    else .ok out
  match op with
  | .add => checked (l.toInt + r.toInt)
  | .sub => checked (l.toInt - r.toInt)
  | .mul => checked (l.toInt * r.toInt)
  | .div =>
      if r = 0 then dbRaise .arithError "整型除零"
      else if l.toInt = int64Min ∧ r = -1 then dbRaise .arithError "整型除法溢出"
      else .ok (l.toInt.tdiv r.toInt)

def fltArith {f : Format} (op : ArithOp) (l r : Flt f) : Flt f :=
  match op with
  | .add => Flt.add l r
  | .sub => Flt.sub l r
  | .mul => Flt.mul l r
  | .div => Flt.div l r

/-- `eval_binary` on evaluated operands. -/
def arithValue (op : ArithOp) (type : TypeAttr) (lv rv : Value) : Res Value :=
  if valueIsNull lv || valueIsNull rv then .ok nullVal
  else
    match type.rep with
    | .dec => do
        let l ← toNumeric lv type
        let r ← toNumeric rv type
        let rs ← decResultScale op l r
        pure (numericVal type (← decArith op l r rs) rs)
    | .float => do
        let out := fltArith op (← toFloat lv type) (← toFloat rv type)
        if !out.isFinite then dbRaise .arithError "浮点运算溢出或除零"
        pure (floatVal type out)
    | .double => do
        let out := fltArith op (← toDouble lv type) (← toDouble rv type)
        if !out.isFinite then dbRaise .arithError "浮点运算溢出或除零"
        pure (doubleVal type out)
    | _ => do
        let out ← i64Arith op (← getInt lv type) (← getInt rv type)
        if type.width = 4 ∧ (out < int32Min ∨ int32Max < out) then
          dbRaise .arithError (arithOverflowMsg op)
        pure (intVal type (Int64.ofInt out))

/-- `eval_neg` on the evaluated operand. -/
def negValue (type : TypeAttr) (v : Value) : Res Value :=
  if valueIsNull v then .ok v
  else
    match type.rep with
    | .float => do pure (floatVal type (← toFloat v type).neg)
    | .double => do pure (doubleVal type (← toDouble v type).neg)
    | .dec => do
        let d ← getDec v
        pure (numericVal type (-d.unscaled) d.scale)
    | _ => do
        let i ← getInt v type
        if i.toInt = int64Min ∨ (type.width = 4 ∧ i.toInt = int32Min) then
          dbRaise .arithError "整型取反溢出"
        pure (intVal type (-i))

/-- Whether a three-way result satisfies a comparison operator. -/
def cmpHolds (op : CmpOp) (c : Int) : Bool :=
  match op with
  | .eq => c = 0
  | .ne => c ≠ 0
  | .lt => c < 0
  | .le => c ≤ 0
  | .gt => 0 < c
  | .ge => 0 ≤ c

/-- `eval_compare` on evaluated operands. -/
def cmpValue (op : CmpOp) (lv rv : Value) : Res Value :=
  if valueIsNull lv || valueIsNull rv then .ok nullVal
  else do
    let c ← valueCmp lv rv
    pure (boolVal kBool (cmpHolds op c))

/-- A logic operand: a boolean or UNKNOWN. -/
def logicOperand (v : Value) : Res (Option Bool) :=
  match v.box with
  | .null => .ok none
  | .bool b => .ok (some b)
  | _ => dbRaise .internal "expr: 逻辑操作数不是布尔"

/-- `eval_logic` on evaluated operands: the dominating value wins over
UNKNOWN. -/
def logicValue (op : LogicOp) (lv rv : Value) : Res Value := do
  let lb ← logicOperand lv
  let rb ← logicOperand rv
  let dominating : Bool := op = .or
  if lb = some dominating ∨ rb = some dominating then pure (boolVal kBool dominating)
  else if lb = none ∨ rb = none then pure nullVal
  else pure (boolVal kBool (!dominating))

/-- `eval_not` on the evaluated operand. -/
def notValue (v : Value) : Res Value := do
  match ← logicOperand v with
  | none => pure v
  | some b => pure (boolVal kBool (!b))

def isNullValue (negate : Bool) (v : Value) : Value :=
  boolVal kBool (if negate then !valueIsNull v else valueIsNull v)

/-- `eval_func_call` on evaluated arguments: a strict overload passes on its
first NULL argument. -/
def funcValue (func : Nat) (strictNull : Bool) (type : TypeAttr) (argv : List Value) :
    Res Value :=
  match if strictNull then argv.find? valueIsNull else none with
  | some v => .ok v
  | none => evalBuiltin func argv type

/-- The range of an int target and the length of a text target. -/
def checkCastBounds (type : TypeAttr) (length : Nat) (out : Value) : Res Unit := do
  if type.rep = .int64 ∧ type.width = 4 then
    match out.box with
    | .int64 i =>
        if i.toInt < int32Min ∨ int32Max < i.toInt then
          dbRaise .valueMismatch "整型值超出 int 可表示范围"
    | _ => dbRaise .internal "expr: cast 产物表示与目标域不符"
  if type.family = .text ∧ 0 < length then
    match out.box with
    | .str s => if length < s.length then dbRaise .valueMismatch "字符串超出目标长度"
    | _ => dbRaise .internal "expr: cast 产物表示与目标域不符"

/-- `eval_cast` on the evaluated operand. -/
def castExprValue (type : TypeAttr) (length scale : Nat) (v : Value) : Res Value :=
  if valueIsNull v then .ok v
  else if type.rep = .dec ∧ 0 < length then coerceNumeric v type length scale .explicit
  else do
    let out ← castValue v type .explicit
    checkCastBounds type length out
    pure out

/-- A constant is its value, unless it is a double that is not finite. -/
def constValue (v : Value) : Res Value :=
  match v.box with
  | .double d => if d.isFinite then .ok v else dbRaise .arithError "浮点字面量超出可表示范围"
  | _ => .ok v

/-! ## The evaluator -/

mutual
/-- Evaluate a bound tree; without a row the tree must not refer to columns. -/
def evalBound : BoundExpr → Option Row → Res Value
  | .const v, _ => constValue v
  | .colRef idx _, row =>
      match row with
      | none => dbRaise .internal "常量上下文不允许引用列"
      | some row =>
          match row.values[idx]? with
          | some v => .ok v
          | none => .error (.crash "行内下标越界")
  | .arith op left right type, row => do
      let lv ← evalBound left row
      let rv ← evalBound right row
      arithValue op type lv rv
  | .neg operand type, row => do negValue type (← evalBound operand row)
  | .cmp op left right, row => do
      let lv ← evalBound left row
      let rv ← evalBound right row
      cmpValue op lv rv
  | .logic op left right, row => do
      let lv ← evalBound left row
      let rv ← evalBound right row
      logicValue op lv rv
  | .not operand, row => do notValue (← evalBound operand row)
  | .isNull operand negate, row => do pure (isNullValue negate (← evalBound operand row))
  | .funcCall func _ strictNull args type, row => do
      funcValue func strictNull type (← evalArgs args row)
  | .cast operand type length scale, row => do
      castExprValue type length scale (← evalBound operand row)

def evalArgs : List BoundExpr → Option Row → Res (List Value)
  | [], _ => .ok []
  | a :: args, row => do
      let v ← evalBound a row
      let vs ← evalArgs args row
      pure (v :: vs)
end

def evalConst (e : BoundExpr) : Res Value :=
  evalBound e none

def evalRow (e : BoundExpr) (row : Row) : Res Value :=
  evalBound e (some row)

/-- The truth a value has as a WHERE condition: UNKNOWN is not satisfied. -/
def truthOf (v : Value) : Res Bool :=
  match v.box with
  | .null => .ok false
  | .bool b => .ok b
  | _ => dbRaise .internal "expr: WHERE 条件不是布尔"

def whereMatch (e : BoundExpr) (row : Row) : Res Bool := do
  truthOf (← evalBound e (some row))

end MySimpleDb.Expr
