import MySimpleDb.Storage.Cast

/-!
# Built-in functions

Implementations of the function overloads and the evaluation table indexed by
`func_id`.
-/

namespace MySimpleDb.Expr

open MySimpleDb.Lib MySimpleDb.Storage

/-! ## Numeric helpers -/

/-- Multiply by ten `n` times; a magnitude of 39 digits is an error. -/
def decAlignUp : Nat → Int → Res Int
  | 0, u => .ok u
  | n + 1, u =>
      if u * 10 ≠ 0 ∧ kNumericUnscaledMax ≤ |u * 10| then
        dbRaise .arithError "numeric 算术结果超界"
      else decAlignUp n (u * 10)

/-- Bring an unscaled value from one scale up to another. -/
def decAlign (u : Int) (src dst : Nat) : Res Int :=
  decAlignUp (dst - src) u

def decPow10 (e : Int) : Res Int :=
  if e < 0 ∨ 38 < e then dbRaise .internal "expr: 10 的幂指数超界"
  else .ok (10 ^ e.toNat)

/-- Magnitude left of decimal `n`, halves away from zero; with `n` negative
the dropped digits come back as zeros. -/
def roundQuotient (d : DecimalVal) (n : Int) : Res Int :=
  let ua : Int := |d.unscaled|
  let shift := (d.scale : Int) - n
  if shift < 39 then do
    let p ← decPow10 shift
    let q := if p ≤ ua % p * 2 then ua / p + 1 else ua / p
    if n < 0 then
      let back ← decPow10 (-n)
      pure (q * back)
    else pure q
  else .ok 0

/-- Round to `n` decimals, halves away from zero; `n` may be negative. -/
def roundDec (d : DecimalVal) (n : Int) (ret : TypeAttr) : Res Value :=
  if (d.scale : Int) ≤ n then .ok (numericVal ret d.unscaled d.scale)
  else do
    let q ← roundQuotient d n
    if kNumericUnscaledMax ≤ q then
      dbRaise .arithError "numeric 算术结果超界"
    pure (numericVal ret (if d.unscaled < 0 then -q else q) (if n < 0 then 0 else n.toNat))

/-- Round towards minus infinity, or towards plus infinity when `up`. -/
def truncDec (d : DecimalVal) (up : Bool) (ret : TypeAttr) : Res Value :=
  if d.scale = 0 then .ok (numericVal ret d.unscaled 0)
  else
    let neg : Bool := d.unscaled < 0
    if 39 ≤ d.scale then
      let out : Int :=
        if d.unscaled = 0 then 0
        else if up then (if neg then 0 else 1) else (if neg then -1 else 0)
      .ok (numericVal ret out 0)
    else do
      let p ← decPow10 d.scale
      let ua : Int := |d.unscaled|
      let q := if ua % p ≠ 0 ∧ up != neg then ua / p + 1 else ua / p
      pure (numericVal ret (if neg then -q else q) 0)

/-! ## Reading arguments -/

private def wrongBox {α : Type} : Res α :=
  dbRaise .internal "expr: 值表示与数值域不符"

def getDec (v : Value) : Res DecimalVal :=
  match v.box with
  | .dec d => .ok d
  | _ => wrongBox

def getI64 (v : Value) : Res Int64 :=
  match v.box with
  | .int64 i => .ok i
  | _ => wrongBox

def getF32 (v : Value) : Res F32 :=
  match v.box with
  | .float x => .ok x
  | _ => wrongBox

def getF64 (v : Value) : Res F64 :=
  match v.box with
  | .double d => .ok d
  | _ => wrongBox

theorem getF32_eq_ok {v : Value} {x : F32} : getF32 v = .ok x ↔ v.box = .float x := by
  cases box : v.box <;> simp [getF32, wrongBox, box]

theorem getF64_eq_ok {v : Value} {d : F64} : getF64 v = .ok d ↔ v.box = .double d := by
  cases box : v.box <;> simp [getF64, wrongBox, box]

/-- `args[i]`; reading past the arguments is undefined in the source. -/
def argAt (args : List Value) (i : Nat) : Res Value :=
  match args[i]? with
  | some v => .ok v
  | none => .error (.crash "实参下标越界")

/-! ## Implementations -/

abbrev FuncEval : Type := List Value → TypeAttr → Res Value

/-- `abs` of an integer whose domain starts at `low`. -/
def evalAbsInteger (low : Int) : FuncEval := fun args ret => do
  let i ← getI64 (← argAt args 0)
  if i.toInt = low then dbRaise .arithError "整型绝对值溢出"
  pure (intVal ret (if i < 0 then -i else i))

def evalAbsInt : FuncEval := evalAbsInteger int32Min
def evalAbsBigint : FuncEval := evalAbsInteger int64Min

/-- A function of one double argument. -/
def evalDouble (f : F64 → F64) : FuncEval := fun args ret => do
  pure (doubleVal ret (f (← getF64 (← argAt args 0))))

/-- A function of one float argument. -/
def evalFloat (f : F32 → F32) : FuncEval := fun args ret => do
  pure (floatVal ret (f (← getF32 (← argAt args 0))))

/-- Integers have no fraction: the argument itself. -/
def evalInteger : FuncEval := fun args ret => do
  pure (intVal ret (← getI64 (← argAt args 0)))

def evalAbsDouble : FuncEval := evalDouble Flt.abs
def evalAbsFloat : FuncEval := evalFloat Flt.abs
def evalAbsNumeric : FuncEval := fun args ret => do
  let d ← getDec (← argAt args 0)
  pure (numericVal ret |d.unscaled| d.scale)

def evalRoundInt : FuncEval := evalInteger
def evalRoundBigint : FuncEval := evalInteger
def evalRoundDouble : FuncEval := evalDouble (Flt.toIntegral Flt.roundHalfAway)
def evalRoundFloat : FuncEval := evalFloat (Flt.toIntegral Flt.roundHalfAway)
def evalRoundNumeric : FuncEval := fun args ret => do
  roundDec (← getDec (← argAt args 0)) 0 ret
def evalRoundNumericInt : FuncEval := fun args ret => do
  roundDec (← getDec (← argAt args 0)) (← getI64 (← argAt args 1)).toInt ret

def evalFloorInt : FuncEval := evalInteger
def evalFloorBigint : FuncEval := evalInteger
def evalFloorDouble : FuncEval := evalDouble (Flt.toIntegral Int.floor)
def evalFloorFloat : FuncEval := evalFloat (Flt.toIntegral Int.floor)
def evalFloorNumeric : FuncEval := fun args ret => do
  truncDec (← getDec (← argAt args 0)) false ret

def evalCeilInt : FuncEval := evalInteger
def evalCeilBigint : FuncEval := evalInteger
def evalCeilDouble : FuncEval := evalDouble (Flt.toIntegral Int.ceil)
def evalCeilFloat : FuncEval := evalFloat (Flt.toIntegral Int.ceil)
def evalCeilNumeric : FuncEval := fun args ret => do
  truncDec (← getDec (← argAt args 0)) true ret

/-- Truncated remainder; the remainder of the minimum by `-1` is 0. -/
def evalModInteger : FuncEval := fun args ret => do
  let l ← getI64 (← argAt args 0)
  let r ← getI64 (← argAt args 1)
  if r = 0 then dbRaise .arithError "整型取余除零"
  if l.toInt = int64Min ∧ r = -1 then pure (intVal ret 0)
  else pure (intVal ret (Int64.ofInt (l.toInt.tmod r.toInt)))

def evalModInt : FuncEval := evalModInteger
def evalModBigint : FuncEval := evalModInteger
def evalModDouble : FuncEval := fun args ret => do
  let out := Flt.fmod (← getF64 (← argAt args 0)) (← getF64 (← argAt args 1))
  if !out.isFinite then dbRaise .arithError "浮点取余除零"
  pure (doubleVal ret out)
def evalModFloat : FuncEval := fun args ret => do
  let out := Flt.fmod (← getF32 (← argAt args 0)) (← getF32 (← argAt args 1))
  if !out.isFinite then dbRaise .arithError "浮点取余除零"
  pure (floatVal ret out)
def evalModNumeric : FuncEval := fun args ret => do
  let l ← getDec (← argAt args 0)
  let r ← getDec (← argAt args 1)
  if r.unscaled = 0 then dbRaise .arithError "numeric 取余除零"
  let s := max l.scale r.scale
  let lu ← decAlign l.unscaled l.scale s
  let ru ← decAlign r.unscaled r.scale s
  pure (numericVal ret (lu.tmod ru) s)

/-- `kFuncTable`: the slot of `func_id`; slot 0 is empty. -/
def kFuncTable : List (Option FuncEval) :=
  [none,
   some evalAbsInt, some evalAbsBigint, some evalAbsDouble, some evalAbsFloat,
   some evalAbsNumeric,
   some evalRoundInt, some evalRoundBigint, some evalRoundDouble, some evalRoundFloat,
   some evalRoundNumeric, some evalRoundNumericInt,
   some evalFloorInt, some evalFloorBigint, some evalFloorDouble, some evalFloorFloat,
   some evalFloorNumeric,
   some evalCeilInt, some evalCeilBigint, some evalCeilDouble, some evalCeilFloat,
   some evalCeilNumeric,
   some evalModInt, some evalModBigint, some evalModDouble, some evalModFloat,
   some evalModNumeric]

def evalBuiltin (funcId : Nat) (args : List Value) (ret : TypeAttr) : Res Value :=
  match kFuncTable[funcId]? with
  | some (some fn) => fn args ret
  | _ => dbRaise .internal "expr: 未知内建函数"

end MySimpleDb.Expr
