import MySimpleDb.Storage.Decimal

/-!
# Value casts

The dispatch table of value conversions with its three tiers, the conversion
functions, and the normalisation of values to a declared numeric type.
-/

namespace MySimpleDb.Storage

open MySimpleDb.Lib

/-- Cast modes; an entry is usable when its tier is not above the mode. -/
inductive CastMode
  | implicit | assignment | explicit
deriving DecidableEq, Repr

def CastMode.tier : CastMode → Nat
  | .implicit => 0
  | .assignment => 1
  | .explicit => 2

/-! ## Reading a box -/

private def wrongBox {α : Type} : Res α :=
  dbRaise .internal "cast: 值表示与源域不符"

def getI64 (v : Value) : Res Int64 :=
  match v.box with
  | .int64 i => .ok i
  | _ => wrongBox

def getF32 (v : Value) : Res F32 :=
  match v.box with
  | .float x => .ok x
  | _ => wrongBox

def getF64 (v : Value) : Res F64 :=
  match v.box with
  | .double d => .ok d
  | _ => wrongBox

def getStrView (v : Value) : Res Bytes :=
  match v.box with
  | .str s => .ok s
  | _ => wrongBox

def getBool (v : Value) : Res Bool :=
  match v.box with
  | .bool b => .ok b
  | _ => wrongBox

def getDec (v : Value) : Res DecimalVal :=
  match v.box with
  | .dec d => .ok d
  | _ => wrongBox

theorem getI64_eq_ok {v : Value} {i : Int64} : getI64 v = .ok i ↔ v.box = .int64 i := by
  cases box : v.box <;> simp [getI64, wrongBox, box]

theorem getF32_eq_ok {v : Value} {x : F32} : getF32 v = .ok x ↔ v.box = .float x := by
  cases box : v.box <;> simp [getF32, wrongBox, box]

theorem getF64_eq_ok {v : Value} {d : F64} : getF64 v = .ok d ↔ v.box = .double d := by
  cases box : v.box <;> simp [getF64, wrongBox, box]

theorem getDec_eq_ok {v : Value} {d : DecimalVal} : getDec v = .ok d ↔ v.box = .dec d := by
  cases box : v.box <;> simp [getDec, wrongBox, box]

/-- Text without its trailing spaces. -/
def rtrimSpace (s : Bytes) : Bytes :=
  (s.reverse.dropWhile (· == 32)).reverse

/-- Padded text drops the padding, other text is taken as it is. -/
def textView (v : Value) : Res Bytes := do
  let s ← getStrView v
  pure (if v.type.store = .charPad then rtrimSpace s else s)

/-! ## Conversions of contents -/

/-- `std::from_chars` of a 64-bit integer over the whole text. -/
def fromCharsI64 (s : Bytes) : Option Int64 :=
  let (neg, digits) : Bool × Bytes := match s with
    | 45 :: rest => (true, rest)
    | s => (false, s)
  let value : Int := if neg then -(digitsVal digits : Int) else digitsVal digits
  if digits = [] ∨ !digits.all isDigit ∨ value < int64Min ∨ int64Max < value then none
  else some (Int64.ofInt value)

def parseI64 (s : Bytes) : Res Int64 :=
  let s := match s with
    | 43 :: rest => rest
    | s => s
  match fromCharsI64 s with
  | some i => .ok i
  | none => dbRaise .valueMismatch "字符串转数值失败"

def parseF64 (s : Bytes) : Res F64 :=
  let s := match s with
    | 43 :: rest => rest
    | s => s
  match fromChars ⟨52, 11⟩ s with
  | some d => if d.isFinite then .ok d else dbRaise .valueMismatch "字符串转数值失败"
  | none => dbRaise .valueMismatch "字符串转数值失败"

/-- Halves are rounded away from zero. -/
def decRoundI64 (d : DecimalVal) : Res Int64 :=
  if 39 ≤ d.scale then .ok 0
  else
    let p := 10 ^ d.scale
    let mag := d.unscaled.natAbs / p
    let mag := if p ≤ d.unscaled.natAbs % p * 2 then mag + 1 else mag
    if int64Max < mag then dbRaise .valueMismatch "numeric 值超出整型可表示范围"
    else .ok (Int64.ofInt (if d.unscaled < 0 then -(mag : Int) else mag))

def truncToI64 (d : F64) : Res Int64 :=
  if d.isNaN ∨ d.toRat < int64Min ∨ (int64Max : ℚ) + 1 ≤ d.toRat then
    dbRaise .valueMismatch "浮点值超出整型可表示范围"
  else .ok (Int64.ofInt (Flt.truncInt d.toRat))

def narrowF32 (d : F64) : Res F32 :=
  let x : F32 := Flt.convert _ d
  if d.isFinite && !x.isFinite then dbRaise .valueMismatch "浮点值超出 float 可表示范围"
  else .ok x

/-- `static_cast<double>` of a `float`. -/
def widenF64 (x : F32) : F64 :=
  Flt.convert _ x

def decToF64Raw (d : DecimalVal) : Res F64 :=
  parseF64 (decimalToText d)

def lowerByte (c : UInt8) : UInt8 :=
  if 65 ≤ c ∧ c ≤ 90 then c + 32 else c

def parseBool (s : Bytes) : Res Bool :=
  let s := s.map lowerByte
  if s = ascii "true" then .ok true
  else if s = ascii "false" then .ok false
  else dbRaise .valueMismatch "文本转布尔仅接受 true 或 false"

/-- Only exactly 0 and 1 convert to boolean. -/
def decToBool (d : DecimalVal) : Res Bool :=
  if d.unscaled = 0 then .ok false
  else if d.scale < 39 ∧ d.unscaled.natAbs = 10 ^ d.scale then .ok true
  else dbRaise .valueMismatch "数值转布尔仅接受 0 或 1"

def i64ToBool (i : Int64) : Res Bool :=
  if i = 0 then .ok false
  else if i = 1 then .ok true
  else dbRaise .valueMismatch "数值转布尔仅接受 0 或 1"

def fltToBool {f : Format} (x : Flt f) : Res Bool :=
  if Flt.eq x (Flt.zero false) then .ok false
  else if Flt.eq x (Flt.ofInt f 1) then .ok true
  else dbRaise .valueMismatch "数值转布尔仅接受 0 或 1"

/-! ## The dispatch table -/

/-- A conversion function: value to convert and target type. -/
abbrev CastFn : Type := Value → TypeAttr → Res Value

def restamp : CastFn := fun v target => .ok ⟨target, v.box⟩

/-- Narrowing checks the int32 range. -/
def i64Restamp : CastFn := fun v target => do
  if target.width < v.type.width then
    let i ← getI64 v
    if i.toInt < int32Min ∨ int32Max < i.toInt then
      dbRaise .valueMismatch "整型值超出 int 可表示范围"
  pure ⟨target, v.box⟩

def i64ToF32 : CastFn := fun v target => do
  pure (floatVal target (Flt.ofInt _ (← getI64 v).toInt))
def i64ToF64 : CastFn := fun v target => do
  pure (doubleVal target (Flt.ofInt _ (← getI64 v).toInt))
def i64ToText : CastFn := fun v target => do
  pure (strVal target (intToText (← getI64 v).toInt))
def i64ToBoolFn : CastFn := fun v target => do
  pure (boolVal target (← i64ToBool (← getI64 v)))
def i64ToDec : CastFn := fun v target => do
  pure (numericVal target (← getI64 v).toInt 0)

def f32ToI64 : CastFn := fun v target => do
  pure (intVal target (← truncToI64 (widenF64 (← getF32 v))))
def f32ToF64 : CastFn := fun v target => do
  pure (doubleVal target (widenF64 (← getF32 v)))
def f32ToText : CastFn := fun v target => do
  pure (strVal target (shortestText (← getF32 v)))
def f32ToBool : CastFn := fun v target => do
  pure (boolVal target (← fltToBool (← getF32 v)))
def f32ToDec : CastFn := fun v target => do
  let d ← parseDecimalText (shortestText (← getF32 v))
  pure (numericVal target d.unscaled d.scale)

def f64ToI64 : CastFn := fun v target => do
  pure (intVal target (← truncToI64 (← getF64 v)))
def f64ToF32 : CastFn := fun v target => do
  pure (floatVal target (← narrowF32 (← getF64 v)))
def f64ToText : CastFn := fun v target => do
  pure (strVal target (shortestText (← getF64 v)))
def f64ToBool : CastFn := fun v target => do
  pure (boolVal target (← fltToBool (← getF64 v)))
def f64ToDec : CastFn := fun v target => do
  let d ← parseDecimalText (shortestText (← getF64 v))
  pure (numericVal target d.unscaled d.scale)

def textToI64 : CastFn := fun v target => do
  pure (intVal target (← parseI64 (← textView v)))
def textToF32 : CastFn := fun v target => do
  pure (floatVal target (← narrowF32 (← parseF64 (← textView v))))
def textToF64 : CastFn := fun v target => do
  pure (doubleVal target (← parseF64 (← textView v)))
/-- Padded text loses its padding on the way to a variable-length type. -/
def textToText : CastFn := fun v target =>
  if v.type.store = .charPad ∧ target.store = .varLen then do
    pure (strVal target (rtrimSpace (← getStrView v)))
  else .ok ⟨target, v.box⟩
def textToBool : CastFn := fun v target => do
  pure (boolVal target (← parseBool (← textView v)))
def textToDec : CastFn := fun v target => do
  let d ← parseDecimalText (← textView v)
  pure (numericVal target d.unscaled d.scale)

def boolToI64 : CastFn := fun v target => do
  pure (intVal target (if ← getBool v then 1 else 0))
def boolToF32 : CastFn := fun v target => do
  pure (floatVal target (if ← getBool v then Flt.ofInt _ 1 else Flt.zero false))
def boolToF64 : CastFn := fun v target => do
  pure (doubleVal target (if ← getBool v then Flt.ofInt _ 1 else Flt.zero false))
def boolToText : CastFn := fun v target => do
  pure (strVal target (if ← getBool v then ascii "true" else ascii "false"))
def boolToDec : CastFn := fun v target => do
  pure (numericVal target (if ← getBool v then 1 else 0) 0)

def decToI64 : CastFn := fun v target => do
  pure (intVal target (← decRoundI64 (← getDec v)))
def decToF32 : CastFn := fun v target => do
  pure (floatVal target (← narrowF32 (← decToF64Raw (← getDec v))))
def decToF64 : CastFn := fun v target => do
  pure (doubleVal target (← decToF64Raw (← getDec v)))
def decToText : CastFn := fun v target => do
  pure (strVal target (decimalToText (← getDec v)))
def decToBoolFn : CastFn := fun v target => do
  pure (boolVal target (← decToBool (← getDec v)))

/-- Table entry: conversion and tier; no entry for the absent type. -/
def kCastTable : Rep → Rep → Option (CastFn × CastMode)
  | .int64, .int64 => some (i64Restamp, .implicit)
  | .int64, .float => some (i64ToF32, .implicit)
  | .int64, .double => some (i64ToF64, .implicit)
  | .int64, .str => some (i64ToText, .explicit)
  | .int64, .bool => some (i64ToBoolFn, .explicit)
  | .int64, .dec => some (i64ToDec, .implicit)
  | .float, .int64 => some (f32ToI64, .explicit)
  | .float, .float => some (restamp, .implicit)
  | .float, .double => some (f32ToF64, .implicit)
  | .float, .str => some (f32ToText, .explicit)
  | .float, .bool => some (f32ToBool, .explicit)
  | .float, .dec => some (f32ToDec, .explicit)
  | .double, .int64 => some (f64ToI64, .explicit)
  | .double, .float => some (f64ToF32, .assignment)
  | .double, .double => some (restamp, .implicit)
  | .double, .str => some (f64ToText, .explicit)
  | .double, .bool => some (f64ToBool, .explicit)
  | .double, .dec => some (f64ToDec, .explicit)
  | .str, .int64 => some (textToI64, .explicit)
  | .str, .float => some (textToF32, .explicit)
  | .str, .double => some (textToF64, .explicit)
  | .str, .str => some (textToText, .implicit)
  | .str, .bool => some (textToBool, .explicit)
  | .str, .dec => some (textToDec, .explicit)
  | .bool, .int64 => some (boolToI64, .explicit)
  | .bool, .float => some (boolToF32, .explicit)
  | .bool, .double => some (boolToF64, .explicit)
  | .bool, .str => some (boolToText, .explicit)
  | .bool, .bool => some (restamp, .implicit)
  | .bool, .dec => some (boolToDec, .explicit)
  | .dec, .int64 => some (decToI64, .explicit)
  | .dec, .float => some (decToF32, .implicit)
  | .dec, .double => some (decToF64, .implicit)
  | .dec, .str => some (decToText, .explicit)
  | .dec, .bool => some (decToBoolFn, .explicit)
  | .dec, .dec => some (restamp, .implicit)
  | .none, _ => none
  | _, .none => none

/-- The tier that counts: bigint to int is an assignment cast. -/
def castTier (v : Value) (target : TypeAttr) (tier : CastMode) : CastMode :=
  if v.type.rep = .int64 ∧ target.rep = .int64 ∧ target.width < v.type.width then .assignment
  else tier

def castValue (v : Value) (target : TypeAttr) (mode : CastMode := .implicit) : Res Value :=
  if valueIsNull v then dbRaise .internal "cast: 不接受 NULL"
  else
    match kCastTable v.type.rep target.rep with
    | none => dbRaise .internal "cast: 无转换"
    | some (fn, tier) =>
        if mode.tier < (castTier v target tier).tier then dbRaise .internal "cast: 无转换"
        else fn v target

/-! ## Declared numeric targets -/

/-- Multiply up to a larger scale, raising once the magnitude has 39 digits. -/
def coerceScaleUp : Nat → Int → Res Int
  | 0, u => .ok u
  | n + 1, u =>
      if u * 10 ≠ 0 ∧ kNumericUnscaledMax ≤ |u * 10| then
        dbRaise .valueMismatch "数值超出 numeric 可表示范围"
      else coerceScaleUp n (u * 10)

/-- Powers of ten in the 256-bit integer of the source, whose products wrap. -/
def pow10 : Nat → Nat
  | 0 => 1
  | n + 1 => pow10 n * 10 % 2 ^ 256

/-- Divide down to a smaller scale, halves away from zero; the sign of the
correction is read off the truncated quotient, as the source does. -/
def coerceScaleDown (u : Int) (drop : Nat) : Int :=
  let p : Int := pow10 drop
  let r := u.tmod p
  let q := u.tdiv p
  if p ≤ |r| * 2 then (if q < 0 then q - 1 else q + 1) else q

/-- Number of decimal digits of a magnitude; zero has none. -/
def decimalDigits (mag : Nat) : Nat :=
  (Nat.digits 10 mag).length

/-- The unscaled value at the declared scale. -/
def coerceScale (d : DecimalVal) (scale : Nat) : Res Int :=
  if scale < d.scale then .ok (coerceScaleDown d.unscaled (d.scale - scale))
  else coerceScaleUp (scale - d.scale) d.unscaled

def coerceNumeric (v : Value) (target : TypeAttr) (precision scale : Nat)
    (mode : CastMode) : Res Value := do
  let d ← getDec (← castValue v target mode)
  let u ← coerceScale d scale
  if 0 < precision ∧ precision < decimalDigits u.natAbs then
    dbRaise .valueMismatch "numeric 值超出声明精度"
  pure (numericVal target u scale)

end MySimpleDb.Storage
