import MySimpleDb.Storage.Types

/-!
# Fixed-point decimals as text

The scanner for decimal literals and the printer, digit by digit as the source
does them: the magnitude check runs after every digit, the exponent is bounded
while it is read, and a negative scale is removed by multiplying back.
-/

namespace MySimpleDb.Storage

open MySimpleDb.Lib

/-- The mantissa scanned so far: unscaled value, scale, whether a digit was
seen, and the text left. -/
structure DecimalScan where
  unscaled : Int := 0
  scale : Int := 0
  any : Bool := false
  rest : Bytes

/-- `take_digits` of `parse_decimal_text`. -/
def takeDigits (frac : Bool) (scan : DecimalScan) : Res DecimalScan :=
  go scan.rest scan.unscaled scan.scale scan.any
where
  go : Bytes → Int → Int → Bool → Res DecimalScan
  | [], u, scale, any => .ok ⟨u, scale, any, []⟩
  | c :: rest, u, scale, any =>
      if isDigit c then
        let u := u * 10 + digitVal c
        let scale := if frac then scale + 1 else scale
        if kNumericUnscaledMax ≤ u then
          dbRaise .valueMismatch "数值超出 numeric 可表示范围"
        else go rest u scale true
      else .ok ⟨u, scale, any, c :: rest⟩

/-- The digits of the exponent part: value, whether a digit was seen, and the
text left. -/
def takeExponent : Bytes → Int → Bool → Res (Int × Bool × Bytes)
  | [], e, any => .ok (e, any, [])
  | c :: rest, e, any =>
      if isDigit c then
        let e := e * 10 + digitVal c
        if 1000 < e then dbRaise .valueMismatch "数值超出 numeric 可表示范围"
        else takeExponent rest e true
      else .ok (e, any, c :: rest)

/-- A sign character in front, if there is one. -/
def takeSign : Bytes → Bool × Bytes
  | 43 :: rest => (false, rest)
  | 45 :: rest => (true, rest)
  | rest => (false, rest)

/-- Multiply by ten `n` times, checking the magnitude after each step. -/
def scaleUp : Nat → Int → Res Int
  | 0, u => .ok u
  | n + 1, u =>
      if kNumericUnscaledMax ≤ u * 10 then
        dbRaise .valueMismatch "数值超出 numeric 可表示范围"
      else scaleUp n (u * 10)

def parseDecimalText (s : Bytes) : Res DecimalVal := do
  let (neg, s) := takeSign s
  let scan ← takeDigits false { rest := s }
  let scan ←
    match scan.rest with
    | 46 :: rest => takeDigits true { scan with rest := rest }
    | _ => pure scan
  if !scan.any then
    dbRaise .valueMismatch "字符串转数值失败"
  let (e, rest) ←
    match scan.rest with
    | c :: rest =>
        if c = 101 ∨ c = 69 then do
          let (eneg, rest) := takeSign rest
          let (e, eany, rest) ← takeExponent rest 0 false
          if !eany then
            dbRaise .valueMismatch "字符串转数值失败"
          pure (if eneg then -e else e, rest)
        else pure (0, scan.rest)
    | [] => pure (0, [])
  if rest ≠ [] then
    dbRaise .valueMismatch "字符串转数值失败"
  let scale := scan.scale - e
  let u ← if scale < 0 then scaleUp scale.natAbs scan.unscaled else pure scan.unscaled
  let scale := if scale < 0 then 0 else scale
  if 255 < scale then
    dbRaise .valueMismatch "数值超出 numeric 可表示范围"
  pure ⟨if neg then -u else u, scale.toNat⟩

def decimalToText (d : DecimalVal) : Bytes :=
  let body := fixedText d.unscaled.natAbs d.scale
  if d.unscaled < 0 then 45 :: body else body

end MySimpleDb.Storage
