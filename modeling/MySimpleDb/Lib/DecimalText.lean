import MySimpleDb.Lib.Binary
import Mathlib.Data.Nat.Digits.Defs

/-!
# Decimal text

Byte strings, decimal numerals, and the two conversions between decimal text
and binary floating point that a standard library offers: correctly rounded
reading and shortest round-trip printing.
-/

namespace MySimpleDb.Lib

/-- A string of bytes. -/
abbrev Bytes : Type := List UInt8

/-- The bytes of an ASCII literal. -/
def ascii (s : String) : Bytes :=
  s.toList.map fun c => UInt8.ofNat c.toNat

def isDigit (c : UInt8) : Bool :=
  48 ≤ c && c ≤ 57

def digitVal (c : UInt8) : Nat :=
  c.toNat - 48

/-- Decimal numeral without leading zeros. -/
def natToText (n : Nat) : Bytes :=
  if n = 0 then [48]
  else (Nat.digits 10 n).reverse.map fun d => UInt8.ofNat (48 + d)

def intToText (i : Int) : Bytes :=
  if i < 0 then 45 :: natToText i.natAbs else natToText i.natAbs

/-- The longest prefix of digits, and what follows it. -/
def spanDigits (s : Bytes) : Bytes × Bytes :=
  s.span isDigit

/-- The number a digit string denotes. -/
def digitsVal (s : Bytes) : Nat :=
  s.foldl (fun n c => n * 10 + digitVal c) 0

/-! ## Reading -/

/-- An exponent part `e[+-]digits`, or nothing at the end of the text. -/
def readExponent : Bytes → Option Int
  | [] => some 0
  | c :: rest =>
      if c = 101 ∨ c = 69 then
        let (neg, body) : Bool × Bytes :=
          match rest with
          | 43 :: body => (false, body)
          | 45 :: body => (true, body)
          | body => (false, body)
        if body = [] ∨ !body.all isDigit then none
        else some (if neg then -(digitsVal body : Int) else digitsVal body)
      else none

/-- A full decimal numeral `[-]digits[.digits][e[+-]digits]`: its sign and
its magnitude. -/
def readNumeral (s : Bytes) : Option (Bool × ℚ) :=
  let (neg, s) : Bool × Bytes :=
    match s with
    | 45 :: rest => (true, rest)
    | rest => (false, rest)
  let (whole, s) := spanDigits s
  let (frac, s) : Bytes × Bytes :=
    match s with
    | 46 :: rest => spanDigits rest
    | rest => ([], rest)
  if whole ++ frac = [] then none
  else
    (readExponent s).map fun e =>
      (neg, (digitsVal (whole ++ frac) : ℚ) * 10 ^ (e - (frac.length : Int)))

/-- `std::from_chars` over the whole text: `none` when the text is not a
decimal numeral or its value leaves the range of the format. -/
def fromChars (f : Format) (s : Bytes) : Option (Flt f) :=
  match readNumeral s with
  | none => none
  | some (neg, q) =>
      if q = 0 then some (Flt.zero neg)
      else
        let x := Flt.ofRat f neg (if neg then -q else q)
        if x.mag = 0 ∨ !x.isFinite then none else some x

/-- Infinities are not read. -/
theorem fromChars_isFinite {f : Format} (expo_le : 2 ≤ f.expo) {s : Bytes} {x : Flt f}
    (parsed : fromChars f s = some x) : x.isFinite = true := by
  unfold fromChars at parsed
  split at parsed
  · cases parsed
  · split at parsed
    · cases parsed
      exact Flt.zero_isFinite expo_le _
    · extract_lets rounded at parsed
      by_cases out : rounded.mag = 0 ∨ (!rounded.isFinite) = true
      · rw [if_pos out] at parsed
        contradiction
      · rw [if_neg out] at parsed
        have in_range := (not_or.mp out).2
        rw [← Option.some.inj parsed]
        simpa using in_range

/-! ## Printing -/

/-- Shortest decimal `n * 10 ^ k` that reads back as the magnitude `mag`,
trying `p`, `p + 1`, ... digits; among two candidates the closer one. -/
def shortestFrom (f : Format) (mag : Nat) (q : ℚ) : Nat → Nat → Nat × Int
  | 0, p => (⌊q / 10 ^ (Int.log 10 q - p + 1)⌋.toNat, Int.log 10 q - p + 1)
  | fuel + 1, p =>
      let k := Int.log 10 q - p + 1
      let below := ⌊q / 10 ^ k⌋.toNat
      let back (n : Nat) : Bool := n ≠ 0 && f.roundMag ((n : ℚ) * 10 ^ k) = mag
      let near_below : Bool := q / 10 ^ k - below ≤ 1 / 2
      if back below && (near_below || !back (below + 1)) then (below, k)
      else if back (below + 1) then (below + 1, k)
      else shortestFrom f mag q fuel (p + 1)

/-- Digits of `n` with the point before the last `places` of them. -/
def fixedText (n places : Nat) : Bytes :=
  let digits := natToText n
  if places = 0 then digits
  else
    let digits := List.replicate (places + 1 - digits.length) 48 ++ digits
    digits.take (digits.length - places) ++ 46 :: digits.drop (digits.length - places)

/-- Scientific notation with at least two exponent digits. -/
def scientificText (n : Nat) (k : Int) : Bytes :=
  let digits := natToText n
  let e := k + (digits.length - 1 : Nat)
  let mantissa :=
    match digits with
    | d :: rest@(_ :: _) => d :: 46 :: rest
    | short => short
  let exponent := natToText e.natAbs
  let padded := if exponent.length < 2 then 48 :: exponent else exponent
  mantissa ++ 101 :: (if e < 0 then 45 else 43) :: padded

/-- `std::format` of a finite datum: the shorter of fixed and scientific
notation of its shortest round-trip digits. -/
def shortestText {f : Format} (x : Flt f) : Bytes :=
  let body :=
    if x.mag = 0 then [48]
    else
      let q := f.magVal x.mag
      let (n, k) := shortestFrom f x.mag q 20 1
      let fixed := if 0 ≤ k then natToText ⌊q⌋.toNat else fixedText n k.natAbs
      let scientific := scientificText n k
      if fixed.length ≤ scientific.length then fixed else scientific
  if x.sign then 45 :: body else body

end MySimpleDb.Lib
