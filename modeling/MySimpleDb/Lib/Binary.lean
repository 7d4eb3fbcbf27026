import Mathlib.Data.Int.Log
import Mathlib.Algebra.Order.Round
import Mathlib.Data.Rat.Floor
import Mathlib.Algebra.Order.Field.Power
import Mathlib.Tactic.Linarith
import Mathlib.Tactic.Positivity
import Mathlib.Tactic.Ring
import Mathlib.Tactic.FieldSimp

/-!
# Binary floating-point formats

A format is a number of mantissa bits and a number of exponent bits.  A datum
is a sign together with a magnitude pattern, the exponent and mantissa fields
read as one natural number.  Read that way the patterns are already in the
order of the numbers they denote, which is what order-preserving key encodings
rely on; `magVal_strictMono` is that fact.

Arithmetic rounds an exact rational result to the nearest datum, ties to even.
-/

namespace MySimpleDb.Lib

/-- A binary interchange format. -/
structure Format where
  mant : Nat
  expo : Nat

namespace Format

/-- Exponent of the unit in the last place of the subnormal numbers. -/
def ulpMin (f : Format) : Int :=
  2 - 2 ^ (f.expo - 1) - f.mant

/-- The magnitude pattern of infinity; larger patterns are not numbers. -/
def infMag (f : Format) : Nat :=
  (2 ^ f.expo - 1) * 2 ^ f.mant

/-- The number denoted by a magnitude pattern.  The pattern of infinity gets
the value the next binade would start with. -/
def magVal (f : Format) (mag : Nat) : ℚ :=
  let field := mag / 2 ^ f.mant
  let low := mag % 2 ^ f.mant
  if field = 0 then (low : ℚ) * 2 ^ f.ulpMin
  else ((2 ^ f.mant + low : Nat) : ℚ) * 2 ^ (f.ulpMin + (field - 1 : Nat))

/-- Nearest integer, ties to even. -/
def roundEven (q : ℚ) : Int :=
  let below := ⌊q⌋
  let rest := q - below
  if rest < 1 / 2 then below
  else if 1 / 2 < rest then below + 1
  else if below % 2 = 0 then below else below + 1

/-- Magnitude pattern nearest to a positive rational, saturating at infinity. -/
def roundMag (f : Format) (q : ℚ) : Nat :=
  let unit := max (Int.log 2 q - f.mant) f.ulpMin
  let digits := roundEven (q / 2 ^ unit)
  min ((unit - f.ulpMin).toNat * 2 ^ f.mant + digits.toNat) f.infMag

/-! ## The pattern order is the numeric order -/

theorem magVal_nonneg (f : Format) (mag : Nat) : 0 ≤ f.magVal mag := by
  simp only [magVal]
  split <;> positivity

/-- A pattern whose exponent field is `field` and mantissa field is `low`. -/
theorem magVal_fields (f : Format) (field : Nat) {low : Nat}
    (low_lt : low < 2 ^ f.mant) :
    f.magVal (field * 2 ^ f.mant + low) =
      if field = 0 then (low : ℚ) * 2 ^ f.ulpMin
      else ((2 ^ f.mant + low : Nat) : ℚ) * 2 ^ (f.ulpMin + (field - 1 : Nat)) := by
  have pos : 0 < 2 ^ f.mant := by positivity
  have field_eq : (field * 2 ^ f.mant + low) / 2 ^ f.mant = field := by
    rw [Nat.add_comm, Nat.add_mul_div_right _ _ pos, Nat.div_eq_of_lt low_lt,
      Nat.zero_add]
  have low_eq : (field * 2 ^ f.mant + low) % 2 ^ f.mant = low := by
    rw [Nat.add_comm, Nat.add_mul_mod_self_right, Nat.mod_eq_of_lt low_lt]
  simp only [magVal, field_eq, low_eq]

/-- The first pattern of a binade continues the previous binade. -/
theorem magVal_binade (f : Format) (field : Nat) :
    f.magVal ((field + 1) * 2 ^ f.mant) =
      (2 ^ f.mant : ℚ) * 2 ^ (f.ulpMin + field) := by
  have low_lt : 0 < 2 ^ f.mant := by positivity
  simpa using magVal_fields f (field + 1) low_lt

private theorem magVal_lt_succ (f : Format) (mag : Nat) :
    f.magVal mag < f.magVal (mag + 1) := by
  have pos : 0 < 2 ^ f.mant := by positivity
  obtain ⟨field, low, low_lt, rfl⟩ :
      ∃ field low, low < 2 ^ f.mant ∧ mag = field * 2 ^ f.mant + low :=
    ⟨mag / 2 ^ f.mant, mag % 2 ^ f.mant, Nat.mod_lt _ pos,
      (Nat.div_add_mod' mag (2 ^ f.mant)).symm⟩
  rw [magVal_fields f field low_lt]
  rcases Nat.lt_or_ge (low + 1) (2 ^ f.mant) with inside | carry
  · -- the successor stays in the binade: one unit in the last place more
    rw [Nat.add_assoc, magVal_fields f field inside]
    split
    · have : (0 : ℚ) < 2 ^ f.ulpMin := by positivity
      push_cast
      linarith
    · have : (0 : ℚ) < 2 ^ (f.ulpMin + (field - 1 : Nat)) := by positivity
      push_cast
      linarith
  · -- the successor opens the next binade
    have low_eq : low + 1 = 2 ^ f.mant := by omega
    have low_cast : (low : ℚ) = 2 ^ f.mant - 1 := by
      have := congrArg (Nat.cast (R := ℚ)) low_eq
      push_cast at this
      linarith
    have next : field * 2 ^ f.mant + low + 1 = (field + 1) * 2 ^ f.mant := by
      rw [Nat.add_assoc, low_eq]; ring
    rw [next, magVal_binade]
    split
    · rename_i field_eq
      subst field_eq
      have : (0 : ℚ) < 2 ^ f.ulpMin := by positivity
      rw [low_cast]
      simp only [Nat.cast_zero, add_zero]
      linarith
    · rename_i field_ne
      obtain ⟨k, rfl⟩ : ∃ k, field = k + 1 := ⟨field - 1, by omega⟩
      have step : (2 : ℚ) ^ (f.ulpMin + ((k + 1 : Nat) : Int)) =
          2 ^ (f.ulpMin + (k : Int)) * 2 := by
        rw [Nat.cast_add, ← add_assoc, zpow_add₀ (by norm_num)]
        norm_num
      have : (0 : ℚ) < 2 ^ (f.ulpMin + (k : Int)) := by positivity
      simp only [Nat.add_sub_cancel]
      rw [step]
      push_cast
      rw [low_cast]
      nlinarith

/-- Larger patterns denote larger numbers. -/
theorem magVal_strictMono (f : Format) : StrictMono f.magVal :=
  strictMono_nat_of_lt_succ (magVal_lt_succ f)

@[simp]
theorem magVal_zero (f : Format) : f.magVal 0 = 0 := by
  simp [magVal]

/-! ## Rounding stays finite -/

/-- The largest finite number. -/
def maxVal (f : Format) : ℚ :=
  ((2 ^ (f.mant + 1) - 1 : Nat) : ℚ) * 2 ^ (f.ulpMin + (2 ^ f.expo - 3 : Nat))

/-- Rounding does not pass an integer. -/
theorem roundEven_le {q : ℚ} {n : Int} (le : q ≤ n) : roundEven q ≤ n := by
  have below_le : (⌊q⌋ : ℚ) ≤ q := Int.floor_le q
  have floor_le : ⌊q⌋ ≤ n := by exact_mod_cast below_le.trans le
  have up (rest : 0 < q - ⌊q⌋) : ⌊q⌋ + 1 ≤ n := by
    have : (⌊q⌋ : ℚ) < n := by linarith
    exact_mod_cast this
  simp only [roundEven]
  split_ifs with low high even
  · exact floor_le
  · exact up (by linarith)
  · exact floor_le
  · exact up (by linarith)

private theorem two_pow_mul (n : Nat) (e : Int) :
    ((2 ^ n : Nat) : ℚ) * 2 ^ e = 2 ^ ((n : Int) + e) := by
  rw [zpow_add₀ (by norm_num), zpow_natCast]
  push_cast
  rfl

/-- A number up to the largest finite one rounds to a finite pattern. -/
theorem roundMag_lt_infMag {f : Format} (expo_le : 2 ≤ f.expo) {q : ℚ} (pos : 0 < q)
    (le : q ≤ f.maxVal) : f.roundMag q < f.infMag := by
  have two_pow : (4 : Nat) ≤ 2 ^ f.expo := by
    calc 4 = 2 ^ 2 := by norm_num
      _ ≤ 2 ^ f.expo := Nat.pow_le_pow_right (by norm_num) expo_le
  have mant_pos : 0 < 2 ^ f.mant := by positivity
  set top : Int := f.ulpMin + (2 ^ f.expo - 3 : Nat) with top_eq
  set unit : Int := max (Int.log 2 q - f.mant) f.ulpMin with unit_eq
  have unit_pos : (0 : ℚ) < 2 ^ unit := by positivity
  -- the binade of `q` is at most the last one
  have log_lt : Int.log 2 q < f.mant + 1 + top := by
    rw [← Int.lt_zpow_iff_log_lt (by norm_num) pos]
    calc q ≤ f.maxVal := le
      _ < (2 ^ (f.mant + 1) : Nat) * (2 : ℚ) ^ top := by
          apply mul_lt_mul_of_pos_right _ (by positivity)
          exact_mod_cast Nat.sub_lt (by positivity) (by norm_num)
      _ = ((2 : Nat) : ℚ) ^ ((f.mant : Int) + 1 + top) := by
          simpa using two_pow_mul (f.mant + 1) top
  have unit_le : unit ≤ top := max_le (by omega) (by omega)
  have low_le : f.ulpMin ≤ unit := le_max_right _ _
  have digits_nonneg (n : Nat) (bound : q / 2 ^ unit ≤ n) :
      (roundEven (q / 2 ^ unit)).toNat ≤ n := by
    have := roundEven_le (q := q / 2 ^ unit) (n := n) (by exact_mod_cast bound)
    omega
  refine lt_of_le_of_lt (min_le_left _ _) ?_
  rw [← unit_eq]
  rcases eq_or_lt_of_le unit_le with last | earlier
  · have digits := digits_nonneg (2 ^ (f.mant + 1) - 1) (by
      rw [div_le_iff₀ unit_pos, last]
      exact le)
    have steps : (unit - f.ulpMin).toNat = 2 ^ f.expo - 3 := by omega
    rw [steps, infMag]
    obtain ⟨n, n_eq⟩ : ∃ n, 2 ^ f.expo = n + 3 := ⟨2 ^ f.expo - 3, by omega⟩
    rw [n_eq, pow_succ] at *
    simp only [Nat.add_sub_cancel]
    have : (n + 3 - 1) * 2 ^ f.mant = n * 2 ^ f.mant + 2 ^ f.mant * 2 := by
      rw [show n + 3 - 1 = n + 2 by omega]; ring
    omega
  · have digits := digits_nonneg (2 ^ (f.mant + 1)) (by
      rw [div_le_iff₀ unit_pos]
      have bound : q < (2 : ℚ) ^ (Int.log 2 q + 1) := Int.lt_zpow_succ_log_self (by norm_num) q
      have mono : (2 : ℚ) ^ (Int.log 2 q + 1) ≤ 2 ^ ((f.mant : Int) + 1 + unit) :=
        zpow_le_zpow_right₀ (by norm_num) (by omega)
      calc q ≤ (2 : ℚ) ^ ((f.mant : Int) + 1 + unit) := (bound.le).trans mono
        _ = ((2 ^ (f.mant + 1) : Nat) : ℚ) * 2 ^ unit := by
            simpa using (two_pow_mul (f.mant + 1) unit).symm)
    obtain ⟨n, n_eq⟩ : ∃ n, 2 ^ f.expo = n + 4 := ⟨2 ^ f.expo - 4, by omega⟩
    have steps : (unit - f.ulpMin).toNat ≤ n := by omega
    have scaled := Nat.mul_le_mul_right (2 ^ f.mant) steps
    rw [infMag, n_eq]
    rw [pow_succ] at digits
    have : (n + 4 - 1) * 2 ^ f.mant = n * 2 ^ f.mant + 2 ^ f.mant * 3 := by
      rw [show n + 4 - 1 = n + 3 by omega]; ring
    omega

end Format

/-- A datum of a format: sign and magnitude pattern. -/
structure Flt (f : Format) where
  sign : Bool
  mag : Nat
  mag_lt : mag < 2 ^ (f.expo + f.mant)
deriving DecidableEq

namespace Flt

variable {f : Format}

/-- Positive or negative zero. -/
def zero (neg : Bool) : Flt f :=
  ⟨neg, 0, by positivity⟩

/-- The number denoted by a datum that is not a NaN. -/
def toRat (x : Flt f) : ℚ :=
  if x.sign then -f.magVal x.mag else f.magVal x.mag

def isNaN (x : Flt f) : Bool :=
  f.infMag < x.mag

def isFinite (x : Flt f) : Bool :=
  x.mag < f.infMag

theorem isFinite_iff {x : Flt f} : x.isFinite = true ↔ x.mag < f.infMag :=
  decide_eq_true_iff

theorem isFinite_not_isNaN {x : Flt f} (finite : x.isFinite = true) :
    x.isNaN = false := by
  simp only [isFinite, decide_eq_true_eq] at finite
  simp only [isNaN, decide_eq_false_iff_not, not_lt]
  omega

/-- Numeric `<`: false as soon as one side is a NaN. -/
def lt (x y : Flt f) : Bool :=
  !x.isNaN && !y.isNaN && decide (x.toRat < y.toRat)

/-- Numeric `==`: both zeros are equal and a NaN equals nothing. -/
def eq (x y : Flt f) : Bool :=
  !x.isNaN && !y.isNaN && decide (x.toRat = y.toRat)

theorem lt_eq_decide {x y : Flt f} (x_finite : x.isFinite = true)
    (y_finite : y.isFinite = true) : lt x y = decide (x.toRat < y.toRat) := by
  simp [lt, isFinite_not_isNaN x_finite, isFinite_not_isNaN y_finite]

@[simp]
theorem lt_irrefl (x : Flt f) : lt x x = false := by
  simp [lt]

theorem toRat_zero (neg : Bool) : (zero neg : Flt f).toRat = 0 := by
  simp [toRat, zero]

/-- The bit pattern, sign bit first. -/
def toBits (x : Flt f) : Nat :=
  (if x.sign then 2 ^ (f.expo + f.mant) else 0) + x.mag

/-- The datum stored in a bit pattern. -/
def ofBits (f : Format) (bits : Nat) : Flt f :=
  ⟨decide (2 ^ (f.expo + f.mant) ≤ bits), bits % 2 ^ (f.expo + f.mant),
    Nat.mod_lt _ (by positivity)⟩

@[simp]
theorem ofBits_toBits (x : Flt f) : ofBits f x.toBits = x := by
  rcases x with ⟨sign, mag, mag_lt⟩
  cases sign
  · simp [ofBits, toBits, Nat.mod_eq_of_lt mag_lt, Nat.not_le.mpr mag_lt]
  · simp [ofBits, toBits, Nat.mod_eq_of_lt mag_lt]

theorem toBits_lt (x : Flt f) : x.toBits < 2 ^ (f.expo + f.mant + 1) := by
  have := x.mag_lt
  rw [pow_succ]
  unfold toBits
  split <;> omega

private theorem infMag_lt (f : Format) : f.infMag < 2 ^ (f.expo + f.mant) := by
  have pos : 0 < 2 ^ f.mant := by positivity
  have one : 0 < 2 ^ f.expo := by positivity
  rw [pow_add]
  exact Nat.mul_lt_mul_of_pos_right (by omega) pos

/-- The infinity of a sign. -/
def inf (neg : Bool) : Flt f :=
  ⟨neg, f.infMag, infMag_lt f⟩

/-- Round a rational to the nearest datum, ties to even; `neg` is the sign a
zero result gets. -/
def ofRat (f : Format) (neg : Bool) (q : ℚ) : Flt f :=
  if q = 0 then zero neg
  else ⟨decide (q < 0), f.roundMag |q|,
    lt_of_le_of_lt (min_le_right _ _) (infMag_lt f)⟩

/-! ## Operations -/

def ofInt (f : Format) (i : Int) : Flt f :=
  ofRat f false i

/-- Convert between formats: exact when widening, rounding when narrowing. -/
def convert {g : Format} (f : Format) (x : Flt g) : Flt f :=
  if x.isFinite then ofRat f x.sign x.toRat
  else if x.isNaN then ⟨x.sign, 2 ^ (f.expo + f.mant) - 1, by
    have : 0 < 2 ^ (f.expo + f.mant) := by positivity
    omega⟩
  else inf x.sign

def neg (x : Flt f) : Flt f :=
  { x with sign := !x.sign }

def abs (x : Flt f) : Flt f :=
  { x with sign := false }

/-- The NaN an invalid operation produces. -/
def nan (f : Format) : Flt f :=
  ⟨true, 2 ^ (f.expo + f.mant) - 1, by
    have : 0 < 2 ^ (f.expo + f.mant) := by positivity
    omega⟩

def add (x y : Flt f) : Flt f :=
  if x.isNaN || y.isNaN then nan f
  else if x.isFinite && y.isFinite then
    ofRat f (x.sign && y.sign) (x.toRat + y.toRat)
  else if x.isFinite then y
  else if y.isFinite || x.sign == y.sign then x
  else nan f

def sub (x y : Flt f) : Flt f :=
  if y.isNaN then nan f else add x y.neg

def mul (x y : Flt f) : Flt f :=
  if x.isNaN || y.isNaN then nan f
  else if x.isFinite && y.isFinite then
    ofRat f (x.sign != y.sign) (x.toRat * y.toRat)
  else if x.mag = 0 || y.mag = 0 then nan f
  else inf (x.sign != y.sign)

def div (x y : Flt f) : Flt f :=
  if x.isNaN || y.isNaN then nan f
  else if x.isFinite && y.isFinite then
    if y.mag = 0 then (if x.mag = 0 then nan f else inf (x.sign != y.sign))
    else ofRat f (x.sign != y.sign) (x.toRat / y.toRat)
  else if y.isFinite then inf (x.sign != y.sign)
  else if x.isFinite then zero (x.sign != y.sign)
  else nan f

/-- Integer part, towards zero. -/
def truncInt (q : ℚ) : Int :=
  if q < 0 then ⌈q⌉ else ⌊q⌋

/-- `fmod`: the remainder of truncated division, with the sign of `x`. -/
def fmod (x y : Flt f) : Flt f :=
  if x.isNaN || y.isNaN || !x.isFinite || y.mag = 0 then nan f
  else if !y.isFinite then x
  else ofRat f x.sign (x.toRat - y.toRat * truncInt (x.toRat / y.toRat))

/-- Apply an integer rounding mode; infinities and NaNs are kept. -/
def toIntegral (mode : ℚ → Int) (x : Flt f) : Flt f :=
  if x.isFinite then ofRat f x.sign (mode x.toRat) else x

/-- `std::round`: halves away from zero. -/
def roundHalfAway (q : ℚ) : Int :=
  if q < 0 then -⌊-q + 1 / 2⌋ else ⌊q + 1 / 2⌋

/-! ## Operations that stay finite -/

theorem zero_isFinite (expo_le : 2 ≤ f.expo) (neg : Bool) :
    (zero neg : Flt f).isFinite = true := by
  have one_lt : 1 < 2 ^ f.expo := Nat.one_lt_two_pow (by omega)
  apply isFinite_iff.mpr
  exact Nat.mul_pos (Nat.sub_pos_of_lt one_lt) (by positivity)

theorem ofRat_isFinite (expo_le : 2 ≤ f.expo) {neg : Bool} {q : ℚ} (le : |q| ≤ f.maxVal) :
    (ofRat f neg q).isFinite = true := by
  unfold ofRat
  split
  · exact zero_isFinite expo_le neg
  · rename_i ne
    exact decide_eq_true (Format.roundMag_lt_infMag expo_le (abs_pos.mpr ne) le)

theorem abs_toRat (x : Flt f) : |x.toRat| = f.magVal x.mag := by
  have nonneg := f.magVal_nonneg x.mag
  unfold toRat
  split
  · rw [abs_neg, abs_of_nonneg nonneg]
  · exact abs_of_nonneg nonneg

theorem abs_toRat_le (expo_le : 2 ≤ f.expo) {x : Flt f} (finite : x.isFinite = true) :
    |x.toRat| ≤ f.maxVal := by
  have two_pow : (4 : Nat) ≤ 2 ^ f.expo := by
    calc 4 = 2 ^ 2 := by norm_num
      _ ≤ 2 ^ f.expo := Nat.pow_le_pow_right (by norm_num) expo_le
  have mant_pos : 0 < 2 ^ f.mant := by positivity
  have last : f.magVal ((2 ^ f.expo - 2) * 2 ^ f.mant + (2 ^ f.mant - 1)) = f.maxVal := by
    rw [Format.magVal_fields f _ (Nat.sub_lt mant_pos (by norm_num)), if_neg (by omega)]
    unfold Format.maxVal
    rw [show 2 ^ f.mant + (2 ^ f.mant - 1) = 2 ^ (f.mant + 1) - 1 by rw [pow_succ]; omega,
      show 2 ^ f.expo - 2 - 1 = 2 ^ f.expo - 3 by omega]
  rw [abs_toRat, ← last]
  apply (Format.magVal_strictMono f).monotone
  have mag_lt : x.mag < (2 ^ f.expo - 1) * 2 ^ f.mant := isFinite_iff.mp finite
  obtain ⟨n, n_eq⟩ : ∃ n, 2 ^ f.expo = n + 2 := ⟨2 ^ f.expo - 2, by omega⟩
  rw [n_eq] at mag_lt ⊢
  have : (n + 2 - 1) * 2 ^ f.mant = n * 2 ^ f.mant + 2 ^ f.mant := by
    rw [show n + 2 - 1 = n + 1 by omega]; ring
  simp only [Nat.add_sub_cancel]
  omega

/-- A rounding mode that stays within every integer bound. -/
def Bounded (mode : ℚ → Int) : Prop :=
  ∀ (q : ℚ) (n : Int), |q| ≤ n → |mode q| ≤ n

theorem bounded_floor : Bounded Int.floor := by
  intro q n le
  rw [abs_le] at le ⊢
  constructor
  · exact Int.le_floor.mpr (by exact_mod_cast le.1)
  · have := (Int.floor_le q).trans le.2
    exact_mod_cast this

theorem bounded_ceil : Bounded Int.ceil := by
  intro q n le
  rw [abs_le] at le ⊢
  constructor
  · have := le.1.trans (Int.le_ceil q)
    exact_mod_cast this
  · exact Int.ceil_le.mpr le.2

theorem bounded_roundHalfAway : Bounded roundHalfAway := by
  have half (q : ℚ) (n : Int) (le : q ≤ n) : ⌊q + 1 / 2⌋ ≤ n := by
    have lt : ⌊q + 1 / 2⌋ < n + 1 := by
      rw [Int.floor_lt]
      push_cast
      linarith
    omega
  intro q n le
  rw [abs_le] at le
  unfold roundHalfAway
  split
  · rename_i neg
    have low : 0 ≤ ⌊-q + 1 / 2⌋ := Int.floor_nonneg.mpr (by linarith)
    rw [abs_neg, abs_of_nonneg low]
    exact half (-q) n (by linarith)
  · rename_i nonneg
    have low : 0 ≤ ⌊q + 1 / 2⌋ := Int.floor_nonneg.mpr (by linarith)
    rw [abs_of_nonneg low]
    exact half q n le.2

theorem toIntegral_isFinite (expo_le : 2 ≤ f.expo) {mode : ℚ → Int} (bounded : Bounded mode)
    {top : Int} (max_eq : f.maxVal = top) {x : Flt f} (finite : x.isFinite = true) :
    (toIntegral mode x).isFinite = true := by
  rw [toIntegral, if_pos finite]
  apply ofRat_isFinite expo_le
  have le := bounded x.toRat top (max_eq ▸ abs_toRat_le expo_le finite)
  rw [max_eq]
  exact_mod_cast le

theorem convert_isFinite {g : Format} (expo_le : 2 ≤ f.expo) (g_expo_le : 2 ≤ g.expo)
    (wider : g.maxVal ≤ f.maxVal) {x : Flt g} (finite : x.isFinite = true) :
    (convert f x).isFinite = true := by
  rw [convert, if_pos finite]
  exact ofRat_isFinite expo_le ((abs_toRat_le g_expo_le finite).trans wider)

end Flt

/-- `float`: 23 mantissa and 8 exponent bits. -/
abbrev F32 : Type := Flt ⟨23, 8⟩

/-- `double`: 52 mantissa and 11 exponent bits. -/
abbrev F64 : Type := Flt ⟨52, 11⟩

end MySimpleDb.Lib
