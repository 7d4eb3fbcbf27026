import MySimpleDb.Lib.Rounding
import MySimpleDb.Storage.Cast
import Mathlib.Data.Nat.Digits.Lemmas

/-!
# Declared numeric targets round exactly

A value coerced to `numeric(p, q)` is the exact value rounded at `q` decimals.
The carry of a negative remainder takes its sign from the truncated quotient,
so values above -1 in units of the last decimal are carried the wrong way.
-/

namespace MySimpleDb.Storage

open MySimpleDb.Lib

/-! ## Powers of ten in 256 bits -/

theorem pow10_eq (n : Nat) : pow10 n = 10 ^ n % 2 ^ 256 := by
  induction n with
  | zero => rfl
  | succ n inductionHypothesis =>
      rw [pow10, inductionHypothesis, pow_succ 10 n, Nat.mod_mul_mod]

theorem pow10_exact {n : Nat} (le : n ≤ 77) : pow10 n = 10 ^ n := by
  have fits : 10 ^ n < 2 ^ 256 :=
    lt_of_le_of_lt (Nat.pow_le_pow_right (by decide) le) (by norm_num)
  rw [pow10_eq, Nat.mod_eq_of_lt fits]

/-- A power beyond the digit limit may wrap, but never down to a magnitude a
numeric can reach. -/
theorem pow10_large {n : Nat} (low : 39 ≤ n) (high : n ≤ 255) : 2 * 10 ^ 38 < pow10 n := by
  have every : ∀ n < 256, 39 ≤ n → 2 * 10 ^ 38 < 10 ^ n % 2 ^ 256 := by decide +kernel
  rw [pow10_eq]
  exact every n (by omega) low

/-! ## Scaling -/

/-- One step up that reaches the digit limit keeps it reached on the way. -/
theorem scaled_over {u : Int} (past : kNumericUnscaledMax ≤ |u * 10|) (n : Nat) :
    u * 10 ≠ 0 ∧ kNumericUnscaledMax ≤ |u * 10 * 10 ^ n| := by
  constructor
  · intro zero
    rw [zero] at past
    exact absurd past (by decide)
  · rw [abs_mul (u * 10)]
    exact past.trans (le_mul_of_one_le_right (abs_nonneg _) (Int.one_le_abs (by positivity)))

/-- Multiplying up raises exactly when the scaled value has 39 digits: the
magnitude only grows on the way. -/
theorem coerceScaleUp_eq {u : Int} (small : |u| < kNumericUnscaledMax) (n : Nat) :
    coerceScaleUp n u =
      if kNumericUnscaledMax ≤ |u * 10 ^ n| then
        dbRaise .valueMismatch "数值超出 numeric 可表示范围"
      else .ok (u * 10 ^ n) := by
  induction n generalizing u with
  | zero => simp [coerceScaleUp, not_le.mpr small]
  | succ n inductionHypothesis =>
      have reassoc : u * 10 ^ (n + 1) = u * 10 * 10 ^ n := by ring
      by_cases past : kNumericUnscaledMax ≤ |u * 10|
      · have reached := scaled_over past n
        rw [coerceScaleUp, if_pos ⟨reached.1, past⟩, reassoc, if_pos reached.2]
      · rw [coerceScaleUp, if_neg (fun raised => past raised.2),
          inductionHypothesis (not_le.mp past), reassoc]

/-- The carry of the source against a carry with the sign of the dividend. -/
private theorem carry_eq (u : Int) {p : Nat} (pos : 0 < p) :
    (if (p : Int) ≤ |u.tmod p| * 2 then
        (if u.tdiv p < 0 then u.tdiv p - 1 else u.tdiv p + 1) else u.tdiv p) =
      if u < 0 ∧ -u < p ∧ (p : Int) ≤ -u * 2 then 1
      else roundHalfAway ((u : ℚ) / p) := by
  rw [roundHalfAway_div u pos]
  obtain ⟨m, rfl | rfl⟩ := u.eq_nat_or_neg
  · -- no carry goes wrong above zero
    have not_bad : ¬ ((m : Int) < 0 ∧ -(m : Int) < p ∧ (p : Int) ≤ -m * 2) := by omega
    have quotient_nonneg : ¬ (m : Int).tdiv p < 0 := by
      rw [← Int.ofNat_tdiv]
      exact not_lt.mpr (Int.natCast_nonneg _)
    rw [if_neg not_bad, if_neg quotient_nonneg]
    rcases m.eq_zero_or_pos with rfl | m_pos
    · simp [pos.ne']
    · rw [Int.sign_eq_one_of_pos (by exact_mod_cast m_pos)]
  · rw [Int.neg_tdiv, Int.neg_tmod, abs_neg, Int.sign_neg, ← Int.ofNat_tdiv, ← Int.ofNat_tmod,
      Nat.abs_cast, neg_neg]
    by_cases below : m < p
    · -- the quotient is zero and has lost the sign
      rw [Nat.div_eq_of_lt below, Nat.mod_eq_of_lt below]
      by_cases half : (p : Int) ≤ m * 2
      · have bad : -(m : Int) < 0 ∧ (m : Int) < p ∧ (p : Int) ≤ m * 2 := by omega
        rw [if_pos half, if_pos bad]
        rfl
      · have not_bad : ¬ (-(m : Int) < 0 ∧ (m : Int) < p ∧ (p : Int) ≤ m * 2) := by omega
        rw [if_neg half, if_neg not_bad, if_neg half]
    · have quotient_pos : 0 < m / p := Nat.div_pos (not_lt.mp below) pos
      have quotient_neg : -((m / p : Nat) : Int) < 0 := by
        exact neg_lt_zero.mpr (by exact_mod_cast quotient_pos)
      have m_pos : 0 < m := by omega
      have not_bad : ¬ (-(m : Int) < 0 ∧ (m : Int) < p ∧ (p : Int) ≤ m * 2) := by omega
      rw [if_neg not_bad, if_pos quotient_neg, Int.sign_eq_one_of_pos (by exact_mod_cast m_pos)]
      rfl

/-- A dividend of less than half the divisor is divided to zero. -/
private theorem carry_large {u : Int} {p : Nat} (large : 2 * |u| < p) :
    ¬ (u < 0 ∧ -u < p ∧ (p : Int) ≤ -u * 2) ∧ roundHalfAway ((u : ℚ) / p) = 0 := by
  have abs_nonneg := abs_nonneg u
  have neg_le := neg_le_abs u
  constructor
  · omega
  · have p_pos : (0 : ℚ) < p := by
      have : 0 < p := by omega
      exact_mod_cast this
    apply roundHalfAway_eq_zero
    rw [abs_div, abs_of_pos p_pos, div_lt_div_iff₀ p_pos two_pos, one_mul, mul_comm]
    exact_mod_cast large

/-- Dividing down rounds halves away from zero, except that a value in
`(-1, -1/2]` is carried to one. -/
theorem coerceScaleDown_eq {u : Int} (small : |u| < kNumericUnscaledMax) {drop : Nat}
    (high : drop ≤ 255) :
    coerceScaleDown u drop =
      if u < 0 ∧ -u < 10 ^ drop ∧ 10 ^ drop ≤ -u * 2 then 1
      else roundHalfAway ((u : ℚ) / 10 ^ drop) := by
  have cast_pow : (10 : Int) ^ drop = ((10 ^ drop : Nat) : Int) := by push_cast; rfl
  have cast_pow_rat : (10 : ℚ) ^ drop = ((10 ^ drop : Nat) : ℚ) := by push_cast; rfl
  rw [kNumericUnscaledMax] at small
  rw [cast_pow, cast_pow_rat]
  by_cases exact : drop ≤ 38
  · rw [← carry_eq u (by positivity), coerceScaleDown, pow10_exact (by omega)]
  · -- the wrapped power and the true one both exceed twice the magnitude
    have wrapped : 2 * |u| < pow10 drop := by
      have := pow10_large (by omega) high
      omega
    have scaled : 2 * |u| < (10 ^ drop : Nat) := by
      have : 10 ^ 39 ≤ 10 ^ drop := Nat.pow_le_pow_right (by decide) (by omega)
      omega
    have pos : 0 < pow10 drop := by
      have := pow10_large (by omega) high
      omega
    have code := carry_eq u pos
    rw [if_neg (carry_large wrapped).1, (carry_large wrapped).2] at code
    rw [if_neg (carry_large scaled).1, (carry_large scaled).2, ← code, coerceScaleDown]

/-! ## The coercion -/

/-- The number a decimal stands for. -/
def DecimalVal.toRat (d : DecimalVal) : ℚ :=
  d.unscaled / 10 ^ d.scale

/-- The exact value in units of the last kept decimal. -/
theorem DecimalVal.toRat_mul_pow (d : DecimalVal) {scale : Nat} (le : scale ≤ d.scale) :
    d.toRat * 10 ^ scale = (d.unscaled : ℚ) / 10 ^ (d.scale - scale) := by
  rw [DecimalVal.toRat, div_mul_eq_mul_div, div_eq_div_iff (by positivity) (by positivity),
    mul_assoc, ← pow_add, Nat.add_sub_cancel' le]

theorem DecimalVal.toRat_mul_pow_of_ge (d : DecimalVal) {scale : Nat} (ge : d.scale ≤ scale) :
    d.toRat * 10 ^ scale = ((d.unscaled * 10 ^ (scale - d.scale) : Int) : ℚ) := by
  rw [DecimalVal.toRat, div_mul_eq_mul_div, div_eq_iff (by positivity)]
  push_cast
  rw [mul_assoc, ← pow_add, Nat.sub_add_cancel ge]

/-- The numbers strictly above -1 and not above -1/2. -/
def CarriedWrong (x : ℚ) : Prop :=
  -1 < x ∧ x ≤ -1 / 2

instance (x : ℚ) : Decidable (CarriedWrong x) :=
  inferInstanceAs (Decidable (_ ∧ _))

theorem not_carriedWrong_intCast (n : Int) : ¬ CarriedWrong n := by
  rintro ⟨above, below⟩
  have above : -1 < n := by exact_mod_cast above
  have nonneg : (0 : ℚ) ≤ n := by exact_mod_cast (by omega : 0 ≤ n)
  linarith

theorem roundHalfAway_of_carriedWrong {x : ℚ} (wrong : CarriedWrong x) :
    roundHalfAway x = -1 := by
  obtain ⟨above, below⟩ := wrong
  have neg : x < 0 := by linarith
  have one : round (-x) = 1 := by
    rw [round_eq, Int.floor_eq_iff]
    constructor <;> push_cast <;> linarith
  rw [roundHalfAway, if_pos neg, abs_of_neg neg, one]

/-- The unscaled result at a smaller scale. -/
theorem coerceScale_down {d : DecimalVal} (small : |d.unscaled| < kNumericUnscaledMax)
    (scale_le : d.scale ≤ 255) {scale : Nat} (drop : scale < d.scale) :
    coerceScale d scale = .ok (if CarriedWrong (d.toRat * 10 ^ scale) then 1
      else roundHalfAway (d.toRat * 10 ^ scale)) := by
  have pow_pos : (0 : ℚ) < 10 ^ (d.scale - scale) := by positivity
  have same : (d.unscaled < 0 ∧ -d.unscaled < 10 ^ (d.scale - scale) ∧
      10 ^ (d.scale - scale) ≤ -d.unscaled * 2) ↔ CarriedWrong (d.toRat * 10 ^ scale) := by
    rw [CarriedWrong, d.toRat_mul_pow drop.le, lt_div_iff₀ pow_pos, div_le_iff₀ pow_pos]
    have int_pos : (0 : Int) < 10 ^ (d.scale - scale) := by positivity
    constructor
    · rintro ⟨-, above, below⟩
      have above : (-(d.unscaled : ℚ)) < 10 ^ (d.scale - scale) := by exact_mod_cast above
      have below : (10 : ℚ) ^ (d.scale - scale) ≤ -d.unscaled * 2 := by exact_mod_cast below
      constructor <;> linarith
    · rintro ⟨above, below⟩
      have above : -d.unscaled < 10 ^ (d.scale - scale) := by
        have : (-(d.unscaled : ℚ)) < 10 ^ (d.scale - scale) := by linarith
        exact_mod_cast this
      have below : (10 : Int) ^ (d.scale - scale) ≤ -d.unscaled * 2 := by
        have : (10 : ℚ) ^ (d.scale - scale) ≤ -d.unscaled * 2 := by linarith
        exact_mod_cast this
      omega
  rw [coerceScale, if_pos drop, coerceScaleDown_eq small (by omega), ← d.toRat_mul_pow drop.le]
  simp only [same]

/-- The unscaled result at the same or a larger scale. -/
theorem coerceScale_up {d : DecimalVal} (small : |d.unscaled| < kNumericUnscaledMax)
    {scale : Nat} (keep : d.scale ≤ scale) :
    coerceScale d scale =
      if kNumericUnscaledMax ≤ |roundHalfAway (d.toRat * 10 ^ scale)| then
        dbRaise .valueMismatch "数值超出 numeric 可表示范围"
      else .ok (roundHalfAway (d.toRat * 10 ^ scale)) := by
  rw [coerceScale, if_neg (not_lt.mpr keep), coerceScaleUp_eq small, d.toRat_mul_pow_of_ge keep,
    roundHalfAway_intCast]

/-- The result of a coercion that rounds: the exact value `x` rounded at `scale`
decimals, or a mismatch when that has more than `precision` digits. -/
def CoerceRounds (v : Value) (target : TypeAttr) (precision scale : Nat) (mode : CastMode)
    (x : ℚ) : Prop :=
  if 10 ^ precision ≤ |roundHalfAway (x * 10 ^ scale)| then
    ∃ text, coerceNumeric v target precision scale mode = dbRaise .valueMismatch text
  else coerceNumeric v target precision scale mode =
    .ok (numericVal target (roundHalfAway (x * 10 ^ scale)) scale)

theorem lt_decimalDigits_iff (precision : Nat) (u : Int) :
    precision < decimalDigits u.natAbs ↔ (10 : Int) ^ precision ≤ |u| := by
  rw [decimalDigits, Nat.lt_digits_length_iff (by decide), ← Int.natCast_natAbs]
  norm_cast

/-- What the coercion does once the value is cast and scaled. -/
theorem coerceNumeric_of_scaled {v w : Value} {target : TypeAttr} {precision scale : Nat}
    {mode : CastMode} {d : DecimalVal} {u : Int} (cast : castValue v target mode = .ok w)
    (box : w.box = .dec d) (scaled : coerceScale d scale = .ok u) (positive : 0 < precision) :
    coerceNumeric v target precision scale mode =
      if (10 : Int) ^ precision ≤ |u| then dbRaise .valueMismatch "numeric 值超出声明精度"
      else .ok (numericVal target u scale) := by
  simp only [coerceNumeric, cast, getDec_eq_ok.mpr box, scaled, Res.bind_ok, positive, true_and,
    lt_decimalDigits_iff]
  split <;> rfl

/-- A scaled value that is the rounded one makes the coercion round. -/
theorem coerceRounds_of_scaled {v w : Value} {target : TypeAttr} {precision scale : Nat}
    {mode : CastMode} {d : DecimalVal} (cast : castValue v target mode = .ok w)
    (box : w.box = .dec d)
    (scaled : coerceScale d scale = .ok (roundHalfAway (d.toRat * 10 ^ scale)))
    (positive : 0 < precision) : CoerceRounds v target precision scale mode d.toRat := by
  rw [CoerceRounds, coerceNumeric_of_scaled cast box scaled positive]
  split
  · exact ⟨_, rfl⟩
  · rfl

/-- A coercion to `numeric(precision, scale)` rounds the exact value halves away
from zero, exactly when that value in units of the last decimal is not in
`(-1, -1/2]`. -/
theorem coerceNumeric_rounds_iff {v w : Value} {target : TypeAttr} {precision scale : Nat}
    {mode : CastMode} {d : DecimalVal} (cast : castValue v target mode = .ok w)
    (box : w.box = .dec d) (small : |d.unscaled| < kNumericUnscaledMax)
    (scale_le : d.scale ≤ 255) (precision_pos : 1 ≤ precision) (precision_le : precision ≤ 38) :
    CoerceRounds v target precision scale mode d.toRat ↔
      ¬ CarriedWrong (d.toRat * 10 ^ scale) := by
  by_cases drop : scale < d.scale
  · have scaled := coerceScale_down small scale_le drop
    by_cases wrong : CarriedWrong (d.toRat * 10 ^ scale)
    · -- the code answers 1 where the value rounds to -1
      have one_lt : (1 : Int) < 10 ^ precision := one_lt_pow₀ (by decide) (by omega)
      rw [if_pos wrong] at scaled
      rw [CoerceRounds, coerceNumeric_of_scaled cast box scaled precision_pos,
        roundHalfAway_of_carriedWrong wrong]
      simp [not_le.mpr one_lt, wrong, numericVal]
    · rw [if_neg wrong] at scaled
      exact iff_of_true (coerceRounds_of_scaled cast box scaled precision_pos) wrong
  · have keep : d.scale ≤ scale := not_lt.mp drop
    have right : ¬ CarriedWrong (d.toRat * 10 ^ scale) := by
      rw [d.toRat_mul_pow_of_ge keep]
      exact not_carriedWrong_intCast _
    have scaled := coerceScale_up small keep
    refine iff_of_true ?_ right
    by_cases past : kNumericUnscaledMax ≤ |roundHalfAway (d.toRat * 10 ^ scale)|
    · -- beyond the digit limit is beyond every declared precision
      have beyond : (10 : Int) ^ precision ≤ |roundHalfAway (d.toRat * 10 ^ scale)| :=
        le_trans (pow_le_pow_right₀ (by decide) precision_le) past
      rw [if_pos past] at scaled
      rw [CoerceRounds, if_pos beyond]
      refine ⟨"数值超出 numeric 可表示范围", ?_⟩
      simp only [coerceNumeric, cast, getDec_eq_ok.mpr box, scaled, Res.bind_ok]
      rfl
    · rw [if_neg past] at scaled
      exact coerceRounds_of_scaled cast box scaled precision_pos

/-- The value -1.235 becomes -1.24 in a `numeric(6, 2)`. -/
theorem coerceNumeric_rounds_iff_hundredths :
    CoerceRounds (numericVal kNumeric (-1235) 3) kNumeric 6 2 .assignment
      (DecimalVal.toRat ⟨-1235, 3⟩) := by
  refine (coerceNumeric_rounds_iff (w := numericVal kNumeric (-1235) 3) rfl rfl
    (by decide) (by decide) (by decide) (by decide)).mpr ?_
  norm_num [CarriedWrong, DecimalVal.toRat]

/-- The value -0.7 becomes 1 in a `numeric(5, 0)`. -/
theorem coerceNumeric_carries_wrong :
    coerceNumeric (numericVal kNumeric (-7) 1) kNumeric 5 0 .assignment =
        .ok (numericVal kNumeric 1 0) ∧
      ¬ CoerceRounds (numericVal kNumeric (-7) 1) kNumeric 5 0 .assignment
        (DecimalVal.toRat ⟨-7, 1⟩) := by
  have code : coerceNumeric (numericVal kNumeric (-7) 1) kNumeric 5 0 .assignment =
      .ok (numericVal kNumeric 1 0) := by
    rw [coerceNumeric_of_scaled (w := numericVal kNumeric (-7) 1) (d := ⟨-7, 1⟩) (u := 1)
      rfl rfl (by decide) (by decide)]
    rfl
  have rounded : roundHalfAway (DecimalVal.toRat ⟨-7, 1⟩ * 10 ^ 0) = -1 := by
    apply roundHalfAway_of_carriedWrong
    norm_num [CarriedWrong, DecimalVal.toRat]
  constructor
  · exact code
  · rw [CoerceRounds, rounded, code]
    simp [numericVal]

end MySimpleDb.Storage
