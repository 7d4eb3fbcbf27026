import MySimpleDb.Expr.DecimalFunc
import MySimpleDb.Expr.Eval

/-!
# Numeric arithmetic is exact

Sum, difference and product are exact and the quotient is rounded at the scale
derived for the result; an error is raised exactly when a result, or an operand
brought to that scale, has 39 digits. A second copy of the code, in which every
intermediate value is checked against 256 bits, computes the same.
-/

namespace MySimpleDb.Expr

open MySimpleDb.Lib MySimpleDb.Storage MySimpleDb.Analyzer

variable {l r : DecimalVal}

/-! ## Long division -/

/-- The loop computes quotient and remainder of the shifted dividend; it stops
early only when the quotient ends up with 39 digits. -/
theorem decDivSteps_eq {ub : Int} (ub_pos : 0 < ub) (t : Nat) {q rem : Int} (q_nonneg : 0 ≤ q)
    (rem_nonneg : 0 ≤ rem) (rem_lt : rem < ub) :
    decDivSteps ub t q rem =
        .ok ((q * ub + rem) * 10 ^ t / ub, (q * ub + rem) * 10 ^ t % ub) ∨
      decDivSteps ub t q rem = dbRaise .arithError "numeric 算术结果超界" ∧
        kNumericUnscaledMax ≤ (q * ub + rem) * 10 ^ t / ub := by
  induction t generalizing q rem with
  | zero =>
      left
      have quotient : (q * ub + rem) / ub = q := by
        rw [add_comm, Int.add_mul_ediv_right _ _ ub_pos.ne', Int.ediv_eq_zero_of_lt rem_nonneg rem_lt,
          zero_add]
      have remainder : (q * ub + rem) % ub = rem := by
        rw [add_comm, Int.add_mul_emod_self_right, Int.emod_eq_of_lt rem_nonneg rem_lt]
      rw [decDivSteps, pow_zero, mul_one, quotient, remainder]
  | succ t inductionHypothesis =>
      rw [decDivSteps]
      by_cases gate : kNumericUnscaledMax / 10 ≤ q
      · right
        rw [if_pos gate]
        refine ⟨rfl, ?_⟩
        have tenth : 10 * (kNumericUnscaledMax / 10) = kNumericUnscaledMax := rfl
        have power : (1 : Int) ≤ 10 ^ t := one_le_pow₀ (by decide)
        have scaled : (kNumericUnscaledMax / 10) * ub ≤ q * ub + rem :=
          le_add_of_le_of_nonneg (mul_le_mul_of_nonneg_right gate ub_pos.le) rem_nonneg
        rw [Int.le_ediv_iff_mul_le ub_pos]
        calc kNumericUnscaledMax * ub = 10 * (kNumericUnscaledMax / 10) * ub := by rw [tenth]
          _ = (kNumericUnscaledMax / 10) * ub * 10 := by ring
          _ ≤ (q * ub + rem) * 10 := mul_le_mul_of_nonneg_right scaled (by decide)
          _ ≤ (q * ub + rem) * 10 * 10 ^ t := le_mul_of_one_le_right (by positivity) power
          _ = (q * ub + rem) * 10 ^ (t + 1) := by ring
      · rw [if_neg gate]
        have digit_nonneg : 0 ≤ rem * 10 / ub := Int.ediv_nonneg (by omega) ub_pos.le
        have next := @inductionHypothesis (q * 10 + rem * 10 / ub) (rem * 10 % ub)
          (by omega) (Int.emod_nonneg _ ub_pos.ne') (Int.emod_lt_of_pos _ ub_pos)
        have dividend : (q * 10 + rem * 10 / ub) * ub + rem * 10 % ub = (q * ub + rem) * 10 := by
          have := Int.ediv_mul_add_emod (rem * 10) ub
          linarith
        rw [dividend] at next
        rw [pow_succ', ← mul_assoc]
        exact next

/-- The quotient shifted to the result scale, as a quotient of magnitudes. -/
theorem abs_quotient {rs t : Nat} (shift : rs + r.scale = l.scale + t) :
    |l.toRat / r.toRat * 10 ^ rs| =
      ((l.unscaled.natAbs * 10 ^ t : Nat) : ℚ) / (r.unscaled.natAbs : Nat) := by
  have powers : (10 : ℚ) ^ r.scale * 10 ^ rs = 10 ^ l.scale * 10 ^ t := by
    rw [← pow_add, ← pow_add, ← shift, add_comm]
  have split : l.toRat / r.toRat * 10 ^ rs = l.unscaled * 10 ^ t / r.unscaled := by
    calc l.toRat / r.toRat * 10 ^ rs
        = l.unscaled / 10 ^ l.scale / r.unscaled * (10 ^ r.scale * 10 ^ rs) := by
          rw [DecimalVal.toRat, DecimalVal.toRat, div_div_eq_mul_div]
          ring
      _ = l.unscaled * 10 ^ t / r.unscaled := by
          rw [powers]
          field_simp
  rw [split, abs_div, abs_mul, abs_of_pos (by positivity : (0 : ℚ) < 10 ^ t)]
  push_cast
  rw [Nat.cast_natAbs, Nat.cast_natAbs, Int.cast_abs, Int.cast_abs]

/-- The sign the code gives the quotient is its sign, unless the dividend is zero. -/
theorem quotient_neg_iff (l_nonzero : l.unscaled ≠ 0) (r_nonzero : r.unscaled ≠ 0) (rs : Nat) :
    l.toRat / r.toRat * 10 ^ rs < 0 ↔
      (decide (l.unscaled < 0) != decide (r.unscaled < 0)) = true := by
  have l_sign := @toRat_lt_zero l
  have r_sign := @toRat_lt_zero r
  have l_ne : l.toRat ≠ 0 := mt toRat_eq_zero.mp l_nonzero
  have r_ne : r.toRat ≠ 0 := mt toRat_eq_zero.mp r_nonzero
  rw [← not_le, mul_nonneg_iff_of_pos_right (by positivity), not_le, div_neg_iff]
  simp only [← l_sign, ← r_sign]
  rcases lt_or_gt_of_ne l_ne with l_neg | l_pos <;> rcases lt_or_gt_of_ne r_ne with r_neg | r_pos
  · simp [l_neg, r_neg, l_neg.le, r_neg.le]
  · simp [l_neg, r_pos, r_pos.le]
  · simp [l_pos, r_neg, l_pos.le]
  · simp [not_lt.mpr l_pos.le, not_lt.mpr r_pos.le]

theorem decDiv_eq (nonzero : r.unscaled ≠ 0) {rs : Nat} (scale : l.scale ≤ rs) :
    decDiv l r rs =
      if kNumericUnscaledMax ≤ |roundHalfAway (l.toRat / r.toRat * 10 ^ rs)| then
        dbRaise .arithError "numeric 算术结果超界"
      else .ok (roundHalfAway (l.toRat / r.toRat * 10 ^ rs)) := by
  obtain ⟨t, shift⟩ : ∃ t, rs + r.scale = l.scale + t := ⟨rs + r.scale - l.scale, by omega⟩
  have ub_pos : 0 < r.unscaled.natAbs := Int.natAbs_pos.mpr nonzero
  have rounded : roundHalfAway |l.toRat / r.toRat * 10 ^ rs| =
      if |r.unscaled| ≤ |l.unscaled| * 10 ^ t % |r.unscaled| * 2 then
        |l.unscaled| * 10 ^ t / |r.unscaled| + 1
      else |l.unscaled| * 10 ^ t / |r.unscaled| := by
    rw [abs_quotient shift, roundHalfAway_natCast_div _ ub_pos]
    push_cast
    rfl
  have sign : roundHalfAway (l.toRat / r.toRat * 10 ^ rs) =
      if decide (l.unscaled < 0) != decide (r.unscaled < 0) then
        -roundHalfAway |l.toRat / r.toRat * 10 ^ rs|
      else roundHalfAway |l.toRat / r.toRat * 10 ^ rs| := by
    by_cases l_zero : l.unscaled = 0
    · rw [toRat_eq_zero.mpr l_zero]
      simp [roundHalfAway]
    · rw [roundHalfAway_abs]
      simp only [quotient_neg_iff l_zero nonzero]
  have nonneg := roundHalfAway_abs_nonneg (l.toRat / r.toRat * 10 ^ rs)
  have limit : |roundHalfAway (l.toRat / r.toRat * 10 ^ rs)| =
      roundHalfAway |l.toRat / r.toRat * 10 ^ rs| := by
    rw [sign]
    split
    · rw [abs_neg, abs_of_nonneg nonneg]
    · rw [abs_of_nonneg nonneg]
  have places : ((rs : Int) + r.scale - l.scale).toNat = t := by omega
  have abs_pos : 0 < |r.unscaled| := abs_pos.mpr nonzero
  have dividend : |l.unscaled| / |r.unscaled| * |r.unscaled| + |l.unscaled| % |r.unscaled| =
      |l.unscaled| := Int.ediv_mul_add_emod _ _
  have division := decDivSteps_eq abs_pos t (Int.ediv_nonneg (abs_nonneg l.unscaled) abs_pos.le)
    (Int.emod_nonneg |l.unscaled| abs_pos.ne') (Int.emod_lt_of_pos _ abs_pos)
  rw [dividend] at division
  rw [limit, sign, decDiv, if_neg nonzero]
  simp only [places, if_neg (by omega : ¬ (rs : Int) + r.scale - l.scale < 0)]
  rcases division with steps | ⟨steps, past⟩
  · rw [steps, Res.bind_ok, rounded]
    rfl
  · have reached : kNumericUnscaledMax ≤ roundHalfAway |l.toRat / r.toRat * 10 ^ rs| := by
      rw [rounded]
      split <;> omega
    rw [steps, if_pos reached]
    rfl

/-! ## The operators -/

/-- Sum and difference: an operand aligned to the larger scale, or the result,
may have 39 digits. -/
theorem decArith_aligned (l_bounded : l.Bounded) (r_bounded : r.Bounded) (op : ArithOp)
    (additive : op = .add ∨ op = .sub) :
    decArith op l r (max l.scale r.scale) =
      let lu := DecimalVal.aligned l (max l.scale r.scale)
      let ru := DecimalVal.aligned r (max l.scale r.scale)
      let out := if op = .add then lu + ru else lu - ru
      if kNumericUnscaledMax ≤ |lu| ∨ kNumericUnscaledMax ≤ |ru| ∨ kNumericUnscaledMax ≤ |out| then
        dbRaise .arithError "numeric 算术结果超界"
      else .ok out := by
  have aligned : decArith op l r (max l.scale r.scale) = (do
      let lu ← decAlign l.unscaled l.scale (max l.scale r.scale)
      let ru ← decAlign r.unscaled r.scale (max l.scale r.scale)
      let out := if op = .add then lu + ru else lu - ru
      if kNumericUnscaledMax ≤ |out| then dbRaise .arithError "numeric 算术结果超界"
      else .ok out) := by
    rcases additive with rfl | rfl <;> rfl
  rw [aligned, decAlign_eq l_bounded, decAlign_eq r_bounded]
  extract_lets lu ru out
  by_cases l_over : kNumericUnscaledMax ≤ |lu|
  · rw [if_pos l_over, if_pos (Or.inl l_over)]
    rfl
  · rw [if_neg l_over, Res.bind_ok]
    by_cases r_over : kNumericUnscaledMax ≤ |ru|
    · rw [if_pos r_over, if_pos (Or.inr (Or.inl r_over))]
      rfl
    · rw [if_neg r_over, Res.bind_ok]
      simp only [l_over, r_over, false_or]
      rfl

/-! ## 256 bits -/

/-- A value kept in a signed 256-bit integer. -/
def int256 (n : Int) : Res Int :=
  if |n| < 2 ^ 255 then .ok n else .error (.crash "int256")

theorem int256_eq {n : Int} (fits : |n| < 10 ^ 76) : int256 n = .ok n :=
  if_pos (fits.trans (by norm_num))

/-- `dec_align` with every product checked. -/
def decAlignUp256 : Nat → Int → Res Int
  | 0, u => .ok u
  | n + 1, u => do
      let u ← int256 (u * 10)
      if u ≠ 0 ∧ kNumericUnscaledMax ≤ |u| then
        dbRaise .arithError "numeric 算术结果超界"
      else decAlignUp256 n u

/-- The loop of `dec_div` with every intermediate value checked. -/
def decDivSteps256 (ub : Int) : Nat → Int → Int → Res (Int × Int)
  | 0, q, rem => .ok (q, rem)
  | t + 1, q, rem =>
      if kNumericUnscaledMax / 10 ≤ q then dbRaise .arithError "numeric 算术结果超界"
      else do
        let shifted ← int256 (rem * 10)
        let tenfold ← int256 (q * 10)
        let q ← int256 (tenfold + shifted / ub)
        decDivSteps256 ub t q (shifted % ub)

/-- `dec_div` with every intermediate value checked. -/
def decDiv256 (l r : DecimalVal) (rscale : Nat) : Res Int :=
  if r.unscaled = 0 then dbRaise .arithError "numeric 除零"
  else
    let neg : Bool := decide (l.unscaled < 0) != decide (r.unscaled < 0)
    let t : Int := rscale + r.scale - l.scale
    if t < 0 then dbRaise .internal "expr: numeric 除法标度推导违约"
    else do
      let ua ← int256 |l.unscaled|
      let ub ← int256 |r.unscaled|
      let (q, rem) ← decDivSteps256 ub t.toNat (ua / ub) (ua % ub)
      let twice ← int256 (rem * 2)
      let q ← if ub ≤ twice then int256 (q + 1) else pure q
      if kNumericUnscaledMax ≤ q then
        dbRaise .arithError "numeric 算术结果超界"
      pure (if neg then -q else q)

/-- `dec_arith` with every intermediate value checked. -/
def decArith256 (op : ArithOp) (l r : DecimalVal) (rscale : Nat) : Res Int := do
  let bounded (out : Int) : Res Int := do
    let out ← int256 out
    if kNumericUnscaledMax ≤ |out| then dbRaise .arithError "numeric 算术结果超界"
    else .ok out
  match op with
  | .add =>
      bounded ((← decAlignUp256 (rscale - l.scale) l.unscaled) +
        (← decAlignUp256 (rscale - r.scale) r.unscaled))
  | .sub =>
      bounded ((← decAlignUp256 (rscale - l.scale) l.unscaled) -
        (← decAlignUp256 (rscale - r.scale) r.unscaled))
  | .mul => bounded (l.unscaled * r.unscaled)
  | .div => decDiv256 l r rscale

theorem decAlignUp256_eq {u : Int} (small : |u| < kNumericUnscaledMax) (n : Nat) :
    decAlignUp256 n u = decAlignUp n u := by
  induction n generalizing u with
  | zero => rfl
  | succ n inductionHypothesis =>
      have fits : |u * 10| < 10 ^ 76 := by
        rw [kNumericUnscaledMax] at small
        rw [abs_mul, Nat.abs_ofNat]
        omega
      rw [decAlignUp256, int256_eq fits, Res.bind_ok, decAlignUp]
      by_cases past : u * 10 ≠ 0 ∧ kNumericUnscaledMax ≤ |u * 10|
      · rw [if_pos past, if_pos past]
      · rw [if_neg past, if_neg past]
        apply inductionHypothesis
        by_cases zero : u * 10 = 0
        · rw [zero]
          decide
        · exact not_le.mp fun reached => past ⟨zero, reached⟩

/-- Within the loop the quotient stays below 38 digits and the remainder below
the divisor. -/
theorem decDivSteps256_eq {ub : Int} (ub_pos : 0 < ub) (ub_small : ub < 10 ^ 38) (t : Nat)
    {q rem : Int} (q_nonneg : 0 ≤ q) (rem_nonneg : 0 ≤ rem) (rem_lt : rem < ub) :
    decDivSteps256 ub t q rem = decDivSteps ub t q rem := by
  induction t generalizing q rem with
  | zero => rfl
  | succ t inductionHypothesis =>
      rw [decDivSteps256, decDivSteps]
      by_cases gate : kNumericUnscaledMax / 10 ≤ q
      · rw [if_pos gate, if_pos gate]
      · have digit_nonneg : 0 ≤ rem * 10 / ub := Int.ediv_nonneg (by omega) ub_pos.le
        have digit_le : rem * 10 / ub < 10 := by
          rw [Int.ediv_lt_iff_lt_mul ub_pos]
          omega
        have q_small : q < 10 ^ 37 := not_le.mp gate
        have q_next : 0 ≤ q * 10 + rem * 10 / ub := by omega
        have shifted_fits : |rem * 10| < 10 ^ 76 := by
          rw [abs_of_nonneg (by omega)]
          omega
        have tenfold_fits : |q * 10| < 10 ^ 76 := by
          rw [abs_of_nonneg (by omega)]
          omega
        have sum_fits : |q * 10 + rem * 10 / ub| < 10 ^ 76 := by
          rw [abs_of_nonneg q_next]
          omega
        rw [if_neg gate, if_neg gate, int256_eq shifted_fits, Res.bind_ok,
          int256_eq tenfold_fits, Res.bind_ok, int256_eq sum_fits, Res.bind_ok]
        exact inductionHypothesis q_next (Int.emod_nonneg _ ub_pos.ne')
          (Int.emod_lt_of_pos _ ub_pos)

theorem decDivSteps_bounds {ub : Int} (ub_pos : 0 < ub) (t : Nat) {q rem : Int}
    (q_bounds : 0 ≤ q ∧ q < 10 ^ 38) (rem_bounds : 0 ≤ rem ∧ rem < ub) {out : Int × Int}
    (returned : decDivSteps ub t q rem = .ok out) :
    (0 ≤ out.1 ∧ out.1 < 10 ^ 38) ∧ 0 ≤ out.2 ∧ out.2 < ub := by
  induction t generalizing q rem with
  | zero =>
      cases returned
      exact ⟨q_bounds, rem_bounds⟩
  | succ t inductionHypothesis =>
      rw [decDivSteps] at returned
      by_cases gate : kNumericUnscaledMax / 10 ≤ q
      · rw [if_pos gate] at returned
        exact absurd returned dbRaise_ne_ok
      · rw [if_neg gate] at returned
        have digit_nonneg : 0 ≤ rem * 10 / ub := Int.ediv_nonneg (by omega) ub_pos.le
        have digit_le : rem * 10 / ub < 10 := by
          rw [Int.ediv_lt_iff_lt_mul ub_pos]
          omega
        have q_small : q < 10 ^ 37 := not_le.mp gate
        exact inductionHypothesis (by omega)
          ⟨Int.emod_nonneg _ ub_pos.ne', Int.emod_lt_of_pos _ ub_pos⟩ returned

theorem decDiv256_eq (l_bounded : l.Bounded) (r_bounded : r.Bounded) (rs : Nat) :
    decDiv256 l r rs = decDiv l r rs := by
  rw [decDiv256, decDiv]
  by_cases zero : r.unscaled = 0
  · rw [if_pos zero, if_pos zero]
  · rw [if_neg zero, if_neg zero]
    dsimp only
    have ua_small : |l.unscaled| < 10 ^ 38 := l_bounded.1
    have ub_small : |r.unscaled| < 10 ^ 38 := r_bounded.1
    have ua_nonneg : 0 ≤ |l.unscaled| := abs_nonneg _
    have ub_pos : 0 < |r.unscaled| := abs_pos.mpr zero
    generalize |l.unscaled| = ua at *
    generalize |r.unscaled| = ub at *
    have ua_fits : |ua| < 10 ^ 76 := by
      rw [abs_of_nonneg ua_nonneg]
      omega
    have ub_fits : |ub| < 10 ^ 76 := by
      rw [abs_of_pos ub_pos]
      omega
    have quotient_nonneg : 0 ≤ ua / ub := Int.ediv_nonneg ua_nonneg ub_pos.le
    have quotient_le : ua / ub ≤ ua := Int.ediv_le_self _ ua_nonneg
    have remainder_nonneg : 0 ≤ ua % ub := Int.emod_nonneg _ ub_pos.ne'
    have remainder_lt : ua % ub < ub := Int.emod_lt_of_pos _ ub_pos
    by_cases underived : (rs : Int) + r.scale - l.scale < 0
    · rw [if_pos underived, if_pos underived]
    · rw [if_neg underived, if_neg underived, int256_eq ua_fits, Res.bind_ok, int256_eq ub_fits,
        Res.bind_ok, decDivSteps256_eq ub_pos ub_small _ quotient_nonneg remainder_nonneg
          remainder_lt]
      cases steps : decDivSteps ub ((rs : Int) + r.scale - l.scale).toNat (ua / ub) (ua % ub) with
      | error e => rfl
      | ok out =>
          obtain ⟨q_bounds, rem_bounds⟩ := decDivSteps_bounds ub_pos _
            ⟨quotient_nonneg, by omega⟩ ⟨remainder_nonneg, remainder_lt⟩ steps
          have twice_fits : |out.2 * 2| < 10 ^ 76 := by
            rw [abs_of_nonneg (by omega)]
            omega
          have carried_fits : |out.1 + 1| < 10 ^ 76 := by
            rw [abs_of_nonneg (by omega)]
            omega
          simp only [Res.bind_ok, int256_eq twice_fits, int256_eq carried_fits]
          by_cases half : ub ≤ out.2 * 2
          · rw [if_pos half, if_pos half]
          · rw [if_neg half, if_neg half]
            rfl

theorem decArith256_eq (l_bounded : l.Bounded) (r_bounded : r.Bounded) (op : ArithOp) (rs : Nat) :
    decArith256 op l r rs = decArith op l r rs := by
  have bounded : ∀ out : Int, |out| < 10 ^ 76 → (do
      let out ← int256 out
      if kNumericUnscaledMax ≤ |out| then dbRaise .arithError "numeric 算术结果超界"
      else .ok out) =
      (if kNumericUnscaledMax ≤ |out| then dbRaise .arithError "numeric 算术结果超界"
        else .ok out : Res Int) := by
    intro out fits
    rw [int256_eq fits, Res.bind_ok]
  have additive : ∀ combine : Int → Int → Int,
      (∀ a b, |a| < 10 ^ 38 → |b| < 10 ^ 38 → |combine a b| < 10 ^ 76) → (do
        let lu ← decAlignUp256 (rs - l.scale) l.unscaled
        let ru ← decAlignUp256 (rs - r.scale) r.unscaled
        let out ← int256 (combine lu ru)
        if kNumericUnscaledMax ≤ |out| then dbRaise .arithError "numeric 算术结果超界"
        else .ok out) = (do
        let lu ← decAlign l.unscaled l.scale rs
        let ru ← decAlign r.unscaled r.scale rs
        if kNumericUnscaledMax ≤ |combine lu ru| then
          dbRaise .arithError "numeric 算术结果超界"
        else .ok (combine lu ru) : Res Int) := by
    intro combine combined
    have l_safe := decAlign_safe l_bounded rs
    have r_safe := decAlign_safe r_bounded rs
    rw [decAlignUp256_eq l_bounded.1, decAlignUp256_eq r_bounded.1, ← decAlign, ← decAlign]
    cases l_aligned : decAlign l.unscaled l.scale rs with
    | error e => rfl
    | ok lu =>
        cases r_aligned : decAlign r.unscaled r.scale rs with
        | error e => rfl
        | ok ru =>
            rw [l_aligned] at l_safe
            rw [r_aligned] at r_safe
            exact bounded _ (combined lu ru l_safe r_safe)
  cases op with
  | add =>
      apply additive (· + ·)
      intro a b a_small b_small
      have := abs_add_le a b
      omega
  | sub =>
      apply additive (· - ·)
      intro a b a_small b_small
      have := abs_sub a b
      omega
  | mul =>
      apply bounded
      rw [abs_mul]
      calc |l.unscaled| * |r.unscaled| < 10 ^ 38 * 10 ^ 38 :=
            mul_lt_mul'' l_bounded.1 r_bounded.1 (abs_nonneg _) (abs_nonneg _)
        _ = 10 ^ 76 := by norm_num
  | div => exact decDiv256_eq l_bounded r_bounded rs

/-! ## Exactness -/

/-- Each operator returns the exact result at the scale derived for it, the
quotient rounded there, and raises exactly when a magnitude has 39 digits, the
divisor is zero or the scales of a product add up to more than 255. Nothing on
the way leaves 256 bits. -/
theorem decArith_exact (l_bounded : l.Bounded) (r_bounded : r.Bounded) :
    (∀ op, op = .add ∨ op = .sub → ∃ rs, decResultScale op l r = .ok rs ∧
      rs = max l.scale r.scale ∧
      ∃ u : Int, (u : ℚ) / 10 ^ rs =
          (if op = .add then l.toRat + r.toRat else l.toRat - r.toRat) ∧
        decArith op l r rs =
          if kNumericUnscaledMax ≤ |DecimalVal.aligned l rs| ∨
              kNumericUnscaledMax ≤ |DecimalVal.aligned r rs| ∨ kNumericUnscaledMax ≤ |u| then
            dbRaise .arithError "numeric 算术结果超界"
          else .ok u) ∧
    (255 < l.scale + r.scale →
      decResultScale .mul l r = dbRaise .arithError "numeric 乘法标度超界") ∧
    (l.scale + r.scale ≤ 255 → ∃ rs, decResultScale .mul l r = .ok rs ∧
      rs = l.scale + r.scale ∧
      ∃ u : Int, (u : ℚ) / 10 ^ rs = l.toRat * r.toRat ∧
        decArith .mul l r rs =
          if kNumericUnscaledMax ≤ |u| then dbRaise .arithError "numeric 算术结果超界"
          else .ok u) ∧
    (∃ rs, decResultScale .div l r = .ok rs ∧ rs = min (max l.scale r.scale + 4) 255 ∧
      decArith .div l r rs =
        if r.toRat = 0 then dbRaise .arithError "numeric 除零"
        else if kNumericUnscaledMax ≤ |roundHalfAway (l.toRat / r.toRat * 10 ^ rs)| then
          dbRaise .arithError "numeric 算术结果超界"
        else .ok (roundHalfAway (l.toRat / r.toRat * 10 ^ rs))) ∧
    ∀ op rs, decArith256 op l r rs = decArith op l r rs := by
  have l_scale := l_bounded.2
  have r_scale := r_bounded.2
  refine ⟨?_, ?_, ?_, ?_, decArith256_eq l_bounded r_bounded⟩
  · intro op additive
    refine ⟨max l.scale r.scale, ?_, rfl, _, ?_, decArith_aligned l_bounded r_bounded op additive⟩
    · have fits : ¬ 255 < max l.scale r.scale := by omega
      rcases additive with rfl | rfl <;> exact if_neg fits
    · have power : (10 : ℚ) ^ max l.scale r.scale ≠ 0 := by positivity
      have l_eq := DecimalVal.aligned_eq (le_max_left l.scale r.scale)
      have r_eq := DecimalVal.aligned_eq (le_max_right l.scale r.scale)
      rcases additive with rfl | rfl
      · simp only [if_true, Int.cast_add, l_eq, r_eq]
        field_simp
      · simp only [reduceCtorEq, if_false, Int.cast_sub, l_eq, r_eq]
        field_simp
  · intro past
    exact if_pos past
  · intro fits
    refine ⟨l.scale + r.scale, if_neg (not_lt.mpr fits), rfl, l.unscaled * r.unscaled, ?_, rfl⟩
    rw [DecimalVal.toRat, DecimalVal.toRat, pow_add, div_mul_div_comm, Int.cast_mul]
  · have fits : ¬ 255 < min (max l.scale r.scale + 4) 255 := by omega
    refine ⟨min (max l.scale r.scale + 4) 255, if_neg fits, rfl, ?_⟩
    by_cases zero : r.unscaled = 0
    · rw [if_pos (toRat_eq_zero.mpr zero)]
      exact if_pos zero
    · rw [if_neg (mt toRat_eq_zero.mp zero)]
      exact decDiv_eq zero (by omega)

/-- A third, rounded at four decimals. -/
theorem decArith_exact_third :
    (.ok (-3333) : Res Int) =
      if DecimalVal.toRat ⟨-3, 0⟩ = 0 then dbRaise .arithError "numeric 除零"
      else if kNumericUnscaledMax ≤
          |roundHalfAway (DecimalVal.toRat ⟨1, 0⟩ / DecimalVal.toRat ⟨-3, 0⟩ * 10 ^ 4)| then
        dbRaise .arithError "numeric 算术结果超界"
      else .ok (roundHalfAway (DecimalVal.toRat ⟨1, 0⟩ / DecimalVal.toRat ⟨-3, 0⟩ * 10 ^ 4)) := by
  obtain ⟨-, -, -, ⟨rs, -, rfl, quotient⟩, -⟩ :=
    @decArith_exact ⟨1, 0⟩ ⟨-3, 0⟩ ⟨by decide, by decide⟩ ⟨by decide, by decide⟩
  exact quotient

end MySimpleDb.Expr
