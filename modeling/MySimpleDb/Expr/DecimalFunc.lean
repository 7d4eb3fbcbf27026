import MySimpleDb.Expr.FuncSafe
import MySimpleDb.Storage.CoerceNumeric

/-!
# Rounding functions on numerics are exact

`round`, `floor`, `ceil` and `mod` against the rational number a numeric stands
for: which results they give, and when the 38-digit limit makes them raise.
-/

namespace MySimpleDb.Expr

open MySimpleDb.Lib MySimpleDb.Storage

variable {d : DecimalVal}

/-! ## Alignment -/

theorem decAlignUp_eq {u : Int} (small : |u| < kNumericUnscaledMax) (n : Nat) :
    decAlignUp n u =
      if kNumericUnscaledMax ≤ |u * 10 ^ n| then
        dbRaise .arithError "numeric 算术结果超界"
      else .ok (u * 10 ^ n) := by
  induction n generalizing u with
  | zero => simp [decAlignUp, not_le.mpr small]
  | succ n inductionHypothesis =>
      have reassoc : u * 10 ^ (n + 1) = u * 10 * 10 ^ n := by ring
      by_cases past : kNumericUnscaledMax ≤ |u * 10|
      · have reached := scaled_over past n
        rw [decAlignUp, if_pos ⟨reached.1, past⟩, reassoc, if_pos reached.2]
      · rw [decAlignUp, if_neg (fun raised => past raised.2),
          inductionHypothesis (not_le.mp past), reassoc]

/-- The unscaled value of a numeric at a scale it is aligned to. -/
def DecimalVal.aligned (d : DecimalVal) (s : Nat) : Int :=
  d.unscaled * 10 ^ (s - d.scale)

theorem DecimalVal.aligned_eq {s : Nat} (le : d.scale ≤ s) :
    (DecimalVal.aligned d s : ℚ) = d.toRat * 10 ^ s := by
  have nonzero : (10 : ℚ) ^ d.scale ≠ 0 := by positivity
  rw [DecimalVal.aligned, DecimalVal.toRat, ← Nat.add_sub_of_le le, Nat.add_sub_cancel_left]
  push_cast
  rw [pow_add]
  field_simp

theorem decAlign_eq (bounded : d.Bounded) (s : Nat) :
    decAlign d.unscaled d.scale s =
      if kNumericUnscaledMax ≤ |DecimalVal.aligned d s| then
        dbRaise .arithError "numeric 算术结果超界"
      else .ok (DecimalVal.aligned d s) :=
  decAlignUp_eq bounded.1 _

/-! ## Rounding -/

theorem decPow10_eq {e : Int} (nonneg : 0 ≤ e) (le : e ≤ 38) : decPow10 e = .ok (10 ^ e.toNat) := by
  rw [decPow10, if_neg (by omega)]

/-- Shifting the decimal point divides by the decimals dropped. -/
theorem toRat_mul_zpow {n : Int} (above : n < d.scale) :
    d.toRat * 10 ^ n = d.unscaled / (10 ^ ((d.scale : Int) - n).toNat : Nat) := by
  have shift : ((((d.scale : Int) - n).toNat : Nat) : Int) = d.scale - n := by omega
  have ten : (10 : ℚ) ≠ 0 := by norm_num
  rw [DecimalVal.toRat, Nat.cast_pow, Nat.cast_ofNat, ← zpow_natCast, ← zpow_natCast, shift,
    zpow_sub₀ ten]
  field_simp

/-- The magnitude kept is the rounded one, and with 39 or more decimals dropped
it is zero. -/
theorem roundQuotient_eq (bounded : d.Bounded) {n : Int} (above : n < d.scale) :
    roundQuotient d n = .ok (roundHalfAway |d.toRat * 10 ^ n| * 10 ^ (-n).toNat) := by
  have magnitude : |d.toRat * 10 ^ n| =
      (d.unscaled.natAbs : ℚ) / (10 ^ ((d.scale : Int) - n).toNat : Nat) := by
    rw [toRat_mul_zpow above, abs_div, Nat.abs_cast, Nat.cast_natAbs, Int.cast_abs]
  rw [magnitude, roundQuotient]
  by_cases below : (d.scale : Int) - n < 39
  · rw [roundHalfAway_natCast_div _ (by positivity)]
    simp only [if_pos below, Int.natCast_natAbs, Nat.cast_pow, Nat.cast_ofNat]
    rw [decPow10_eq (by omega) (by omega), Res.bind_ok]
    by_cases negative : n < 0
    · rw [if_pos negative, decPow10_eq (by omega) (by omega), Res.bind_ok]
      rfl
    · have none_dropped : (-n).toNat = 0 := by omega
      rw [if_neg negative, none_dropped, pow_zero, mul_one]
      rfl
  · rw [if_neg below, roundHalfAway_eq_zero, zero_mul]
    have small : d.unscaled.natAbs < 10 ^ 38 := by
      have := bounded.1
      rw [kNumericUnscaledMax, Int.abs_eq_natAbs] at this
      omega
    have large : 10 ^ 39 ≤ 10 ^ ((d.scale : Int) - n).toNat :=
      Nat.pow_le_pow_right (by decide) (by omega)
    rw [abs_of_nonneg (by positivity), div_lt_div_iff₀ (by positivity) two_pos]
    norm_cast
    omega

/-- The power of ten brought back against the one of the result scale. -/
theorem zpow_toNat (n : Int) : (10 : ℚ) ^ n = 10 ^ n.toNat / 10 ^ (-n).toNat := by
  have ten : (10 : ℚ) ≠ 0 := by norm_num
  rw [← zpow_natCast, ← zpow_natCast, ← zpow_sub₀ ten]
  congr 1
  omega

/-- Below the scale the value is rounded, and the limit of 38 digits applies to
the rounded value. -/
theorem roundDec_below (bounded : d.Bounded) {n : Int} (above : n < d.scale) (ret : TypeAttr) :
    ∃ u : Int, (u : ℚ) / 10 ^ n.toNat = roundAt d.toRat n ∧
      roundDec d n ret =
        if kNumericUnscaledMax ≤ |u| then dbRaise .arithError "numeric 算术结果超界"
        else .ok (numericVal ret u n.toNat) := by
  have sign : d.toRat * 10 ^ n < 0 ↔ d.unscaled < 0 := by
    rw [toRat_mul_zpow above, div_lt_iff₀ (by positivity), zero_mul]
    norm_cast
  have magnitude_nonneg := roundHalfAway_abs_nonneg (d.toRat * 10 ^ n)
  refine ⟨roundHalfAway (d.toRat * 10 ^ n) * 10 ^ (-n).toNat, ?_, ?_⟩
  · rw [roundAt, zpow_toNat]
    push_cast
    field_simp
  · have scale : (if n < 0 then 0 else n.toNat) = n.toNat := by
      split <;> omega
    have limit : |roundHalfAway (d.toRat * 10 ^ n) * 10 ^ (-n).toNat| =
        roundHalfAway |d.toRat * 10 ^ n| * 10 ^ (-n).toNat := by
      have power : (0 : Int) ≤ 10 ^ (-n).toNat := by positivity
      rw [abs_mul, abs_of_nonneg power, roundHalfAway_abs]
      split
      · rw [abs_neg, abs_of_nonneg magnitude_nonneg]
      · rw [abs_of_nonneg magnitude_nonneg]
    rw [roundDec, if_neg (by omega), roundQuotient_eq bounded above, Res.bind_ok, scale, limit,
      roundHalfAway_abs (d.toRat * 10 ^ n)]
    by_cases past :
        kNumericUnscaledMax ≤ roundHalfAway |d.toRat * 10 ^ n| * 10 ^ (-n).toNat
    · rw [if_pos past, if_pos past]
      rfl
    · rw [if_neg past, if_neg past]
      simp only [sign, ite_mul, neg_mul]
      rfl

/-! ## Floor and ceiling -/

theorem ceil_quotient (m : Int) {p : Nat} (pos : 0 < p) :
    ⌈(m : ℚ) / p⌉ = if m % p ≠ 0 then m / p + 1 else m / p := by
  have p_pos : (0 : Int) < p := by exact_mod_cast pos
  rw [Rat.ceil_intCast_div_natCast, Int.neg_ediv, Int.sign_eq_one_of_pos p_pos, ite_not]
  by_cases exact : m % p = 0
  · rw [if_pos exact, if_pos (Int.dvd_of_emod_eq_zero exact)]
    ring
  · rw [if_neg exact, if_neg (fun dvd => exact (Int.emod_eq_zero_of_dvd dvd))]
    ring

/-- One of the two roundings of a quotient in terms of the magnitude, which goes
one up when a remainder is left and the direction points away from zero. -/
theorem directed_quotient (u : Int) {p : Nat} (pos : 0 < p) (up : Bool) :
    (if up then ⌈(u : ℚ) / p⌉ else ⌊(u : ℚ) / p⌋) =
      let q := if |u| % p ≠ 0 ∧ up != decide (u < 0) then |u| / p + 1 else |u| / p
      if u < 0 then -q else q := by
  rcases lt_or_ge u 0 with neg | nonneg
  · have flip_floor : ⌊(u : ℚ) / p⌋ = -⌈((-u : Int) : ℚ) / p⌉ := by
      rw [← Int.floor_neg, Int.cast_neg, neg_div, neg_neg]
    have flip_ceil : ⌈(u : ℚ) / p⌉ = -⌊((-u : Int) : ℚ) / p⌋ := by
      rw [← Int.ceil_neg, Int.cast_neg, neg_div, neg_neg]
    rw [flip_floor, flip_ceil, ceil_quotient _ pos, Rat.floor_intCast_div_natCast, abs_of_neg neg]
    cases up <;> simp [neg]
  · rw [ceil_quotient _ pos, Rat.floor_intCast_div_natCast, abs_of_nonneg nonneg]
    cases up <;> simp [not_lt.mpr nonneg]

/-- From 39 decimals on the magnitude is below one. -/
theorem abs_toRat_lt_one (bounded : d.Bounded) (deep : 39 ≤ d.scale) : |d.toRat| < 1 := by
  have small : |d.unscaled| < 10 ^ d.scale :=
    calc |d.unscaled| < 10 ^ 38 := bounded.1
      _ ≤ 10 ^ d.scale := pow_le_pow_right₀ (by decide) (by omega)
  have power : (0 : ℚ) < 10 ^ d.scale := by positivity
  rw [DecimalVal.toRat, abs_div, abs_of_pos power, div_lt_one power]
  exact_mod_cast small

theorem toRat_lt_zero : d.toRat < 0 ↔ d.unscaled < 0 := by
  rw [DecimalVal.toRat, div_lt_iff₀ (by positivity), zero_mul]
  norm_cast

theorem toRat_eq_zero : d.toRat = 0 ↔ d.unscaled = 0 := by
  rw [DecimalVal.toRat, div_eq_zero_iff, or_iff_left (by positivity)]
  norm_cast

theorem truncDec_eq (bounded : d.Bounded) (up : Bool) (ret : TypeAttr) :
    truncDec d up ret = .ok (numericVal ret (if up then ⌈d.toRat⌉ else ⌊d.toRat⌋) 0) := by
  rw [truncDec]
  by_cases whole : d.scale = 0
  · rw [if_pos whole, DecimalVal.toRat, whole]
    simp
  · rw [if_neg whole]
    by_cases deep : 39 ≤ d.scale
    · have bounds := abs_lt.mp (abs_toRat_lt_one bounded deep)
      simp only [if_pos deep]
      congr 2
      rcases lt_trichotomy d.toRat 0 with neg | zero | pos
      · have floor : ⌊d.toRat⌋ = -1 := by
          rw [Int.floor_eq_iff]
          constructor <;> push_cast <;> linarith
        have ceil : ⌈d.toRat⌉ = 0 := by
          rw [Int.ceil_eq_iff]
          constructor <;> push_cast <;> linarith
        have unscaled_neg := toRat_lt_zero.mp neg
        simp [floor, ceil, unscaled_neg, unscaled_neg.ne]
      · simp [zero, toRat_eq_zero.mp zero]
      · have floor : ⌊d.toRat⌋ = 0 := by
          rw [Int.floor_eq_iff]
          constructor <;> push_cast <;> linarith
        have ceil : ⌈d.toRat⌉ = 1 := by
          rw [Int.ceil_eq_iff]
          constructor <;> push_cast <;> linarith
        have not_neg : ¬ d.unscaled < 0 := fun neg => lt_asymm pos (toRat_lt_zero.mpr neg)
        have nonzero : d.unscaled ≠ 0 := fun zero => pos.ne' (toRat_eq_zero.mpr zero)
        simp [floor, ceil, not_neg, nonzero]
    · have power : (10 : ℚ) ^ d.scale = (10 ^ d.scale : Nat) := by push_cast; rfl
      rw [if_neg deep, decPow10_eq (by omega) (by omega), Res.bind_ok, DecimalVal.toRat, power,
        directed_quotient _ (by positivity)]
      simp only [Int.toNat_natCast, Nat.cast_pow, Nat.cast_ofNat, decide_eq_true_eq]
      rfl

/-! ## Remainder -/

theorem truncInt_div (u v : Int) (nonzero : v ≠ 0) : Flt.truncInt ((u : ℚ) / v) = u.tdiv v := by
  have positive : ∀ (m : Int) {p : Nat}, 0 < p → Flt.truncInt ((m : ℚ) / p) = m.tdiv p := by
    intro m p pos
    have p_pos : (0 : ℚ) < p := by exact_mod_cast pos
    have sign : (m : ℚ) / p < 0 ↔ m < 0 := by
      rw [div_lt_iff₀ p_pos, zero_mul]
      norm_cast
    rw [Flt.truncInt, Rat.ceil_intCast_div_natCast, Rat.floor_intCast_div_natCast]
    rcases lt_or_ge m 0 with neg | nonneg
    · rw [if_pos (sign.mpr neg), ← Int.tdiv_eq_ediv_of_nonneg (by omega), Int.neg_tdiv, neg_neg]
    · rw [if_neg (mt sign.mp (not_lt.mpr nonneg)), Int.tdiv_eq_ediv_of_nonneg nonneg]
  obtain ⟨p, rfl | rfl⟩ := v.eq_nat_or_neg
  · exact positive u (by omega)
  · rw [Int.tdiv_neg, ← Int.neg_tdiv, ← positive (-u) (by omega)]
    push_cast
    rw [div_neg, neg_div]

/-- The remainder of two numerics, at the larger scale; an aligned operand of 39
digits raises. -/
theorem modNumeric_eq {l r : DecimalVal} (l_bounded : l.Bounded) (r_bounded : r.Bounded)
    (t u ret : TypeAttr) :
    ∃ m : Int, (m : ℚ) / 10 ^ max l.scale r.scale =
        l.toRat - r.toRat * Flt.truncInt (l.toRat / r.toRat) ∧
      evalModNumeric [⟨t, .dec l⟩, ⟨u, .dec r⟩] ret =
        if r.unscaled = 0 then dbRaise .arithError "numeric 取余除零"
        else if kNumericUnscaledMax ≤ |DecimalVal.aligned l (max l.scale r.scale)| ∨
            kNumericUnscaledMax ≤ |DecimalVal.aligned r (max l.scale r.scale)| then
          dbRaise .arithError "numeric 算术结果超界"
        else .ok (numericVal ret m (max l.scale r.scale)) := by
  generalize scale : max l.scale r.scale = s
  have l_le : l.scale ≤ s := by omega
  have r_le : r.scale ≤ s := by omega
  refine ⟨(DecimalVal.aligned l s).tmod (DecimalVal.aligned r s), ?_, ?_⟩
  · have power : (10 : ℚ) ^ s ≠ 0 := by positivity
    have l_eq := DecimalVal.aligned_eq l_le
    have r_eq := DecimalVal.aligned_eq r_le
    by_cases zero : DecimalVal.aligned r s = 0
    · have r_zero : r.toRat = 0 := by
        rw [zero, Int.cast_zero] at r_eq
        exact (mul_eq_zero.mp r_eq.symm).resolve_right power
      rw [zero, Int.tmod_zero, r_zero, zero_mul, sub_zero, l_eq, mul_div_cancel_right₀ _ power]
    · have quotient : l.toRat / r.toRat = DecimalVal.aligned l s / DecimalVal.aligned r s := by
        rw [l_eq, r_eq, mul_div_mul_right _ _ power]
      rw [quotient, truncInt_div _ _ zero, Int.tmod_def, Int.cast_sub, Int.cast_mul, l_eq, r_eq]
      field_simp
  · simp only [evalModNumeric, argAt, getDec, Res.bind_ok, List.getElem?_cons_zero,
      List.getElem?_cons_succ, scale]
    by_cases zero : r.unscaled = 0
    · rw [if_pos zero, if_pos zero]
      rfl
    · rw [if_neg zero, if_neg zero, decAlign_eq l_bounded, decAlign_eq r_bounded]
      by_cases l_over : kNumericUnscaledMax ≤ |DecimalVal.aligned l s|
      · rw [if_pos l_over, if_pos (Or.inl l_over)]
        rfl
      · by_cases r_over : kNumericUnscaledMax ≤ |DecimalVal.aligned r s|
        · rw [if_neg l_over, if_pos r_over, if_pos (Or.inr r_over)]
          rfl
        · rw [if_neg l_over, if_neg r_over, if_neg (by rintro (past | past) <;> contradiction)]
          rfl

/-! ## The functions -/

/-- `round`, `floor`, `ceil` and `mod` of numerics are the exact functions on the
numbers they stand for; `internal` is never raised. -/
theorem numericFunctions_exact {l r : DecimalVal} (d_bounded : d.Bounded) (l_bounded : l.Bounded)
    (r_bounded : r.Bounded) (t u ret : TypeAttr) :
    (∀ n : Int64,
      ((d.scale : Int) ≤ n.toInt →
        evalRoundNumericInt [⟨t, .dec d⟩, ⟨u, .int64 n⟩] ret =
          .ok (numericVal ret d.unscaled d.scale)) ∧
      (n.toInt < d.scale →
        ∃ rounded : Int, (rounded : ℚ) / 10 ^ n.toInt.toNat = roundAt d.toRat n.toInt ∧
          evalRoundNumericInt [⟨t, .dec d⟩, ⟨u, .int64 n⟩] ret =
            if kNumericUnscaledMax ≤ |rounded| then dbRaise .arithError "numeric 算术结果超界"
            else .ok (numericVal ret rounded n.toInt.toNat))) ∧
    evalRoundNumeric [⟨t, .dec d⟩] ret =
      evalRoundNumericInt [⟨t, .dec d⟩, ⟨u, .int64 0⟩] ret ∧
    evalFloorNumeric [⟨t, .dec d⟩] ret = .ok (numericVal ret ⌊d.toRat⌋ 0) ∧
    evalCeilNumeric [⟨t, .dec d⟩] ret = .ok (numericVal ret ⌈d.toRat⌉ 0) ∧
    ∃ m : Int, (m : ℚ) / 10 ^ max l.scale r.scale =
        l.toRat - r.toRat * Flt.truncInt (l.toRat / r.toRat) ∧
      evalModNumeric [⟨t, .dec l⟩, ⟨u, .dec r⟩] ret =
        if r.unscaled = 0 then dbRaise .arithError "numeric 取余除零"
        else if kNumericUnscaledMax ≤ |DecimalVal.aligned l (max l.scale r.scale)| ∨
            kNumericUnscaledMax ≤ |DecimalVal.aligned r (max l.scale r.scale)| then
          dbRaise .arithError "numeric 算术结果超界"
        else .ok (numericVal ret m (max l.scale r.scale)) := by
  refine ⟨?_, rfl, ?_, ?_, modNumeric_eq l_bounded r_bounded t u ret⟩
  · intro n
    constructor
    · intro above
      exact if_pos above
    · intro below
      exact roundDec_below d_bounded below ret
  · exact truncDec_eq d_bounded false ret
  · exact truncDec_eq d_bounded true ret

/-- A half at the last decimal, and a remainder with the sign of the dividend. -/
theorem numericFunctions_exact_halves :
    (∃ rounded : Int, (rounded : ℚ) / 10 ^ 1 = roundAt (DecimalVal.toRat ⟨-125, 2⟩) 1 ∧
      .ok (numericVal {} (-13) 1) = (if kNumericUnscaledMax ≤ |rounded| then
        dbRaise .arithError "numeric 算术结果超界"
        else .ok (numericVal {} rounded 1) : Res Value)) ∧
      evalFloorNumeric [⟨{}, .dec ⟨-125, 2⟩⟩] {} =
        .ok (numericVal {} ⌊DecimalVal.toRat ⟨-125, 2⟩⌋ 0) ∧
      ∃ m : Int, (m : ℚ) / 10 ^ 1 = DecimalVal.toRat ⟨-75, 1⟩ - DecimalVal.toRat ⟨2, 0⟩ *
        Flt.truncInt (DecimalVal.toRat ⟨-75, 1⟩ / DecimalVal.toRat ⟨2, 0⟩) ∧
        .ok (numericVal {} (-15) 1) = (.ok (numericVal {} m 1) : Res Value) := by
  have all := @numericFunctions_exact ⟨-125, 2⟩ ⟨-75, 1⟩ ⟨2, 0⟩ ⟨by decide, by decide⟩
    ⟨by decide, by decide⟩ ⟨by decide, by decide⟩ {} {} {}
  obtain ⟨rounds, -, floor, -, remainder⟩ := all
  exact ⟨(rounds 1).2 (by decide), floor, remainder⟩

end MySimpleDb.Expr
