import MySimpleDb.Lib.ThreeWay
import MySimpleDb.Expr.DecimalArith
import Mathlib.Data.List.Lex
import Mathlib.Data.Prod.Lex

/-!
# The order of values

Comparison of numerics and integers agrees with the numbers they stand for, and
on the values of one static type the comparison is a total preorder with NULL
as the largest element.
-/

namespace MySimpleDb.Expr

open MySimpleDb.Lib MySimpleDb.Storage MySimpleDb.Analyzer

/-! ## Numerics -/

/-- The place of the leading digit bounds the magnitude from both sides. -/
theorem magnitude_bounds {d : DecimalVal} (nonzero : d.unscaled ≠ 0) :
    (10 : ℚ) ^ ((decimalDigits d.unscaled.natAbs : Int) - d.scale - 1) ≤ |d.toRat| ∧
      |d.toRat| < 10 ^ ((decimalDigits d.unscaled.natAbs : Int) - d.scale) := by
  have ten : (10 : ℚ) ≠ 0 := by norm_num
  have mag_pos : d.unscaled.natAbs ≠ 0 := Int.natAbs_ne_zero.mpr nonzero
  have digits_pos : 0 < decimalDigits d.unscaled.natAbs := by
    rw [decimalDigits, Nat.lt_digits_length_iff (by decide)]
    omega
  have low : 10 ^ (decimalDigits d.unscaled.natAbs - 1) ≤ d.unscaled.natAbs := by
    rw [← Nat.lt_digits_length_iff (by decide)]
    exact Nat.sub_lt digits_pos one_pos
  have high : d.unscaled.natAbs < 10 ^ decimalDigits d.unscaled.natAbs :=
    Nat.lt_base_pow_length_digits (by decide)
  have magnitude : |d.toRat| = (d.unscaled.natAbs : ℚ) / 10 ^ d.scale := by
    rw [DecimalVal.toRat, abs_div, abs_of_pos (by positivity : (0 : ℚ) < 10 ^ d.scale),
      Nat.cast_natAbs, Int.cast_abs]
  have place : ((decimalDigits d.unscaled.natAbs : Int) - d.scale - 1) =
      ((decimalDigits d.unscaled.natAbs - 1 : Nat) : Int) - d.scale := by omega
  rw [magnitude, place, zpow_sub₀ ten, zpow_sub₀ ten, zpow_natCast, zpow_natCast, zpow_natCast]
  constructor
  · rw [div_le_div_iff_of_pos_right (by positivity)]
    exact_mod_cast low
  · rw [div_lt_div_iff_of_pos_right (by positivity)]
    exact_mod_cast high

/-- Aligning two unscaled magnitudes compares the numbers. -/
theorem aligned_lt_iff (a b : DecimalVal) :
    a.unscaled.natAbs * 10 ^ (b.scale - a.scale) < b.unscaled.natAbs * 10 ^ (a.scale - b.scale) ↔
      |a.toRat| < |b.toRat| := by
  have a_scale : b.scale - a.scale + min a.scale b.scale = b.scale := by omega
  have b_scale : a.scale - b.scale + min a.scale b.scale = a.scale := by omega
  have common : 0 < 10 ^ min a.scale b.scale := by positivity
  have a_pos : (0 : ℚ) < 10 ^ a.scale := by positivity
  have b_pos : (0 : ℚ) < 10 ^ b.scale := by positivity
  rw [DecimalVal.toRat, DecimalVal.toRat, abs_div, abs_div, abs_of_pos a_pos, abs_of_pos b_pos,
    div_lt_div_iff₀ a_pos b_pos, ← Nat.mul_lt_mul_right common, Nat.mul_assoc, Nat.mul_assoc,
    ← pow_add, ← pow_add, a_scale, b_scale, ← Int.cast_abs, ← Int.cast_abs, ← Nat.cast_natAbs,
    ← Nat.cast_natAbs]
  norm_cast

/-- A smaller place of the leading digit is a smaller magnitude. -/
theorem abs_lt_of_place_lt {a b : DecimalVal} (a_nonzero : a.unscaled ≠ 0)
    (b_nonzero : b.unscaled ≠ 0)
    (place : (decimalDigits a.unscaled.natAbs : Int) - a.scale <
      decimalDigits b.unscaled.natAbs - b.scale) : |a.toRat| < |b.toRat| :=
  calc |a.toRat| < 10 ^ ((decimalDigits a.unscaled.natAbs : Int) - a.scale) :=
        (magnitude_bounds a_nonzero).2
    _ ≤ 10 ^ ((decimalDigits b.unscaled.natAbs : Int) - b.scale - 1) :=
        zpow_le_zpow_right₀ (by norm_num) (by omega)
    _ ≤ |b.toRat| := (magnitude_bounds b_nonzero).1

/-- The sign of a comparison of two numbers of the same sign, decided on their
magnitudes. -/
theorem sign_of_magnitudes {x y : ℚ} (same : x < 0 ↔ y < 0) :
    threeWay x y =
      if |x| < |y| then (if x < 0 then 1 else -1)
      else if |y| < |x| then (if x < 0 then -1 else 1) else 0 := by
  rw [threeWay]
  by_cases neg : x < 0
  · rw [abs_of_neg neg, abs_of_neg (same.mp neg), if_pos neg, if_pos neg]
    simp only [neg_lt_neg_iff]
    rcases lt_trichotomy x y with lt | rfl | gt
    · rw [if_pos lt, if_neg (not_lt.mpr lt.le), if_pos lt]
    · simp
    · rw [if_neg (not_lt.mpr gt.le), if_pos gt, if_pos gt]
  · have y_nonneg : 0 ≤ y := not_lt.mp (mt same.mpr neg)
    rw [abs_of_nonneg (not_lt.mp neg), abs_of_nonneg y_nonneg, if_neg neg, if_neg neg]

/-- The comparison of numerics is the one of the numbers. -/
theorem decCmp_eq (a b : DecimalVal) : decCmp a b = threeWay a.toRat b.toRat := by
  have a_neg := @toRat_lt_zero a
  have b_neg := @toRat_lt_zero b
  have a_zero := @toRat_eq_zero a
  have b_zero := @toRat_eq_zero b
  simp only [decCmp, ← a_neg, ← b_neg, ← a_zero, ← b_zero]
  by_cases a_is : a.toRat = 0
  · by_cases b_is : b.toRat = 0
    · simp [a_is, b_is, threeWay]
    · rcases lt_or_gt_of_ne b_is with lt | gt
      · simp [a_is, b_is, lt, lt.le, threeWay]
      · simp [a_is, b_is, gt, gt.le, threeWay]
  · by_cases b_is : b.toRat = 0
    · rcases lt_or_gt_of_ne a_is with lt | gt
      · simp [a_is, b_is, lt, threeWay]
      · simp [a_is, b_is, gt, threeWay]
    · simp only [a_is, b_is, decide_false, Bool.or_false, Bool.false_eq_true, if_false]
      by_cases same : a.toRat < 0 ↔ b.toRat < 0
      · have a_nonzero := mt a_zero.mpr a_is
        have b_nonzero := mt b_zero.mpr b_is
        rw [sign_of_magnitudes same]
        simp only [same, bne_self_eq_false, Bool.false_eq_true, if_false]
        rcases lt_trichotomy ((decimalDigits a.unscaled.natAbs : Int) - a.scale)
          (decimalDigits b.unscaled.natAbs - b.scale) with below | level | above
        · have lt := abs_lt_of_place_lt a_nonzero b_nonzero below
          rw [if_pos below.ne, if_pos lt]
          by_cases neg : b.toRat < 0 <;> simp [neg, below]
        · have lt_iff := aligned_lt_iff a b
          have gt_iff := aligned_lt_iff b a
          rw [if_neg (not_not.mpr level)]
          simp only [← lt_iff, ← gt_iff]
          rcases lt_trichotomy (a.unscaled.natAbs * 10 ^ (b.scale - a.scale))
            (b.unscaled.natAbs * 10 ^ (a.scale - b.scale)) with lt | eq | gt
          · rw [if_neg lt.ne, if_pos lt]
            by_cases neg : b.toRat < 0 <;> simp [neg, lt]
          · rw [if_pos eq, if_neg eq.not_lt, if_neg eq.not_gt]
          · rw [if_neg gt.ne', if_neg (not_lt.mpr gt.le), if_pos gt]
            by_cases neg : b.toRat < 0 <;> simp [neg, gt.le]
        · have gt := abs_lt_of_place_lt b_nonzero a_nonzero above
          rw [if_pos above.ne', if_neg (not_lt.mpr gt.le), if_pos gt]
          by_cases neg : b.toRat < 0 <;> simp [neg, above.le]
      · -- the signs differ, and the negative number is the smaller one
        rcases lt_or_gt_of_ne a_is with a_lt | a_gt
        · have b_gt : 0 < b.toRat := lt_of_le_of_ne (not_lt.mp (by tauto)) (Ne.symm b_is)
          simp [a_lt, not_lt.mpr b_gt.le, a_lt.trans b_gt, threeWay]
        · have b_lt : b.toRat < 0 := by
            by_contra b_not
            exact same (iff_of_false (not_lt.mpr a_gt.le) b_not)
          simp [b_lt, not_lt.mpr a_gt.le, b_lt.trans a_gt, not_lt.mpr (b_lt.trans a_gt).le,
            threeWay]

/-- Magnitudes with the same place are aligned within 38 digits. -/
theorem aligned_small {a b : DecimalVal} (a_bounded : a.Bounded) (b_bounded : b.Bounded)
    (level : (decimalDigits a.unscaled.natAbs : Int) - a.scale =
      decimalDigits b.unscaled.natAbs - b.scale) :
    a.unscaled.natAbs * 10 ^ (b.scale - a.scale) < 10 ^ 38 := by
  have b_small : b.unscaled.natAbs < 10 ^ 38 := by
    have := b_bounded.1
    rw [kNumericUnscaledMax, Int.abs_eq_natAbs] at this
    omega
  have a_small : a.unscaled.natAbs < 10 ^ 38 := by
    have := a_bounded.1
    rw [kNumericUnscaledMax, Int.abs_eq_natAbs] at this
    omega
  rcases le_or_gt b.scale a.scale with deeper | higher
  · rw [Nat.sub_eq_zero_of_le deeper, pow_zero, mul_one]
    exact a_small
  · -- the digits added are the ones the other magnitude has more
    have b_digits : decimalDigits b.unscaled.natAbs ≤ 38 := by
      by_contra more
      rw [not_le, decimalDigits, Nat.lt_digits_length_iff (by decide)] at more
      omega
    have a_high : a.unscaled.natAbs < 10 ^ decimalDigits a.unscaled.natAbs :=
      Nat.lt_base_pow_length_digits (by decide)
    calc a.unscaled.natAbs * 10 ^ (b.scale - a.scale)
        < 10 ^ decimalDigits a.unscaled.natAbs * 10 ^ (b.scale - a.scale) :=
          Nat.mul_lt_mul_of_pos_right a_high (by positivity)
      _ = 10 ^ decimalDigits b.unscaled.natAbs := by
          rw [← pow_add]
          congr 1
          omega
      _ ≤ 10 ^ 38 := Nat.pow_le_pow_right (by decide) b_digits

/-! ## Ranks -/

/-- The number a box stands for; the truth values are 0 and 1. -/
def boxNumber : Box → ℚ
  | .int64 i => i.toInt
  | .dec d => d.toRat
  | .double d => d.toRat
  | .float x => (widenF64 x).toRat
  | .bool b => if b then 1 else 0
  | _ => 0

/-- A text as compared: its bytes, without the padding of a padded type. -/
def textKey (v : Value) : List Nat :=
  match v.box with
  | .str s => (compareView v s).map UInt8.toNat
  | _ => []

/-- The place of a value in the order of its type; NULL is at the top. -/
def valueRank (v : Value) : WithTop (ℚ ×ₗ List Nat) :=
  if v.box = .null then ⊤ else (toLex (boxNumber v.box, textKey v) : ℚ ×ₗ List Nat)

theorem bytesCompare_sign (l r : Bytes) :
    (bytesCompare l r < 0 ↔ l.map UInt8.toNat < r.map UInt8.toNat) ∧
      (0 < bytesCompare l r ↔ r.map UInt8.toNat < l.map UInt8.toNat) := by
  induction l generalizing r with
  | nil => cases r <;> simp [bytesCompare]
  | cons a l inductionHypothesis =>
      cases r with
      | nil => simp [bytesCompare]
      | cons b r =>
          simp only [bytesCompare, List.map_cons, List.cons_lt_cons_iff]
          by_cases lt : a < b
          · have nat_lt : a.toNat < b.toNat := lt
            rw [if_pos lt]
            constructor <;> constructor <;> intro h <;> omega
          · rw [if_neg lt]
            by_cases gt : b < a
            · have nat_lt : b.toNat < a.toNat := gt
              rw [if_pos gt]
              constructor <;> constructor <;> intro h <;> omega
            · have eq : a.toNat = b.toNat := by
                have : ¬ a.toNat < b.toNat := lt
                have : ¬ b.toNat < a.toNat := gt
                omega
              rw [if_neg gt, (inductionHypothesis r).1, (inductionHypothesis r).2]
              simp [eq]

theorem f64Cmp_eq {x y : F64} (x_finite : x.isFinite = true) (y_finite : y.isFinite = true) :
    f64Cmp x y = threeWay x.toRat y.toRat := by
  simp only [f64Cmp, Flt.lt_eq_decide x_finite y_finite, Flt.lt_eq_decide y_finite x_finite,
    decide_eq_true_eq, threeWay]

theorem boxF64_double {t : TypeAttr} (rep : t.rep = .double) (d : F64) :
    boxF64 ⟨t, .double d⟩ = .ok d := by
  simp [boxF64, toDouble, castValue, valueIsNull, rep, kCastTable, kDouble, castTier,
    CastMode.tier, restamp, bind, Except.bind]

theorem boxF64_float {t : TypeAttr} (rep : t.rep = .float) (x : F32) :
    boxF64 ⟨t, .float x⟩ = .ok (widenF64 x) := by
  simp [boxF64, toDouble, castValue, valueIsNull, rep, kCastTable, kDouble, castTier,
    CastMode.tier, f32ToF64, Storage.getF32, doubleVal, bind, Except.bind, pure, Except.pure]

theorem int64Cmp_eq (i j : Int64) :
    (if i < j then -1 else if j < i then 1 else 0) = threeWay (i.toInt : ℚ) (j.toInt : ℚ) := by
  simp only [Int64.lt_iff_toInt_lt, threeWay, Int.cast_lt]

/-- Two numbers, neither of them floating-point, are compared exactly. -/
theorem numCmp_exact {a b : Value} (a_exact : a.box.rep = .int64 ∨ a.box.rep = .dec)
    (b_exact : b.box.rep = .int64 ∨ b.box.rep = .dec) :
    numCmp a b = .ok (threeWay (boxNumber a.box) (boxNumber b.box)) := by
  have whole : ∀ i : Int64, DecimalVal.toRat ⟨i.toInt, 0⟩ = i.toInt := by
    intro i
    simp [DecimalVal.toRat]
  rcases a with ⟨t, abox⟩
  rcases b with ⟨u, bbox⟩
  cases abox <;> simp only [Box.rep, reduceCtorEq, or_false, or_true] at a_exact <;>
    cases bbox <;> simp only [Box.rep, reduceCtorEq, or_false, or_true] at b_exact <;>
    simp only [numCmp, decCmp_eq, boxNumber, whole, int64Cmp_eq]

/-! ## Static types -/

theorem rank_lt_iff {a b : Value} (a_val : a.box ≠ .null) (b_val : b.box ≠ .null) :
    valueRank a < valueRank b ↔ boxNumber a.box < boxNumber b.box ∨
      boxNumber a.box = boxNumber b.box ∧ textKey a < textKey b := by
  rw [valueRank, valueRank, if_neg a_val, if_neg b_val, WithTop.coe_lt_coe,
    Prod.Lex.toLex_lt_toLex]

/-- Without texts the rank is the number. -/
theorem rank_lt_iff_number {a b : Value} (a_val : a.box ≠ .null) (b_val : b.box ≠ .null)
    (a_rep : a.box.rep ≠ .str) (b_rep : b.box.rep ≠ .str) :
    valueRank a < valueRank b ↔ boxNumber a.box < boxNumber b.box := by
  have no_text : ∀ v : Value, v.box.rep ≠ .str → textKey v = [] := by
    rintro ⟨t, box⟩ rep
    cases box <;> first | rfl | exact absurd rfl rep
  rw [rank_lt_iff a_val b_val, no_text a a_rep, no_text b b_rep]
  simp

/-- The families of the built-in types, by representation. -/
theorem family_of_rep {t : TypeAttr} (mem : t ∈ kTypeAttrs) :
    (t.rep = .int64 ∨ t.rep = .double ∨ t.rep = .float ∨ t.rep = .dec) ∧ t.family = .num ∨
      t.rep = .str ∧ t.family = .text ∨ t.rep = .bool ∧ t.family = .bool := by
  have each : ∀ t ∈ kTypeAttrs,
      (t.rep = .int64 ∨ t.rep = .double ∨ t.rep = .float ∨ t.rep = .dec) ∧ t.family = .num ∨
      t.rep = .str ∧ t.family = .text ∨ t.rep = .bool ∧ t.family = .bool := by decide
  exact each t mem

/-- Two numbers of one representation are compared as numbers. -/
theorem numCmp_same {a b : Value} (a_rep : a.type.rep = a.box.rep) (b_rep : b.type.rep = b.box.rep)
    (same : a.box.rep = b.box.rep)
    (num : a.box.rep = .int64 ∨ a.box.rep = .double ∨ a.box.rep = .float ∨ a.box.rep = .dec)
    (a_finite : a.box.Finite) (b_finite : b.box.Finite) :
    numCmp a b = .ok (threeWay (boxNumber a.box) (boxNumber b.box)) := by
  rcases a with ⟨t, abox⟩
  rcases b with ⟨u, bbox⟩
  cases abox with
  | int64 i => exact numCmp_exact (Or.inl rfl) (Or.inl same.symm)
  | dec d => exact numCmp_exact (Or.inr rfl) (Or.inr same.symm)
  | double x =>
      cases bbox <;> simp only [Box.rep, reduceCtorEq] at same
      simp only [numCmp, boxF64_double a_rep, boxF64_double b_rep, Res.bind_ok,
        f64Cmp_eq a_finite b_finite, boxNumber]
      rfl
  | float x =>
      cases bbox <;> simp only [Box.rep, reduceCtorEq] at same
      simp only [numCmp, boxF64_float a_rep, boxF64_float b_rep, Res.bind_ok,
        f64Cmp_eq (widenF64_isFinite a_finite) (widenF64_isFinite b_finite), boxNumber]
      rfl
  | _ => simp [Box.rep] at num

/-- The comparison of two values that are not NULL answers with their ranks. -/
theorem valueCmp_present {t : TypeAttr} {a b : Value} (a_typed : a.OfType t) (b_typed : b.OfType t)
    (a_val : a.box ≠ .null) (b_val : b.box ≠ .null) :
    ∃ c, valueCmp a b = .ok c ∧ (c < 0 ↔ valueRank a < valueRank b) ∧
      (0 < c ↔ valueRank b < valueRank a) := by
  have a_type := a_typed.2.resolve_left a_val
  have b_type := b_typed.2.resolve_left b_val
  obtain ⟨mem, a_rep, a_finite⟩ := a_typed.1.resolve_left a_val
  obtain ⟨-, b_rep, b_finite⟩ := b_typed.1.resolve_left b_val
  have a_null : valueIsNull a = false := by
    rw [← Bool.not_eq_true, valueIsNull_iff]
    exact a_val
  have b_null : valueIsNull b = false := by
    rw [← Bool.not_eq_true, valueIsNull_iff]
    exact b_val
  have same : a.box.rep = b.box.rep := by rw [← a_rep, ← b_rep, a_type, b_type]
  rw [valueCmp]
  simp only [a_null, b_null, Bool.or_self, Bool.false_eq_true, if_false]
  rcases family_of_rep mem with ⟨rep, family⟩ | ⟨rep, family⟩ | ⟨rep, family⟩
  · have b_family : b.type.family = .num := by rw [b_type, ← a_type, family]
    rw [a_rep] at rep
    have a_not_str : a.box.rep ≠ .str := by
      rcases rep with rep | rep | rep | rep <;> simp [rep]
    rw [rank_lt_iff_number a_val b_val a_not_str (same ▸ a_not_str),
      rank_lt_iff_number b_val a_val (same ▸ a_not_str) a_not_str]
    simp only [family, b_family, if_true]
    exact ⟨_, numCmp_same a_rep b_rep same rep a_finite b_finite, threeWay_neg_iff,
      threeWay_pos_iff⟩
  · have b_family : b.type.family = .text := by rw [b_type, ← a_type, family]
    rw [rank_lt_iff a_val b_val, rank_lt_iff b_val a_val]
    rw [a_rep] at rep
    rcases a with ⟨t, abox⟩
    rcases b with ⟨u, bbox⟩
    cases abox <;> simp only [Box.rep, reduceCtorEq] at rep
    cases bbox <;> simp only [Box.rep, reduceCtorEq] at same
    dsimp only at family b_family
    simp only [family, b_family, if_true, boxNumber, lt_irrefl, true_and, false_or, textKey]
    exact ⟨_, rfl, bytesCompare_sign _ _⟩
  · have b_family : b.type.family = .bool := by rw [b_type, ← a_type, family]
    rw [a_rep] at rep
    have a_not_str : a.box.rep ≠ .str := by simp [rep]
    rw [rank_lt_iff_number a_val b_val a_not_str (same ▸ a_not_str),
      rank_lt_iff_number b_val a_val (same ▸ a_not_str) a_not_str]
    rcases a with ⟨t, abox⟩
    rcases b with ⟨u, bbox⟩
    cases abox <;> simp only [Box.rep, reduceCtorEq] at rep
    cases bbox <;> simp only [Box.rep, reduceCtorEq] at same
    dsimp only at family b_family
    simp only [family, b_family, if_true, boxNumber]
    refine ⟨_, rfl, ?_⟩
    rename_i l r
    cases l <;> cases r <;> simp

/-- On the values of a static type and NULL the comparison is the one of ranks. -/
theorem valueCmp_measures {t : TypeAttr} (a b : Value) (a_typed : a.OfType t)
    (b_typed : b.OfType t) :
    ∃ c, valueCmp a b = .ok c ∧ (c < 0 ↔ valueRank a < valueRank b) ∧
      (0 < c ↔ valueRank b < valueRank a) := by
  by_cases a_null : a.box = .null
  · by_cases b_null : b.box = .null
    · refine ⟨0, ?_, ?_⟩
      · simp [valueCmp, valueIsNull_iff.mpr a_null, valueIsNull_iff.mpr b_null]
      · simp [valueRank, a_null, b_null]
    · refine ⟨1, ?_, ?_⟩
      · have b_val : valueIsNull b = false := by
          rw [← Bool.not_eq_true, valueIsNull_iff]
          exact b_null
        simp [valueCmp, valueIsNull_iff.mpr a_null, b_val]
      · simp [valueRank, a_null, b_null]
  · by_cases b_null : b.box = .null
    · refine ⟨-1, ?_, ?_⟩
      · have a_val : valueIsNull a = false := by
          rw [← Bool.not_eq_true, valueIsNull_iff]
          exact a_null
        simp [valueCmp, valueIsNull_iff.mpr b_null, a_val]
      · simp [valueRank, a_null, b_null]
    · exact valueCmp_present a_typed b_typed a_null b_null

theorem valueCmp_total (t : TypeAttr) : TotalOn (fun v => Value.OfType v t) valueCmp :=
  TotalOn.of_rank valueRank valueCmp_measures

end MySimpleDb.Expr
