import Mathlib.Algebra.Order.Round
import Mathlib.Data.Rat.Floor
import Mathlib.Tactic.Linarith
import Mathlib.Tactic.Positivity
import Mathlib.Tactic.FieldSimp

/-!
# Rounding halves away from zero

The nearest integer of a rational number, and how integer division with a
truncated quotient computes it.
-/

namespace MySimpleDb.Lib

/-- The nearest integer, a half going to the integer farther from zero. -/
def roundHalfAway (x : ℚ) : ℤ :=
  if x < 0 then -round |x| else round |x|

theorem roundHalfAway_neg (x : ℚ) : roundHalfAway (-x) = -roundHalfAway x := by
  rcases lt_trichotomy x 0 with neg | rfl | pos
  · simp [roundHalfAway, neg, neg.le]
  · simp [roundHalfAway]
  · simp [roundHalfAway, pos, pos.le]

theorem roundHalfAway_of_nonneg {x : ℚ} (nonneg : 0 ≤ x) : roundHalfAway x = round x := by
  rw [roundHalfAway, if_neg (not_lt.mpr nonneg), abs_of_nonneg nonneg]

theorem roundHalfAway_intCast (n : ℤ) : roundHalfAway n = n := by
  rcases le_total 0 n with nonneg | nonpos
  · rw [roundHalfAway_of_nonneg (by exact_mod_cast nonneg), round_intCast]
  · have flipped : roundHalfAway ((-n : ℤ) : ℚ) = -n := by
      rw [roundHalfAway_of_nonneg (by exact_mod_cast neg_nonneg.mpr nonpos), round_intCast]
    rw [Int.cast_neg, roundHalfAway_neg] at flipped
    exact neg_injective flipped

/-- Rounding acts on the magnitude and keeps the sign. -/
theorem roundHalfAway_abs (x : ℚ) :
    roundHalfAway x = if x < 0 then -roundHalfAway |x| else roundHalfAway |x| := by
  rw [roundHalfAway_of_nonneg (abs_nonneg x), roundHalfAway]

theorem roundHalfAway_eq_zero {x : ℚ} (small : |x| < 1 / 2) : roundHalfAway x = 0 := by
  have zero : round |x| = 0 := by
    rw [round_eq_zero_iff]
    constructor
    · exact le_trans (by norm_num) (abs_nonneg x)
    · exact small
  simp [roundHalfAway, zero]

theorem roundHalfAway_abs_nonneg (x : ℚ) : 0 ≤ roundHalfAway |x| := by
  rw [roundHalfAway_of_nonneg (abs_nonneg x), round_eq]
  positivity

/-- The numbers that round to a positive integer. -/
theorem roundHalfAway_eq_iff {x : ℚ} {n : ℤ} (pos : 0 < n) :
    roundHalfAway x = n ↔ (n : ℚ) - 1 / 2 ≤ x ∧ x < n + 1 / 2 := by
  have one_le : (1 : ℚ) ≤ n := by exact_mod_cast pos
  rcases lt_or_ge x 0 with neg | nonneg
  · have nonneg_round := roundHalfAway_abs_nonneg x
    rw [roundHalfAway_abs, if_pos neg]
    constructor
    · intro same
      omega
    · rintro ⟨low, -⟩
      linarith
  · rw [roundHalfAway_of_nonneg nonneg, round_eq, Int.floor_eq_iff]
    constructor
    · rintro ⟨low, high⟩
      exact ⟨by linarith, by linarith⟩
    · rintro ⟨low, high⟩
      exact ⟨by linarith, by linarith⟩

/-- The number rounded at decimal `n`; with `n` negative, at tens, hundreds and
so on. -/
def roundAt (x : ℚ) (n : ℤ) : ℚ :=
  roundHalfAway (x * 10 ^ n) / 10 ^ n

/-- A quotient is rounded up when twice the remainder reaches the divisor. -/
theorem round_natCast_div (m : ℕ) {d : ℕ} (pos : 0 < d) :
    round ((m : ℚ) / d) = if d ≤ m % d * 2 then ((m / d + 1 : ℕ) : ℤ) else (m / d : ℕ) := by
  have split : (m : ℚ) = (m / d : ℕ) * d + (m % d : ℕ) := by
    exact_mod_cast (Nat.div_add_mod' m d).symm
  have d_pos : (0 : ℚ) < d := by exact_mod_cast pos
  have small : ((m % d : ℕ) : ℚ) < d := by exact_mod_cast Nat.mod_lt m pos
  have quotient : (m : ℚ) / d = (m / d : ℕ) + (m % d : ℕ) / d := by
    rw [split]
    field_simp
  have frac_nonneg : (0 : ℚ) ≤ (m % d : ℕ) / d := by positivity
  have frac_lt : ((m % d : ℕ) : ℚ) / d < 1 := (div_lt_one d_pos).mpr small
  rw [round_eq, Int.floor_eq_iff, quotient]
  by_cases half : d ≤ m % d * 2
  · have half_le : (1 : ℚ) / 2 ≤ (m % d : ℕ) / d := by
      rw [div_le_div_iff₀ two_pos d_pos, one_mul]
      exact_mod_cast half
    rw [if_pos half]
    simp only [Nat.cast_add, Nat.cast_one, Int.cast_add, Int.cast_natCast, Int.cast_one]
    constructor <;> linarith
  · have lt_half : ((m % d : ℕ) : ℚ) / d < 1 / 2 := by
      rw [div_lt_div_iff₀ d_pos two_pos, one_mul]
      exact_mod_cast not_le.mp half
    rw [if_neg half]
    simp only [Int.cast_natCast]
    constructor <;> linarith

theorem roundHalfAway_natCast_div (m : ℕ) {d : ℕ} (pos : 0 < d) :
    roundHalfAway ((m : ℚ) / d) =
      if (d : ℤ) ≤ (m : ℤ) % d * 2 then (m : ℤ) / d + 1 else (m : ℤ) / d := by
  rw [roundHalfAway_of_nonneg (by positivity), round_natCast_div m pos]
  have half : (d : ℤ) ≤ (m : ℤ) % d * 2 ↔ d ≤ m % d * 2 := by norm_cast
  simp [half]

/-- The truncated quotient, carried one away from zero when twice the
remainder reaches the divisor; the carry has the sign of the dividend. -/
theorem roundHalfAway_div (u : ℤ) {d : ℕ} (pos : 0 < d) :
    roundHalfAway ((u : ℚ) / d) =
      if (d : ℤ) ≤ |u.tmod d| * 2 then u.tdiv d + u.sign else u.tdiv d := by
  have natural : ∀ m : ℕ, roundHalfAway ((m : ℚ) / d) =
      if d ≤ m % d * 2 then (m : ℤ).tdiv d + 1 else (m : ℤ).tdiv d := by
    intro m
    rw [roundHalfAway_of_nonneg (by positivity), round_natCast_div m pos]
    simp
  have remainder : ∀ m : ℕ, (d : ℤ) ≤ |(m : ℤ).tmod d| * 2 ↔ d ≤ m % d * 2 := by
    intro m
    rw [← Int.ofNat_tmod, Nat.abs_cast]
    norm_cast
  obtain ⟨m, rfl | rfl⟩ := u.eq_nat_or_neg
  · rw [Int.cast_natCast, natural]
    simp only [remainder]
    rcases m.eq_zero_or_pos with rfl | m_pos
    · simp [pos.ne']
    · rw [Int.sign_eq_one_of_pos (by exact_mod_cast m_pos)]
  · rw [Int.cast_neg, Int.cast_natCast, neg_div, roundHalfAway_neg, natural]
    simp only [Int.neg_tmod, abs_neg, remainder, Int.neg_tdiv, Int.sign_neg]
    rcases m.eq_zero_or_pos with rfl | m_pos
    · simp [pos.ne']
    · rw [Int.sign_eq_one_of_pos (by exact_mod_cast m_pos)]
      split <;> ring

end MySimpleDb.Lib
