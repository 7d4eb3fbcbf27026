import MySimpleDb.Lib.Numeral
import MySimpleDb.Lib.Rounding
import MySimpleDb.Storage.CastSafe

/-!
# Conversions to 64-bit integers

What texts and numerics convert to a `bigint`, and to which.  A text may carry
two signs, one taken here and one by `from_chars`; a numeric is bounded by its
magnitude, so the least integer is out of reach.
-/

namespace MySimpleDb.Storage

open MySimpleDb.Lib

/-! ## Text -/

/-- A text that is a single optional sign and digits, and the integer it denotes. -/
def IntText (s : Bytes) (n : Int) : Prop :=
  ∃ digits : Bytes, digits ≠ [] ∧ digits.all isDigit = true ∧
    (((s = digits ∨ s = 43 :: digits) ∧ n = digitsVal digits) ∨
      (s = 45 :: digits ∧ n = -(digitsVal digits : Int)))

theorem not_all_isDigit {c : UInt8} {s : Bytes} (sign : isDigit c = false) :
    (c :: s).all isDigit ≠ true := by
  simp [sign]

/-- The digits of a text with a sign in front of a kind that `from_chars` reads. -/
theorem fromCharsI64_eq_some {s : Bytes} {i : Int64} :
    fromCharsI64 s = some i ↔ ∃ digits : Bytes, digits ≠ [] ∧ digits.all isDigit = true ∧
      ((s = digits ∧ i.toInt = digitsVal digits) ∨
        (s = 45 :: digits ∧ i.toInt = -(digitsVal digits : Int))) := by
  have above := i.le_toInt
  have below := i.toInt_lt
  have core : ∀ (digits : Bytes) (value : Int),
      (if digits = [] ∨ (!digits.all isDigit) = true ∨ value < int64Min ∨ int64Max < value then none
        else some (Int64.ofInt value)) = some i ↔
      digits ≠ [] ∧ digits.all isDigit = true ∧ i.toInt = value := by
    intro digits value
    constructor
    · intro read
      split at read
      · cases read
      · rename_i fits
        simp only [not_or, not_lt, Bool.not_eq_true', Bool.not_eq_false] at fits
        obtain ⟨nonempty, all, low, high⟩ := fits
        rw [← Option.some.inj read]
        refine ⟨nonempty, all, ?_⟩
        rw [int64Min] at low
        rw [int64Max] at high
        rw [Int64.toInt_ofInt_of_le] <;> omega
    · rintro ⟨nonempty, all, rfl⟩
      rw [if_neg]
      · rw [Int64.ofInt_toInt]
      · simp only [nonempty, all, int64Min, int64Max, false_or, Bool.not_true, Bool.false_eq_true]
        omega
  by_cases minus : ∃ rest, s = 45 :: rest
  · obtain ⟨rest, rfl⟩ := minus
    have signed : fromCharsI64 (45 :: rest) = if rest = [] ∨ (!rest.all isDigit) = true ∨
        -(digitsVal rest : Int) < int64Min ∨ int64Max < -(digitsVal rest : Int) then none
        else some (Int64.ofInt (-(digitsVal rest : Int))) :=
      rfl
    rw [signed, core rest (-(digitsVal rest : Int))]
    constructor
    · rintro ⟨nonempty, all, value⟩
      exact ⟨rest, nonempty, all, .inr ⟨rfl, value⟩⟩
    · rintro ⟨digits, nonempty, all, ⟨rfl, -⟩ | ⟨same, value⟩⟩
      · exact absurd all (not_all_isDigit rfl)
      · rw [(List.cons.inj same).2]
        exact ⟨nonempty, all, value⟩
  · have unsigned : fromCharsI64 s = if s = [] ∨ (!s.all isDigit) = true ∨
        (digitsVal s : Int) < int64Min ∨ int64Max < digitsVal s then none
        else some (Int64.ofInt (digitsVal s)) := by
      unfold fromCharsI64
      split
      · rename_i heq
        split at heq
        · rename_i rest
          exact absurd ⟨rest, rfl⟩ minus
        · cases heq
          rfl
    rw [unsigned, core s (digitsVal s)]
    constructor
    · rintro ⟨nonempty, all, value⟩
      exact ⟨s, nonempty, all, .inl ⟨rfl, value⟩⟩
    · rintro ⟨digits, nonempty, all, ⟨rfl, value⟩ | ⟨same, -⟩⟩
      · exact ⟨nonempty, all, value⟩
      · exact absurd ⟨digits, same⟩ minus

/-- The text that `from_chars` gets: without a plus sign in front. -/
def withoutPlus (s : Bytes) : Bytes :=
  match s with
  | 43 :: rest => rest
  | s => s

theorem parseI64_eq (s : Bytes) :
    parseI64 s = match fromCharsI64 (withoutPlus s) with
      | some i => .ok i
      | none => dbRaise .valueMismatch "字符串转数值失败" :=
  rfl

theorem parseI64_eq_ok {s : Bytes} {i : Int64} :
    parseI64 s = .ok i ↔ fromCharsI64 (withoutPlus s) = some i := by
  rw [parseI64_eq]
  cases fromCharsI64 (withoutPlus s) with
  | none => simp [dbRaise]
  | some i' => simp

/-- A text with two signs that is read all the same. -/
def TwoSigns (s : Bytes) : Prop :=
  ∃ digits : Bytes, s = 43 :: 45 :: digits ∧ digits ≠ [] ∧ digits.all isDigit = true ∧
    digitsVal digits ≤ 2 ^ 63

theorem TwoSigns.not_intText {s : Bytes} (signs : TwoSigns s) (n : Int) : ¬ IntText s n := by
  obtain ⟨digits, rfl, -⟩ := signs
  rintro ⟨digits', -, all, ⟨rfl | same, -⟩ | ⟨same, -⟩⟩
  · exact absurd all (not_all_isDigit rfl)
  · rw [← (List.cons.inj same).2] at all
    exact absurd all (not_all_isDigit rfl)
  · cases same

/-- What is read is an integer text, or one with a plus in front of a minus. -/
theorem parseI64_eq_ok_iff {s : Bytes} {i : Int64} :
    parseI64 s = .ok i ↔ IntText s i.toInt ∨ ∃ digits : Bytes, s = 43 :: 45 :: digits ∧
      digits ≠ [] ∧ digits.all isDigit = true ∧ i.toInt = -(digitsVal digits : Int) := by
  rw [parseI64_eq_ok, fromCharsI64_eq_some]
  by_cases plus : ∃ rest, s = 43 :: rest
  · obtain ⟨rest, rfl⟩ := plus
    change (∃ digits : Bytes, _ ∧ _ ∧ ((rest = digits ∧ _) ∨ rest = 45 :: digits ∧ _)) ↔ _
    constructor
    · rintro ⟨digits, nonempty, all, ⟨rfl, value⟩ | ⟨rfl, value⟩⟩
      · exact .inl ⟨rest, nonempty, all, .inl ⟨.inr rfl, value⟩⟩
      · exact .inr ⟨digits, rfl, nonempty, all, value⟩
    · rintro (⟨digits, nonempty, all, ⟨rfl | same, value⟩ | ⟨same, -⟩⟩ |
        ⟨digits, same, nonempty, all, value⟩)
      · exact absurd all (not_all_isDigit rfl)
      · exact ⟨digits, nonempty, all, .inl ⟨(List.cons.inj same).2, value⟩⟩
      · cases same
      · exact ⟨digits, nonempty, all, .inr ⟨(List.cons.inj same).2, value⟩⟩
  · have kept : withoutPlus s = s := by
      unfold withoutPlus
      split
      · rename_i rest
        exact absurd ⟨rest, rfl⟩ plus
      · rfl
    rw [kept]
    constructor
    · rintro ⟨digits, nonempty, all, ⟨rfl, value⟩ | ⟨rfl, value⟩⟩
      · exact .inl ⟨s, nonempty, all, .inl ⟨.inl rfl, value⟩⟩
      · exact .inl ⟨digits, nonempty, all, .inr ⟨rfl, value⟩⟩
    · rintro (⟨digits, nonempty, all, ⟨rfl | same, value⟩ | ⟨same, value⟩⟩ | ⟨digits, same, -⟩)
      · exact ⟨s, nonempty, all, .inl ⟨rfl, value⟩⟩
      · exact absurd ⟨digits, same⟩ plus
      · exact ⟨digits, nonempty, all, .inr ⟨same, value⟩⟩
      · exact absurd ⟨45 :: digits, same⟩ plus

theorem intText_intToText (n : Int) : IntText (intToText n) n := by
  refine ⟨natToText n.natAbs, natToText_ne_nil _, all_natToText _, ?_⟩
  rw [digitsVal_natToText, intToText]
  split
  · exact .inr ⟨rfl, by omega⟩
  · exact .inl ⟨.inl rfl, by omega⟩

/-- A text is read as the integer it denotes exactly if it is not one with two signs; the
text of an integer is read as that integer, and what is not read is a mismatch. -/
theorem parseI64_exact (s : Bytes) :
    ((∀ i : Int64, parseI64 s = .ok i ↔ IntText s i.toInt) ↔ ¬ TwoSigns s) ∧
    (∀ i : Int64, parseI64 (intToText i.toInt) = .ok i) ∧
    ((∀ i : Int64, parseI64 s ≠ .ok i) →
      parseI64 s = dbRaise .valueMismatch "字符串转数值失败") := by
  refine ⟨⟨?_, ?_⟩, ?_, ?_⟩
  · rintro exactly signs
    obtain ⟨digits, rfl, nonempty, all, small⟩ := signs
    have value : (Int64.ofInt (-(digitsVal digits : Int))).toInt = -(digitsVal digits : Int) := by
      rw [Int64.toInt_ofInt_of_le] <;> omega
    have read := parseI64_eq_ok_iff.mpr (.inr ⟨digits, rfl, nonempty, all, value⟩)
    exact TwoSigns.not_intText ⟨digits, rfl, nonempty, all, small⟩ _ ((exactly _).mp read)
  · intro single i
    rw [parseI64_eq_ok_iff]
    constructor
    · rintro (text | ⟨digits, rfl, nonempty, all, value⟩)
      · exact text
      · have below := i.le_toInt
        exact absurd ⟨digits, rfl, nonempty, all, by omega⟩ single
    · exact .inl
  · exact fun i => parseI64_eq_ok_iff.mpr (.inl (intText_intToText i.toInt))
  · intro unread
    rw [parseI64_eq]
    cases read : fromCharsI64 (withoutPlus s) with
    | none => rfl
    | some i => exact absurd (parseI64_eq_ok.mpr read) (unread i)

/-- `+-5` is read as -5. -/
theorem parseI64_two_signs :
    parseI64 (ascii "+-5") = .ok (-5) ∧ ¬ IntText (ascii "+-5") (-5) := by
  refine ⟨by decide, TwoSigns.not_intText ⟨ascii "5", ?_, ?_, ?_, ?_⟩ _⟩ <;> decide

/-! ## Numerics -/

/-- The numerics that round to the least integer. -/
def RoundsToLeast (d : DecimalVal) : Prop :=
  -(2 : ℚ) ^ 63 - 1 / 2 < d.toRat ∧ d.toRat ≤ -(2 : ℚ) ^ 63 + 1 / 2

theorem roundsToLeast_iff (d : DecimalVal) :
    RoundsToLeast d ↔ roundHalfAway d.toRat = int64Min := by
  have flipped := @roundHalfAway_eq_iff (-d.toRat) (2 ^ 63) (by norm_num)
  rw [roundHalfAway_neg] at flipped
  have least : roundHalfAway d.toRat = int64Min ↔ -roundHalfAway d.toRat = 2 ^ 63 := by
    rw [int64Min]
    omega
  rw [least, flipped, RoundsToLeast]
  push_cast
  constructor
  · rintro ⟨low, high⟩
    exact ⟨by linarith, by linarith⟩
  · rintro ⟨low, high⟩
    exact ⟨by linarith, by linarith⟩

/-- The magnitude is rounded and bounded by the greatest integer, then gets its sign. -/
theorem decRoundI64_eq {d : DecimalVal} (bounded : d.Bounded) :
    decRoundI64 d = if int64Max < roundHalfAway |d.toRat| then
        dbRaise .valueMismatch "numeric 值超出整型可表示范围"
      else .ok (Int64.ofInt (roundHalfAway d.toRat)) := by
  have magnitude : |d.toRat| = (d.unscaled.natAbs : ℚ) / (10 ^ d.scale : Nat) := by
    rw [DecimalVal.toRat, abs_div, Nat.cast_natAbs, Int.cast_abs, Nat.cast_pow, Nat.cast_ofNat,
      abs_of_pos (show (0 : ℚ) < 10 ^ d.scale by positivity)]
  have negative : d.toRat < 0 ↔ d.unscaled < 0 := by
    rw [DecimalVal.toRat, div_lt_iff₀ (by positivity), zero_mul]
    exact Int.cast_lt_zero
  rw [decRoundI64]
  by_cases large : 39 ≤ d.scale
  · have small : roundHalfAway |d.toRat| = 0 := by
      apply roundHalfAway_eq_zero
      have digits : d.unscaled.natAbs < 10 ^ 38 := by
        have := bounded.1
        rw [kNumericUnscaledMax, Int.abs_eq_natAbs] at this
        omega
      have power : 10 ^ 39 ≤ 10 ^ d.scale := Nat.pow_le_pow_right (by decide) large
      rw [magnitude, abs_of_nonneg (by positivity), div_lt_div_iff₀ (by positivity) two_pos]
      norm_cast
      omega
    have zero : roundHalfAway d.toRat = 0 := by
      rw [roundHalfAway_abs, small]
      split <;> rfl
    rw [if_pos large, small, zero, if_neg (by decide)]
    rfl
  · have rounded : roundHalfAway |d.toRat| = ((if 10 ^ d.scale ≤
        d.unscaled.natAbs % 10 ^ d.scale * 2 then d.unscaled.natAbs / 10 ^ d.scale + 1
        else d.unscaled.natAbs / 10 ^ d.scale : Nat) : Int) := by
      rw [magnitude, roundHalfAway_of_nonneg (by positivity), round_natCast_div _ (by positivity)]
      split <;> rfl
    rw [if_neg large, roundHalfAway_abs d.toRat]
    simp only [negative, rounded]

/-- A numeric converts to its rounded value if that is a 64-bit integer, and to nothing
otherwise, exactly if it does not round to the least one. -/
theorem decRoundI64_exact {d : DecimalVal} (bounded : d.Bounded) :
    (decRoundI64 d =
      if int64Min ≤ roundHalfAway d.toRat ∧ roundHalfAway d.toRat ≤ int64Max then
        .ok (Int64.ofInt (roundHalfAway d.toRat))
      else dbRaise .valueMismatch "numeric 值超出整型可表示范围") ↔ ¬ RoundsToLeast d := by
  rw [roundsToLeast_iff, decRoundI64_eq bounded]
  have nonneg := roundHalfAway_abs_nonneg d.toRat
  have signed := roundHalfAway_abs d.toRat
  generalize roundHalfAway |d.toRat| = magnitude at nonneg signed
  generalize roundHalfAway d.toRat = rounded at signed
  rw [int64Min, int64Max]
  by_cases past : 9223372036854775807 < magnitude
  · rw [if_pos past]
    by_cases least : rounded = -9223372036854775808
    · rw [if_pos (by omega)]
      simp [least, dbRaise]
    · have outside : ¬ (-9223372036854775808 ≤ rounded ∧ rounded ≤ 9223372036854775807) := by
        split at signed <;> omega
      simp [if_neg outside, least]
  · have inside : -9223372036854775808 ≤ rounded ∧ rounded ≤ 9223372036854775807 := by
      split at signed <;> omega
    have other : rounded ≠ -9223372036854775808 := by
      split at signed <;> omega
    simp [if_neg past, if_pos inside, other]

/-- A half is rounded away from zero. -/
theorem decRoundI64_exact_half :
    decRoundI64 ⟨-25, 1⟩ =
      if int64Min ≤ roundHalfAway (DecimalVal.toRat ⟨-25, 1⟩) ∧
          roundHalfAway (DecimalVal.toRat ⟨-25, 1⟩) ≤ int64Max then
        .ok (Int64.ofInt (roundHalfAway (DecimalVal.toRat ⟨-25, 1⟩)))
      else dbRaise .valueMismatch "numeric 值超出整型可表示范围" := by
  apply (decRoundI64_exact ⟨by decide, by decide⟩).mpr
  rintro ⟨-, high⟩
  norm_num [DecimalVal.toRat] at high

/-- The least integer is a numeric that is refused. -/
theorem decRoundI64_least :
    decRoundI64 ⟨int64Min, 0⟩ = dbRaise .valueMismatch "numeric 值超出整型可表示范围" ∧
      roundHalfAway (DecimalVal.toRat ⟨int64Min, 0⟩) = int64Min := by
  refine ⟨by decide, ?_⟩
  rw [DecimalVal.toRat, pow_zero, div_one, roundHalfAway_intCast]

end MySimpleDb.Storage
