import MySimpleDb.Storage.IndexKey
import MySimpleDb.Expr.Order

/-!
# Index keys preserve the order of values

The index compares encoded keys and the evaluator compares values; on the
values of an indexable column, NULL among them, both give the same sign.
-/

namespace MySimpleDb.Expr

open MySimpleDb.Lib MySimpleDb.Storage

theorem int64Key_lt_iff (i j : Int64) :
    (⟨i.toUInt64 ^^^ signFlip, false⟩ : IndexKey) < ⟨j.toUInt64 ^^^ signFlip, false⟩ ↔
      (i.toInt : ℚ) < j.toInt := by
  rw [IndexKey.lt_iff_rank, Int.cast_lt]
  have i_rank := rank_int64 i
  have j_rank := rank_int64 j
  omega

/-- Keys of two present values of an indexable type. -/
theorem encodeKey_present {t : TypeAttr} {a b : Value}
    (indexable : t ∈ [kInt, kBigint, kFloat, kDouble, kBool]) (a_typed : a.OfType t)
    (b_typed : b.OfType t) (a_val : a.box ≠ .null) (b_val : b.box ≠ .null) :
    ∃ ka kb, encodeKey t a = .ok ka ∧ encodeKey t b = .ok kb ∧
      (ka < kb ↔ valueRank a < valueRank b) ∧ (kb < ka ↔ valueRank b < valueRank a) := by
  obtain ⟨-, a_rep, a_finite⟩ := a_typed.1.resolve_left a_val
  obtain ⟨-, b_rep, b_finite⟩ := b_typed.1.resolve_left b_val
  rw [a_typed.2.resolve_left a_val] at a_rep
  rw [b_typed.2.resolve_left b_val] at b_rep
  have each : ∀ t ∈ [kInt, kBigint, kFloat, kDouble, kBool],
      t.rep = .int64 ∨ t.rep = .float ∨ t.rep = .double ∨ t.rep = .bool := by decide
  have reps := each t indexable
  have a_not_str : a.box.rep ≠ .str := by
    rw [← a_rep]
    rcases reps with rep | rep | rep | rep <;> simp [rep]
  have b_not_str : b.box.rep ≠ .str := by
    rw [← b_rep]
    rcases reps with rep | rep | rep | rep <;> simp [rep]
  rw [rank_lt_iff_number a_val b_val a_not_str b_not_str,
    rank_lt_iff_number b_val a_val b_not_str a_not_str]
  rcases a with ⟨at', abox⟩
  rcases b with ⟨bt, bbox⟩
  dsimp only at *
  rcases reps with rep | rep | rep | rep
  · rw [rep] at a_rep b_rep
    cases abox <;> simp only [Box.rep, reduceCtorEq] at a_rep
    cases bbox <;> simp only [Box.rep, reduceCtorEq] at b_rep
    rename_i i j
    refine ⟨⟨i.toUInt64 ^^^ signFlip, false⟩, ⟨j.toUInt64 ^^^ signFlip, false⟩, ?_, ?_,
      int64Key_lt_iff i j, int64Key_lt_iff j i⟩ <;> simp [encodeKey, rep]
  · rw [rep] at a_rep b_rep
    cases abox <;> simp only [Box.rep, reduceCtorEq] at a_rep
    cases bbox <;> simp only [Box.rep, reduceCtorEq] at b_rep
    rename_i x y
    have x_num := Flt.isFinite_not_isNaN (widenF64_isFinite a_finite)
    have y_num := Flt.isFinite_not_isNaN (widenF64_isFinite b_finite)
    refine ⟨doubleKey (widenF64 x), doubleKey (widenF64 y), ?_, ?_,
      doubleKey_lt_iff x_num y_num, doubleKey_lt_iff y_num x_num⟩ <;>
      simp [encodeKey, rep, widenF64]
  · rw [rep] at a_rep b_rep
    cases abox <;> simp only [Box.rep, reduceCtorEq] at a_rep
    cases bbox <;> simp only [Box.rep, reduceCtorEq] at b_rep
    rename_i x y
    have x_num := Flt.isFinite_not_isNaN a_finite
    have y_num := Flt.isFinite_not_isNaN b_finite
    refine ⟨doubleKey x, doubleKey y, ?_, ?_,
      doubleKey_lt_iff x_num y_num, doubleKey_lt_iff y_num x_num⟩ <;> simp [encodeKey, rep]
  · rw [rep] at a_rep b_rep
    cases abox <;> simp only [Box.rep, reduceCtorEq] at a_rep
    cases bbox <;> simp only [Box.rep, reduceCtorEq] at b_rep
    rename_i x y
    refine ⟨⟨if x then 1 else 0, false⟩, ⟨if y then 1 else 0, false⟩, ?_, ?_, ?_⟩
    · simp [encodeKey, rep]
    · simp [encodeKey, rep]
    · rw [IndexKey.lt_iff_rank, IndexKey.lt_iff_rank]
      cases x <;> cases y <;> simp [IndexKey.rank, boxNumber]

/-- Keys are in the order of the values, the NULL key above the others. -/
theorem encodeKey_order {t : TypeAttr} {a b : Value}
    (indexable : t ∈ [kInt, kBigint, kFloat, kDouble, kBool]) (a_typed : a.OfType t)
    (b_typed : b.OfType t) :
    ∃ ka kb, encodeKey t a = .ok ka ∧ encodeKey t b = .ok kb ∧
      (ka < kb ↔ valueRank a < valueRank b) ∧ (kb < ka ↔ valueRank b < valueRank a) := by
  have null_key : ∀ v : Value, v.box = .null → encodeKey t v = .ok ⟨0, true⟩ := by
    intro v null
    rw [encodeKey, null]
  by_cases a_null : a.box = .null
  · by_cases b_null : b.box = .null
    · refine ⟨_, _, null_key a a_null, null_key b b_null, ?_⟩
      simp [valueRank, a_null, b_null]
    · obtain ⟨kb, -, b_key, -⟩ := encodeKey_present indexable b_typed b_typed b_null b_null
      have b_present : valueIsNull b = false := by
        rw [← Bool.not_eq_true, valueIsNull_iff]
        exact b_null
      have below := IndexKey.lt_null ((encodeKey_null b_key).trans b_present) 0
      refine ⟨_, kb, null_key a a_null, b_key, ?_⟩
      simp [valueRank, a_null, b_null, below, below.le]
  · obtain ⟨ka, -, a_key, -⟩ := encodeKey_present indexable a_typed a_typed a_null a_null
    by_cases b_null : b.box = .null
    · have a_present : valueIsNull a = false := by
        rw [← Bool.not_eq_true, valueIsNull_iff]
        exact a_null
      have below := IndexKey.lt_null ((encodeKey_null a_key).trans a_present) 0
      refine ⟨ka, _, a_key, null_key b b_null, ?_⟩
      simp [valueRank, a_null, b_null, below, below.le]
    · exact encodeKey_present indexable a_typed b_typed a_null b_null

theorem sign_eq_of_iff {c d : Int} (neg : c < 0 ↔ d < 0) (pos : 0 < c ↔ 0 < d) :
    c.sign = d.sign := by
  rcases lt_trichotomy c 0 with c_neg | rfl | c_pos
  · rw [Int.sign_eq_neg_one_of_neg c_neg, Int.sign_eq_neg_one_of_neg (neg.mp c_neg)]
  · have : d = 0 := by omega
    rw [this]
  · rw [Int.sign_eq_one_of_pos c_pos, Int.sign_eq_one_of_pos (pos.mp c_pos)]

/-- Index and evaluator agree on the order of the values of an indexable column,
and a float column is searched for a double as its widened values compare. -/
theorem encodeKey_preserves_order :
    (∀ (t : TypeAttr) (a b : Value), t ∈ [kInt, kBigint, kFloat, kDouble, kBool] →
      a.OfType t → b.OfType t → ∃ ka kb c, encodeKey t a = .ok ka ∧ encodeKey t b = .ok kb ∧
        valueCmp a b = .ok c ∧ (keyCmp ka kb).sign = c.sign) ∧
    (∀ (t : TypeAttr) (a b : Value) (ka kb : IndexKey), a.box = .null → b.box ≠ .null →
      encodeKey t a = .ok ka → encodeKey t b = .ok kb → 0 < keyCmp ka kb) ∧
    ∀ (x : F32) (y : F64), x.isFinite = true → y.isFinite = true →
      ∃ kx ky c, encodeKey kFloat (floatVal kFloat x) = .ok kx ∧
        encodeKey kDouble (doubleVal kDouble y) = .ok ky ∧
        valueCmp (doubleVal kDouble (widenF64 x)) (doubleVal kDouble y) = .ok c ∧
        (keyCmp kx ky).sign = c.sign := by
  refine ⟨?_, ?_, ?_⟩
  · intro t a b indexable a_typed b_typed
    obtain ⟨ka, kb, a_key, b_key, lt_iff, gt_iff⟩ := encodeKey_order indexable a_typed b_typed
    obtain ⟨c, answer, neg, pos⟩ := valueCmp_measures a b a_typed b_typed
    refine ⟨ka, kb, c, a_key, b_key, answer, ?_⟩
    apply sign_eq_of_iff
    · rw [keyCmp_neg_iff, lt_iff, neg]
    · rw [keyCmp_pos_iff, gt_iff, pos]
  · intro t a b ka kb a_null b_val a_key b_key
    have b_present : valueIsNull b = false := by
      rw [← Bool.not_eq_true, valueIsNull_iff]
      exact b_val
    rw [keyCmp_pos_iff]
    obtain rfl : ka = ⟨0, true⟩ := by
      rw [encodeKey, a_null] at a_key
      exact (Except.ok.inj a_key).symm
    exact IndexKey.lt_null ((encodeKey_null b_key).trans b_present) 0
  · intro x y x_finite y_finite
    have wide_finite := widenF64_isFinite x_finite
    have x_num := Flt.isFinite_not_isNaN wide_finite
    have y_num := Flt.isFinite_not_isNaN y_finite
    have answer : valueCmp (doubleVal kDouble (widenF64 x)) (doubleVal kDouble y) =
        .ok (threeWay (widenF64 x).toRat y.toRat) :=
      @numCmp_same (doubleVal kDouble (widenF64 x)) (doubleVal kDouble y) rfl rfl rfl
        (Or.inr (Or.inl rfl)) wide_finite y_finite
    refine ⟨doubleKey (widenF64 x), doubleKey y, _, rfl, rfl, answer, ?_⟩
    apply sign_eq_of_iff
    · rw [keyCmp_neg_iff, doubleKey_lt_iff x_num y_num, threeWay_neg_iff]
    · rw [keyCmp_pos_iff, doubleKey_lt_iff y_num x_num, threeWay_pos_iff]

/-- The two zeros, and the NULL key above one of them. -/
theorem encodeKey_preserves_order_zeros :
    (∃ ka kb c, encodeKey kDouble (doubleVal kDouble (Flt.zero true)) = .ok ka ∧
      encodeKey kDouble (doubleVal kDouble (Flt.zero false)) = .ok kb ∧
      valueCmp (doubleVal kDouble (Flt.zero true)) (doubleVal kDouble (Flt.zero false)) = .ok c ∧
      (keyCmp ka kb).sign = c.sign) ∧
      0 < keyCmp ⟨0, true⟩ (doubleKey (Flt.zero true)) := by
  have zero_typed : ∀ neg, (doubleVal kDouble (Flt.zero neg)).OfType kDouble := by
    intro neg
    have built_in : kDouble ∈ kTypeAttrs := by decide
    have finite : (Flt.zero neg : F64).isFinite = true := by cases neg <;> decide
    exact ⟨Or.inr ⟨built_in, rfl, finite⟩, Or.inr rfl⟩
  constructor
  · exact encodeKey_preserves_order.1 kDouble _ _ (by decide) (zero_typed true) (zero_typed false)
  · exact encodeKey_preserves_order.2.1 kDouble nullVal (doubleVal kDouble (Flt.zero true)) _ _ rfl
      (by decide) rfl rfl

end MySimpleDb.Expr
