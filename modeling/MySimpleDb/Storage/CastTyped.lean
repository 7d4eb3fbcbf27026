import MySimpleDb.Storage.Cast

/-!
# Casts give values of their target

Every entry of the cast table turns a box of its source representation into a
box of its target representation, and never into an infinity or a NaN.
-/

namespace MySimpleDb.Storage

open MySimpleDb.Lib

/-! ## Finite floating-point results -/

theorem f64_maxVal : Format.maxVal ⟨52, 11⟩ = ((2 ^ 53 - 1) * 2 ^ 971 : Int) := by
  norm_num [Format.maxVal, Format.ulpMin]

theorem f32_maxVal : Format.maxVal ⟨23, 8⟩ = ((2 ^ 24 - 1) * 2 ^ 104 : Int) := by
  norm_num [Format.maxVal, Format.ulpMin]

private theorem two_pow_le_f64_maxVal : (2 : ℚ) ^ 128 ≤ Format.maxVal ⟨52, 11⟩ := by
  rw [f64_maxVal, Int.cast_mul, Int.cast_pow]
  calc (2 : ℚ) ^ 128 ≤ 2 ^ 971 := pow_le_pow_right₀ (by norm_num) (by norm_num)
    _ ≤ ((2 ^ 53 - 1 : Int) : ℚ) * 2 ^ 971 :=
        le_mul_of_one_le_left (by positivity) (by norm_num)

private theorem two_pow_le_f32_maxVal : (2 : ℚ) ^ 63 ≤ Format.maxVal ⟨23, 8⟩ := by
  rw [f32_maxVal]
  norm_num

private theorem f32_maxVal_le : Format.maxVal ⟨23, 8⟩ ≤ (2 : ℚ) ^ 128 := by
  rw [f32_maxVal]
  norm_num

theorem widenF64_isFinite {x : F32} (finite : x.isFinite = true) :
    (widenF64 x).isFinite = true :=
  Flt.convert_isFinite (by norm_num) (by norm_num)
    (f32_maxVal_le.trans two_pow_le_f64_maxVal) finite

theorem narrowF32_isFinite {d : F64} {x : F32} (finite : d.isFinite = true)
    (narrowed : narrowF32 d = .ok x) : x.isFinite = true := by
  simp only [narrowF32, finite, Bool.true_and] at narrowed
  split at narrowed
  · exact absurd narrowed dbRaise_ne_ok
  · rename_i not_inf
    cases narrowed
    simpa using not_inf

private theorem abs_int64_le (i : Int64) : |((i.toInt : Int) : ℚ)| ≤ 2 ^ 63 := by
  have low := i.le_toInt
  have high := i.toInt_le
  rw [abs_le]
  constructor
  · have : (-2 ^ 63 : Int) ≤ i.toInt := low
    exact_mod_cast this
  · have : i.toInt ≤ (2 ^ 63 : Int) := by
      have : i.toInt ≤ 2 ^ 63 - 1 := high
      omega
    exact_mod_cast this

theorem ofInt_isFinite_f64 (i : Int64) : (Flt.ofInt ⟨52, 11⟩ i.toInt).isFinite = true := by
  apply Flt.ofRat_isFinite (by norm_num)
  calc |((i.toInt : Int) : ℚ)| ≤ 2 ^ 63 := abs_int64_le i
    _ ≤ 2 ^ 128 := by norm_num
    _ ≤ _ := two_pow_le_f64_maxVal

theorem ofInt_isFinite_f32 (i : Int64) : (Flt.ofInt ⟨23, 8⟩ i.toInt).isFinite = true :=
  Flt.ofRat_isFinite (by norm_num) ((abs_int64_le i).trans two_pow_le_f32_maxVal)

theorem parseF64_isFinite {s : Bytes} {x : F64} (parsed : parseF64 s = .ok x) :
    x.isFinite = true := by
  unfold parseF64 at parsed
  extract_lets text at parsed
  cases found : fromChars ⟨52, 11⟩ text with
  | none => simp [found] at parsed
  | some y =>
      simp only [found] at parsed
      split at parsed
      · rename_i finite
        cases parsed
        exact finite
      · exact absurd parsed dbRaise_ne_ok

/-! ## The entries of the cast table -/

/-- A conversion that turns finite boxes of one representation into finite
boxes of another, under the target's type. -/
def CastFn.Gives (fn : CastFn) (src dst : Rep) : Prop :=
  ∀ (v : Value) (t : TypeAttr) (w : Value), v.box.rep = src → v.box.Finite →
    fn v t = .ok w → w.type = t ∧ w.box.rep = dst ∧ w.box.Finite

theorem restamp_gives (r : Rep) : CastFn.Gives restamp r r := by
  intro v t w rep finite done
  obtain rfl := Except.ok.inj done
  exact ⟨rfl, rep, finite⟩

theorem i64Restamp_gives : CastFn.Gives i64Restamp .int64 .int64 := by
  intro v t w rep finite done
  have stamped : w = ⟨t, v.box⟩ := by
    simp only [i64Restamp] at done
    split at done
    · obtain ⟨i, -, done⟩ := Res.bind_eq_ok.mp done
      split at done
      · exact absurd done dbRaise_bind_ne_ok
      · exact (Except.ok.inj done).symm
    · exact (Except.ok.inj done).symm
  subst stamped
  exact ⟨rfl, rep, finite⟩

theorem textToText_gives : CastFn.Gives textToText .str .str := by
  intro v t w rep finite done
  simp only [textToText] at done
  split at done
  · obtain ⟨s, -, stamped⟩ := Res.bind_eq_ok.mp done
    obtain rfl := Res.pure_eq_ok.mp stamped
    exact ⟨rfl, rfl, trivial⟩
  · obtain rfl := Except.ok.inj done
    exact ⟨rfl, rep, finite⟩

private theorem getF32_isFinite {v : Value} {x : F32} (finite : v.box.Finite)
    (found : getF32 v = .ok x) : x.isFinite = true := by
  rw [getF32_eq_ok.mp found] at finite
  exact finite

private theorem getF64_isFinite {v : Value} {x : F64} (finite : v.box.Finite)
    (found : getF64 v = .ok x) : x.isFinite = true := by
  rw [getF64_eq_ok.mp found] at finite
  exact finite

private theorem boolFlt_isFinite {f : Format} (expo_le : 2 ≤ f.expo) (one_le : 1 ≤ f.maxVal)
    (b : Bool) : (if b then Flt.ofInt f 1 else Flt.zero false).isFinite = true := by
  cases b
  · exact Flt.zero_isFinite expo_le false
  · have one_abs : |((1 : Int) : ℚ)| ≤ f.maxVal := by simpa using one_le
    rw [if_pos rfl, Flt.ofInt]
    exact Flt.ofRat_isFinite expo_le one_abs

theorem kCastTable_gives {src dst : Rep} {fn : CastFn} {tier : CastMode}
    (entry : kCastTable src dst = some (fn, tier)) : fn.Gives src dst := by
  have one_le_f32 : 1 ≤ Format.maxVal ⟨23, 8⟩ :=
    le_trans (by norm_num) two_pow_le_f32_maxVal
  have one_le_f64 : 1 ≤ Format.maxVal ⟨52, 11⟩ :=
    le_trans (by norm_num) two_pow_le_f64_maxVal
  cases src <;> cases dst <;> simp only [kCastTable, Option.some.injEq, Prod.mk.injEq,
    reduceCtorEq] at entry <;> obtain ⟨rfl, -⟩ := entry
  case int64.int64 => exact i64Restamp_gives
  case float.float | double.double | bool.bool | dec.dec => exact restamp_gives _
  case str.str => exact textToText_gives
  all_goals
    intro v t w rep finite done
    simp only [i64ToF32, i64ToF64, i64ToText, i64ToBoolFn, i64ToDec, f32ToI64, f32ToF64,
      f32ToText, f32ToBool, f32ToDec, f64ToI64, f64ToF32, f64ToText, f64ToBool, f64ToDec,
      textToI64, textToF32, textToF64, textToBool, textToDec, boolToI64, boolToF32, boolToF64,
      boolToText, boolToDec, decToI64, decToF32, decToF64, decToText, decToBoolFn,
      Res.bind_eq_ok, Res.pure_eq_ok] at done
  -- results in a floating-point format, one by one
  case int64.float =>
    obtain ⟨i, -, rfl⟩ := done
    exact ⟨rfl, rfl, ofInt_isFinite_f32 i⟩
  case int64.double =>
    obtain ⟨i, -, rfl⟩ := done
    exact ⟨rfl, rfl, ofInt_isFinite_f64 i⟩
  case float.double =>
    obtain ⟨x, found, rfl⟩ := done
    exact ⟨rfl, rfl, widenF64_isFinite (getF32_isFinite finite found)⟩
  case double.float =>
    obtain ⟨d, found, x, narrowed, rfl⟩ := done
    exact ⟨rfl, rfl, narrowF32_isFinite (getF64_isFinite finite found) narrowed⟩
  case str.float =>
    obtain ⟨s, -, d, parsed, x, narrowed, rfl⟩ := done
    exact ⟨rfl, rfl, narrowF32_isFinite (parseF64_isFinite parsed) narrowed⟩
  case str.double =>
    obtain ⟨s, -, d, parsed, rfl⟩ := done
    exact ⟨rfl, rfl, parseF64_isFinite parsed⟩
  case bool.float =>
    obtain ⟨b, -, rfl⟩ := done
    exact ⟨rfl, rfl, boolFlt_isFinite (by norm_num) one_le_f32 b⟩
  case bool.double =>
    obtain ⟨b, -, rfl⟩ := done
    exact ⟨rfl, rfl, boolFlt_isFinite (by norm_num) one_le_f64 b⟩
  case dec.float =>
    obtain ⟨d, -, x, parsed, y, narrowed, rfl⟩ := done
    exact ⟨rfl, rfl, narrowF32_isFinite (parseF64_isFinite parsed) narrowed⟩
  case dec.double =>
    obtain ⟨d, -, x, parsed, rfl⟩ := done
    exact ⟨rfl, rfl, parseF64_isFinite parsed⟩
  -- the other boxes are finite whatever they hold
  all_goals first
    | (obtain ⟨_, -, rfl⟩ := done; exact ⟨rfl, rfl, trivial⟩)
    | (obtain ⟨_, -, _, -, rfl⟩ := done; exact ⟨rfl, rfl, trivial⟩)

/-! ## Typed values -/

namespace Value

theorem OfType.null {v : Value} (null : v.box = .null) (t : TypeAttr) : v.OfType t :=
  ⟨Or.inl null, Or.inl null⟩

theorem OfType.mk {t : TypeAttr} {box : Box} (mem : t ∈ kTypeAttrs) (rep : t.rep = box.rep)
    (finite : box.Finite) : OfType ⟨t, box⟩ t :=
  ⟨Or.inr ⟨mem, rep, finite⟩, Or.inr rfl⟩

theorem Valid.finite {v : Value} (valid : v.Valid) : v.box.Finite := by
  rcases valid with null | ⟨-, -, finite⟩
  · rw [null]
    trivial
  · exact finite

end Value

theorem castValue_typed {v w : Value} {t : TypeAttr} {mode : CastMode} (valid : v.Valid)
    (mem : t ∈ kTypeAttrs) (done : castValue v t mode = .ok w) :
    w.OfType t ∧ w.box ≠ .null := by
  simp only [castValue] at done
  split at done
  · exact absurd done dbRaise_ne_ok
  · rename_i not_null
    rw [valueIsNull_iff] at not_null
    obtain ⟨-, rep, finite⟩ := valid.resolve_left not_null
    cases entry : kCastTable v.type.rep t.rep with
    | none => simp [entry] at done
    | some found =>
        obtain ⟨fn, tier⟩ := found
        simp only [entry] at done
        split at done
        · exact absurd done dbRaise_ne_ok
        · obtain ⟨type_eq, w_rep, w_finite⟩ := kCastTable_gives entry v t w rep.symm finite done
          refine ⟨⟨Or.inr ⟨type_eq ▸ mem, type_eq ▸ w_rep.symm, w_finite⟩, Or.inr type_eq⟩, ?_⟩
          intro null
          have none_rep : t.rep = .none := by rw [← w_rep, null]; rfl
          have each : ∀ t ∈ kTypeAttrs, t.rep ≠ .none := by decide
          exact each t mem none_rep

end MySimpleDb.Storage
