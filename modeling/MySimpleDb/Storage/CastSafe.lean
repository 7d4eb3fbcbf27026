import MySimpleDb.Lib.Within
import MySimpleDb.Storage.CastTyped
import MySimpleDb.Storage.CoerceNumeric

/-!
# Casts fail only on their data

A conversion of a well-formed value to a built-in type raises a value mismatch
or returns; decimals it returns are within the digit limit.
-/

namespace MySimpleDb.Storage

open MySimpleDb.Lib

/-! ## Errors of evaluation -/

/-- The errors an expression may raise: arithmetic errors and mismatches. -/
def DataError (e : Err) : Prop :=
  ∃ text, e = .raise .arithError text ∨ e = .raise .valueMismatch text

/-- A call that returns as described or raises an error of evaluation. -/
abbrev Safe {α : Type} (r : Res α) (post : α → Prop) : Prop :=
  Within DataError r post

theorem Safe.mismatch {α : Type} {post : α → Prop} (text : String) :
    Safe (dbRaise .valueMismatch text : Res α) post :=
  Within.error ⟨text, Or.inr rfl⟩

theorem Safe.arith {α : Type} {post : α → Prop} (text : String) :
    Safe (dbRaise .arithError text : Res α) post :=
  Within.error ⟨text, Or.inl rfl⟩

theorem Safe.mismatch_bind {α β : Type} {post : β → Prop} (text : String) (k : α → Res β) :
    Safe (dbRaise .valueMismatch text >>= k) post :=
  Within.error ⟨text, Or.inr rfl⟩

theorem Safe.arith_bind {α β : Type} {post : β → Prop} (text : String) (k : α → Res β) :
    Safe (dbRaise .arithError text >>= k) post :=
  Within.error ⟨text, Or.inl rfl⟩

/-! ## Decimals within the digit limit -/

/-- Magnitude below the digit limit, scale of one byte. -/
def DecimalVal.Bounded (d : DecimalVal) : Prop :=
  |d.unscaled| < kNumericUnscaledMax ∧ d.scale ≤ 255

def Box.DecBounded : Box → Prop
  | .dec d => d.Bounded
  | _ => True

private theorem takeDigits_go_safe (frac : Bool) (s : Bytes) {u scale : Int} {any : Bool}
    (nonneg : 0 ≤ u) (below : u < kNumericUnscaledMax) :
    Safe (takeDigits.go frac s u scale any)
      fun scan => 0 ≤ scan.unscaled ∧ scan.unscaled < kNumericUnscaledMax := by
  induction s generalizing u scale any with
  | nil => exact Within.ok ⟨nonneg, below⟩
  | cons c rest inductionHypothesis =>
      rw [takeDigits.go]
      apply Within.guard
      · intro digit
        dsimp only
        apply Within.guard
        · intro past
          exact Safe.mismatch _
        · intro fits
          have grown : 0 ≤ u * 10 + (digitVal c : Int) := by positivity
          exact inductionHypothesis grown (not_le.mp fits)
      · intro stop
        exact Within.ok ⟨nonneg, below⟩

private theorem takeExponent_safe (s : Bytes) (e : Int) (any : Bool) :
    Safe (takeExponent s e any) fun _ => True := by
  induction s generalizing e any with
  | nil => exact Within.ok trivial
  | cons c rest inductionHypothesis =>
      rw [takeExponent]
      apply Within.guard
      · intro digit
        apply Within.guard
        · intro past
          exact Safe.mismatch _
        · intro fits
          exact inductionHypothesis _ _
      · intro stop
        exact Within.ok trivial

private theorem scaleUp_safe (n : Nat) {u : Int} (nonneg : 0 ≤ u)
    (below : u < kNumericUnscaledMax) :
    Safe (scaleUp n u) fun u => 0 ≤ u ∧ u < kNumericUnscaledMax := by
  induction n generalizing u with
  | zero => exact Within.ok ⟨nonneg, below⟩
  | succ n inductionHypothesis =>
      rw [scaleUp]
      apply Within.guard
      · intro past
        exact Safe.mismatch _
      · intro fits
        exact inductionHypothesis (by positivity) (not_le.mp fits)

/-- A decimal literal is read within the digit limit. -/
theorem parseDecimalText_safe (s : Bytes) : Safe (parseDecimalText s) DecimalVal.Bounded := by
  unfold parseDecimalText
  rcases takeSign s with ⟨neg, s⟩
  apply Within.bind (takeDigits_go_safe false s le_rfl (by decide))
  intro scan scanned
  -- what follows the fraction, the exponent and its check, for any state there
  extract_lets afterFraction
  have afterFraction_safe : ∀ scan, 0 ≤ scan.unscaled ∧ scan.unscaled < kNumericUnscaledMax →
      Safe (afterFraction scan) DecimalVal.Bounded := by
    intro scan scanned
    unfold afterFraction
    extract_lets afterExponent exponent
    have afterExponent_safe : ∀ x, Safe (afterExponent x) DecimalVal.Bounded := by
      rintro ⟨e, rest⟩
      unfold afterExponent
      dsimp -zeta only
      extract_lets scale kept afterScale scaled
      apply Within.guard
      · intro _
        exact Safe.mismatch_bind _ _
      · intro _
        unfold scaled
        have afterScale_safe : ∀ u, 0 ≤ u ∧ u < kNumericUnscaledMax →
            Safe (afterScale u) DecimalVal.Bounded := by
          rintro u ⟨nonneg, below⟩
          unfold afterScale
          extract_lets build
          apply Within.guard
          · intro _
            exact Safe.mismatch_bind _ _
          · intro fits
            apply Within.ok
            constructor
            · cases neg <;> simpa [abs_of_nonneg nonneg] using below
            · change kept.toNat ≤ 255
              omega
        apply Within.guard
        · intro _
          exact Within.bind (scaleUp_safe _ scanned.1 scanned.2) afterScale_safe
        · intro _
          exact afterScale_safe _ scanned
    apply Within.guard
    · intro _
      exact Safe.mismatch_bind _ _
    · intro _
      unfold exponent
      split
      · apply Within.guard
        · intro _
          split
          apply Within.bind (takeExponent_safe _ _ _)
          rintro ⟨e, any, rest⟩ -
          dsimp -zeta only
          extract_lets done
          apply Within.guard
          · intro _
            exact Safe.mismatch_bind _ _
          · intro _
            exact afterExponent_safe (_, _)
        · intro _
          exact afterExponent_safe (_, _)
      · exact afterExponent_safe (0, [])
  split
  · exact Within.bind (takeDigits_go_safe true _ scanned.1 scanned.2) afterFraction_safe
  · exact afterFraction_safe _ scanned

/-! ## Conversions of contents -/

private theorem parseI64_safe (s : Bytes) : Safe (parseI64 s) fun _ => True := by
  unfold parseI64
  extract_lets text
  split
  · exact Within.ok trivial
  · exact Safe.mismatch _

private theorem parseF64_safe (s : Bytes) : Safe (parseF64 s) fun _ => True := by
  unfold parseF64
  extract_lets text
  split
  · apply Within.guard
    · intro _
      exact Within.ok trivial
    · intro _
      exact Safe.mismatch _
  · exact Safe.mismatch _

private theorem decRoundI64_safe (d : DecimalVal) : Safe (decRoundI64 d) fun _ => True := by
  unfold decRoundI64
  apply Within.guard
  · intro _
    exact Within.ok trivial
  · intro _
    extract_lets p mag rounded
    apply Within.guard
    · intro _
      exact Safe.mismatch _
    · intro _
      exact Within.ok trivial

private theorem truncToI64_safe (d : F64) : Safe (truncToI64 d) fun _ => True :=
  Within.guard (fun _ => Safe.mismatch _) fun _ => Within.ok trivial

private theorem narrowF32_safe (d : F64) : Safe (narrowF32 d) fun _ => True :=
  Within.guard (fun _ => Safe.mismatch _) fun _ => Within.ok trivial

private theorem parseBool_safe (s : Bytes) : Safe (parseBool s) fun _ => True :=
  Within.guard (fun _ => Within.ok trivial) fun _ =>
    Within.guard (fun _ => Within.ok trivial) fun _ => Safe.mismatch _

private theorem decToBool_safe (d : DecimalVal) : Safe (decToBool d) fun _ => True :=
  Within.guard (fun _ => Within.ok trivial) fun _ =>
    Within.guard (fun _ => Within.ok trivial) fun _ => Safe.mismatch _

private theorem i64ToBool_safe (i : Int64) : Safe (i64ToBool i) fun _ => True :=
  Within.guard (fun _ => Within.ok trivial) fun _ =>
    Within.guard (fun _ => Within.ok trivial) fun _ => Safe.mismatch _

private theorem fltToBool_safe {f : Format} (x : Flt f) : Safe (fltToBool x) fun _ => True :=
  Within.guard (fun _ => Within.ok trivial) fun _ =>
    Within.guard (fun _ => Within.ok trivial) fun _ => Safe.mismatch _

/-! ## Reading a box of the expected representation -/

section Getters
variable {v : Value}

private theorem getI64_safe (rep : v.box.rep = .int64) : Safe (getI64 v) fun _ => True := by
  cases box : v.box <;> rw [box] at rep <;> simp only [Box.rep, reduceCtorEq] at rep
  simp only [getI64, box]
  exact Within.ok trivial

private theorem getF32_safe (rep : v.box.rep = .float) : Safe (getF32 v) fun _ => True := by
  cases box : v.box <;> rw [box] at rep <;> simp only [Box.rep, reduceCtorEq] at rep
  simp only [getF32, box]
  exact Within.ok trivial

private theorem getF64_safe (rep : v.box.rep = .double) : Safe (getF64 v) fun _ => True := by
  cases box : v.box <;> rw [box] at rep <;> simp only [Box.rep, reduceCtorEq] at rep
  simp only [getF64, box]
  exact Within.ok trivial

private theorem getBool_safe (rep : v.box.rep = .bool) : Safe (getBool v) fun _ => True := by
  cases box : v.box <;> rw [box] at rep <;> simp only [Box.rep, reduceCtorEq] at rep
  simp only [getBool, box]
  exact Within.ok trivial

private theorem getStrView_safe (rep : v.box.rep = .str) :
    Safe (getStrView v) fun _ => True := by
  cases box : v.box <;> rw [box] at rep <;> simp only [Box.rep, reduceCtorEq] at rep
  simp only [getStrView, box]
  exact Within.ok trivial

private theorem textView_safe (rep : v.box.rep = .str) : Safe (textView v) fun _ => True :=
  Within.bind (getStrView_safe rep) fun _ _ => Within.ok trivial

theorem getDec_safe (rep : v.box.rep = .dec) (bounded : v.box.DecBounded) :
    Safe (getDec v) DecimalVal.Bounded := by
  cases box : v.box <;> rw [box] at rep <;> simp only [Box.rep, reduceCtorEq] at rep
  rw [box] at bounded
  simp only [getDec, box]
  exact Within.ok bounded

end Getters

/-! ## The entries of the cast table -/

/-- A conversion that fails only on its data, and keeps decimals bounded. -/
def CastFn.SafeFrom (fn : CastFn) (src : Rep) : Prop :=
  ∀ (v : Value) (t : TypeAttr), v.box.rep = src → v.box.DecBounded →
    Safe (fn v t) fun w => w.box.DecBounded

private theorem i64_bounded (i : Int64) : DecimalVal.Bounded ⟨i.toInt, 0⟩ := by
  have low : -2 ^ 63 ≤ i.toInt := i.le_toInt
  have high : i.toInt ≤ 2 ^ 63 - 1 := i.toInt_le
  constructor
  · rw [kNumericUnscaledMax, abs_lt]
    constructor <;> dsimp only <;> omega
  · exact Nat.zero_le 255

private theorem i64Restamp_safe : CastFn.SafeFrom i64Restamp .int64 := by
  intro v t rep bounded
  unfold i64Restamp
  extract_lets stamp
  apply Within.guard
  · intro _
    apply Within.bind (getI64_safe rep)
    intro i _
    apply Within.guard
    · intro _
      exact Safe.mismatch_bind _ _
    · intro _
      exact Within.ok bounded
  · intro _
    exact Within.ok bounded

private theorem textToText_safe : CastFn.SafeFrom textToText .str := by
  intro v t rep bounded
  apply Within.guard
  · intro _
    exact Within.bind (getStrView_safe rep) fun _ _ => Within.ok trivial
  · intro _
    exact Within.ok bounded

/-- Every entry of the table fails only on its data. -/
theorem kCastTable_safeFrom {src dst : Rep} {fn : CastFn} {tier : CastMode}
    (entry : kCastTable src dst = some (fn, tier)) : fn.SafeFrom src := by
  cases src <;> cases dst <;> simp only [kCastTable, Option.some.injEq, Prod.mk.injEq,
    reduceCtorEq] at entry <;> obtain ⟨rfl, -⟩ := entry
  case int64.int64 => exact i64Restamp_safe
  case str.str => exact textToText_safe
  all_goals intro v t rep bounded
  case float.float | double.double | bool.bool | dec.dec => exact Within.ok bounded
  -- results that need no check beyond reading the box
  case int64.float | int64.double | int64.str =>
    exact Within.bind (getI64_safe rep) fun _ _ => Within.ok trivial
  case float.double | float.str =>
    exact Within.bind (getF32_safe rep) fun _ _ => Within.ok trivial
  case double.str => exact Within.bind (getF64_safe rep) fun _ _ => Within.ok trivial
  case bool.int64 | bool.float | bool.double | bool.str =>
    exact Within.bind (getBool_safe rep) fun _ _ => Within.ok trivial
  case dec.str => exact Within.bind (getDec_safe rep bounded) fun _ _ => Within.ok trivial
  -- results that are checked
  case int64.bool =>
    exact Within.bind (getI64_safe rep) fun i _ =>
      Within.bind (i64ToBool_safe i) fun _ _ => Within.ok trivial
  case float.int64 =>
    exact Within.bind (getF32_safe rep) fun x _ =>
      Within.bind (truncToI64_safe _) fun _ _ => Within.ok trivial
  case float.bool =>
    exact Within.bind (getF32_safe rep) fun x _ =>
      Within.bind (fltToBool_safe x) fun _ _ => Within.ok trivial
  case double.int64 =>
    exact Within.bind (getF64_safe rep) fun x _ =>
      Within.bind (truncToI64_safe x) fun _ _ => Within.ok trivial
  case double.float =>
    exact Within.bind (getF64_safe rep) fun x _ =>
      Within.bind (narrowF32_safe x) fun _ _ => Within.ok trivial
  case double.bool =>
    exact Within.bind (getF64_safe rep) fun x _ =>
      Within.bind (fltToBool_safe x) fun _ _ => Within.ok trivial
  case str.int64 =>
    exact Within.bind (textView_safe rep) fun s _ =>
      Within.bind (parseI64_safe s) fun _ _ => Within.ok trivial
  case str.float =>
    exact Within.bind (textView_safe rep) fun s _ =>
      Within.bind (parseF64_safe s) fun x _ =>
        Within.bind (narrowF32_safe x) fun _ _ => Within.ok trivial
  case str.double =>
    exact Within.bind (textView_safe rep) fun s _ =>
      Within.bind (parseF64_safe s) fun _ _ => Within.ok trivial
  case str.bool =>
    exact Within.bind (textView_safe rep) fun s _ =>
      Within.bind (parseBool_safe s) fun _ _ => Within.ok trivial
  case dec.int64 =>
    exact Within.bind (getDec_safe rep bounded) fun d _ =>
      Within.bind (decRoundI64_safe d) fun _ _ => Within.ok trivial
  case dec.float =>
    exact Within.bind (getDec_safe rep bounded) fun d _ =>
      Within.bind (parseF64_safe _) fun x _ =>
        Within.bind (narrowF32_safe x) fun _ _ => Within.ok trivial
  case dec.double =>
    exact Within.bind (getDec_safe rep bounded) fun d _ =>
      Within.bind (parseF64_safe _) fun _ _ => Within.ok trivial
  case dec.bool =>
    exact Within.bind (getDec_safe rep bounded) fun d _ =>
      Within.bind (decToBool_safe d) fun _ _ => Within.ok trivial
  -- results that are decimals
  case int64.dec =>
    exact Within.bind (getI64_safe rep) fun i _ => Within.ok (i64_bounded i)
  case float.dec =>
    exact Within.bind (getF32_safe rep) fun x _ =>
      Within.bind (parseDecimalText_safe _) fun _ bounded => Within.ok bounded
  case double.dec =>
    exact Within.bind (getF64_safe rep) fun x _ =>
      Within.bind (parseDecimalText_safe _) fun _ bounded => Within.ok bounded
  case str.dec =>
    exact Within.bind (textView_safe rep) fun s _ =>
      Within.bind (parseDecimalText_safe s) fun _ bounded => Within.ok bounded
  case bool.dec =>
    refine Within.bind (getBool_safe rep) fun b _ => Within.ok ?_
    cases b <;> exact ⟨by decide, Nat.zero_le 255⟩

/-! ## Casts of well-formed values -/

/-- Whether the table has a conversion within the mode. -/
def CastAllowed (v : Value) (t : TypeAttr) (mode : CastMode) : Prop :=
  ∃ entry, kCastTable v.type.rep t.rep = some entry ∧
    (castTier v t entry.2).tier ≤ mode.tier

/-- A permitted cast of a well-formed value gives a bounded value of the target
type or raises a mismatch. -/
theorem castValue_safe {v : Value} {t : TypeAttr} {mode : CastMode} (valid : v.Valid)
    (bounded : v.box.DecBounded) (not_null : v.box ≠ .null) (mem : t ∈ kTypeAttrs)
    (allowed : CastAllowed v t mode) :
    Safe (castValue v t mode) fun w =>
      w.box.DecBounded ∧ w.OfType t ∧ w.box ≠ .null := by
  obtain ⟨⟨fn, tier⟩, entry, tier_le⟩ := allowed
  obtain ⟨-, rep, -⟩ := valid.resolve_left not_null
  have present : ¬ valueIsNull v = true := by rwa [valueIsNull_iff]
  have converts : castValue v t mode = fn v t := by
    rw [castValue, if_neg present, entry]
    exact if_neg (not_lt.mpr tier_le)
  have safe : Safe (castValue v t mode) fun w => w.box.DecBounded :=
    converts ▸ kCastTable_safeFrom entry v t rep.symm bounded
  exact safe.and_of_ok fun w done => castValue_typed valid mem done

/-- Every cast between built-in types is permitted explicitly. -/
theorem castAllowed_explicit {v : Value} {t : TypeAttr} (v_mem : v.type ∈ kTypeAttrs)
    (t_mem : t ∈ kTypeAttrs) : CastAllowed v t .explicit := by
  have every : ∀ s ∈ kTypeAttrs, ∀ t ∈ kTypeAttrs, (kCastTable s.rep t.rep).isSome := by decide
  obtain ⟨entry, found⟩ := Option.isSome_iff_exists.mp (every _ v_mem _ t_mem)
  refine ⟨entry, found, ?_⟩
  cases (castTier v t entry.2) <;> decide

/-! ## Declared numeric targets -/

private theorem coerceScaleUp_safe (n : Nat) (u : Int) :
    Safe (coerceScaleUp n u) fun _ => True := by
  induction n generalizing u with
  | zero => exact Within.ok trivial
  | succ n inductionHypothesis =>
      rw [coerceScaleUp]
      apply Within.guard
      · intro past
        exact Safe.mismatch _
      · intro fits
        exact inductionHypothesis _

private theorem coerceScale_safe (d : DecimalVal) (scale : Nat) :
    Safe (coerceScale d scale) fun _ => True :=
  Within.guard (fun _ => Within.ok trivial) fun _ => coerceScaleUp_safe _ _

/-- A declared precision within the digit limit bounds the result. -/
theorem coerceNumeric_safe {v : Value} {t : TypeAttr} {precision scale : Nat} {mode : CastMode}
    (valid : v.Valid) (bounded : v.box.DecBounded) (not_null : v.box ≠ .null)
    (mem : t ∈ kTypeAttrs) (dec : t.rep = .dec) (allowed : CastAllowed v t mode)
    (precision_pos : 0 < precision) (precision_le : precision ≤ 38) (scale_le : scale ≤ 255) :
    Safe (coerceNumeric v t precision scale mode) fun w =>
      w.box.DecBounded ∧ w.OfType t ∧ w.box ≠ .null := by
  unfold coerceNumeric
  apply Within.bind (castValue_safe valid bounded not_null mem allowed)
  rintro w ⟨w_bounded, typed, w_not_null⟩
  have w_rep : w.box.rep = .dec := by
    rw [← (typed.1.resolve_left w_not_null).2.1, typed.2.resolve_left w_not_null, dec]
  apply Within.bind (getDec_safe w_rep w_bounded)
  intro d _
  apply Within.bind (coerceScale_safe d scale)
  intro u _
  extract_lets build
  apply Within.guard
  · intro _
    exact Safe.mismatch_bind _ _
  · intro fits
    apply Within.ok
    have below : |u| < (10 : Int) ^ precision := by
      rw [lt_decimalDigits_iff] at fits
      exact not_le.mp fun reached => fits ⟨precision_pos, reached⟩
    have limit : (10 : Int) ^ precision ≤ kNumericUnscaledMax :=
      pow_le_pow_right₀ (by decide) precision_le
    exact ⟨⟨lt_of_lt_of_le below limit, scale_le⟩, Value.OfType.mk mem dec trivial, by simp [numericVal]⟩

end MySimpleDb.Storage
