import MySimpleDb.Expr.Typed
import MySimpleDb.Storage.CastSafe

/-!
# Built-in functions stay in range

On arguments of the declared types every overload returns a value in the range
of its result type or raises an arithmetic error.
-/

namespace MySimpleDb.Expr

open MySimpleDb.Lib MySimpleDb.Storage MySimpleDb.Analyzer

/-! ## Ranges -/

/-- The range of a value of its own type: 32 bits for `int`, the digit limit for
`numeric`. -/
def InRange (v : Value) : Prop :=
  v.box.DecBounded ∧ ∀ i, v.box = .int64 i → v.type.width = 4 →
    int32Min ≤ i.toInt ∧ i.toInt ≤ int32Max

/-- A value of a static type, in its range. -/
def Fits (v : Value) (t : TypeAttr) : Prop :=
  v.OfType t ∧ InRange v

/-- A value of a static type that is not NULL. -/
def Present (v : Value) (t : TypeAttr) : Prop :=
  Fits v t ∧ v.box ≠ .null

theorem inRange_null {v : Value} (null : v.box = .null) : InRange v := by
  constructor
  · rw [null]
    trivial
  · intro i box
    rw [null] at box
    cases box

theorem inRange_of_rep {v : Value} (bounded : v.box.DecBounded) (rep : v.box.rep ≠ .int64) :
    InRange v := by
  refine ⟨bounded, fun i box => ?_⟩
  rw [box] at rep
  exact absurd rfl rep

theorem Present.type_eq {v : Value} {t : TypeAttr} (present : Present v t) : v.type = t :=
  present.1.1.2.resolve_left present.2

theorem Present.rep_eq {v : Value} {t : TypeAttr} (present : Present v t) :
    v.box.rep = t.rep := by
  rw [← (present.1.1.1.resolve_left present.2).2.1, present.type_eq]

theorem Present.mem {v : Value} {t : TypeAttr} (present : Present v t) : t ∈ kTypeAttrs := by
  rw [← present.type_eq]
  exact (present.1.1.1.resolve_left present.2).1

theorem intVal_inRange {t : TypeAttr} {i : Int64}
    (range : t.width = 4 → int32Min ≤ i.toInt ∧ i.toInt ≤ int32Max) : InRange (intVal t i) := by
  refine ⟨trivial, ?_⟩
  rintro j ⟨⟩
  exact range

theorem numericVal_inRange {t : TypeAttr} {u : Int} {s : Nat}
    (bounded : DecimalVal.Bounded ⟨u, s⟩) : InRange (numericVal t u s) :=
  inRange_of_rep bounded (by simp [numericVal, Box.rep])

/-- Negation in 64 bits is exact away from the minimum. -/
theorem toInt_neg_of_ne {i : Int64} (not_min : i.toInt ≠ int64Min) :
    (-i).toInt = -i.toInt := by
  have low : -2 ^ 63 ≤ i.toInt := i.le_toInt
  have high : i.toInt ≤ 2 ^ 63 - 1 := i.toInt_le
  simp only [int64Min] at not_min
  rw [Int64.toInt_neg, Int.bmod_eq_of_le] <;> omega

/-! ## Reading arguments -/

/-- Arguments of the declared types, none of them NULL. -/
abbrev Arguments : List Value → List TypeAttr → Prop :=
  List.Forall₂ Present

private theorem argAt_safe {argv : List Value} {args : List TypeAttr} {i : Nat} {t : TypeAttr}
    (fit : Arguments argv args) (at_i : args[i]? = some t) :
    Safe (argAt argv i) fun v => Present v t := by
  induction fit generalizing i with
  | nil => simp at at_i
  | cons head tail inductionHypothesis =>
      cases i with
      | zero =>
          obtain rfl : _ = t := Option.some.inj at_i
          exact Within.ok head
      | succ i => exact inductionHypothesis at_i

section Getters
variable {v : Value} {t : TypeAttr}

private theorem getI64_safe (present : Present v t) (rep : t.rep = .int64) :
    Safe (getI64 v) fun i => t.width = 4 → int32Min ≤ i.toInt ∧ i.toInt ≤ int32Max := by
  have v_rep := present.rep_eq.trans rep
  cases box : v.box <;> rw [box] at v_rep <;> simp only [Box.rep, reduceCtorEq] at v_rep
  simp only [getI64, box]
  apply Within.ok
  rw [← present.type_eq]
  exact present.1.2.2 _ box

private theorem getF32_safe (present : Present v t) (rep : t.rep = .float) :
    Safe (getF32 v) fun _ => True := by
  have v_rep := present.rep_eq.trans rep
  cases box : v.box <;> rw [box] at v_rep <;> simp only [Box.rep, reduceCtorEq] at v_rep
  simp only [getF32, box]
  exact Within.ok trivial

private theorem getF64_safe (present : Present v t) (rep : t.rep = .double) :
    Safe (getF64 v) fun _ => True := by
  have v_rep := present.rep_eq.trans rep
  cases box : v.box <;> rw [box] at v_rep <;> simp only [Box.rep, reduceCtorEq] at v_rep
  simp only [getF64, box]
  exact Within.ok trivial

theorem getDec_safe (present : Present v t) (rep : t.rep = .dec) :
    Safe (getDec v) DecimalVal.Bounded := by
  have v_rep := present.rep_eq.trans rep
  have bounded := present.1.2.1
  cases box : v.box <;> rw [box] at v_rep <;> simp only [Box.rep, reduceCtorEq] at v_rep
  rw [box] at bounded
  simp only [getDec, box]
  exact Within.ok bounded

end Getters

/-! ## Numeric helpers -/

private theorem decAlignUp_safe (n : Nat) {u : Int} (small : |u| < kNumericUnscaledMax) :
    Safe (decAlignUp n u) fun u => |u| < kNumericUnscaledMax := by
  induction n generalizing u with
  | zero => exact Within.ok small
  | succ n inductionHypothesis =>
      rw [decAlignUp]
      apply Within.guard
      · intro past
        exact Safe.arith _
      · intro fits
        apply inductionHypothesis
        by_cases zero : u * 10 = 0
        · rw [zero]
          decide
        · exact not_le.mp fun past => fits ⟨zero, past⟩

theorem decAlign_safe {d : DecimalVal} (bounded : d.Bounded) (dst : Nat) :
    Safe (decAlign d.unscaled d.scale dst) fun u => |u| < kNumericUnscaledMax :=
  decAlignUp_safe _ bounded.1

private theorem decPow10_safe {e : Int} (nonneg : 0 ≤ e) (le : e ≤ 38) :
    Safe (decPow10 e) fun p => p = 10 ^ e.toNat := by
  rw [decPow10, if_neg (by omega)]
  exact Within.ok rfl

/-- The rounded magnitude is not negative. -/
private theorem roundQuotient_safe {d : DecimalVal} {n : Int} (above : n < d.scale) :
    Safe (roundQuotient d n) fun q => 0 ≤ q := by
  unfold roundQuotient
  extract_lets ua shift
  apply Within.guard
  · intro below
    apply Within.bind (decPow10_safe (by omega) (by omega))
    intro p p_eq
    have quotient : 0 ≤ ua / p := by
      rw [p_eq]
      exact Int.ediv_nonneg (abs_nonneg _) (by positivity)
    extract_lets q
    have q_nonneg : 0 ≤ q := by
      simp only [q]
      split <;> omega
    apply Within.guard
    · intro negative
      apply Within.bind (decPow10_safe (by omega) (by omega))
      intro back back_eq
      apply Within.ok
      rw [back_eq]
      positivity
    · intro _
      exact Within.ok q_nonneg
  · intro _
    exact Within.ok le_rfl

private theorem roundDec_safe {d : DecimalVal} (bounded : d.Bounded) (n : Int) (ret : TypeAttr) :
    Safe (roundDec d n ret) InRange := by
  unfold roundDec
  apply Within.guard
  · intro _
    exact Within.ok (numericVal_inRange bounded)
  · intro above
    apply Within.bind (roundQuotient_safe (by omega))
    intro q nonneg
    extract_lets build
    apply Within.guard
    · intro _
      exact Safe.arith_bind _ _
    · intro below
      apply Within.ok
      apply numericVal_inRange
      constructor
      · dsimp only
        rw [not_le] at below
        split
        · rwa [abs_neg, abs_of_nonneg nonneg]
        · rwa [abs_of_nonneg nonneg]
      · have scale_le := bounded.2
        dsimp only
        split <;> omega

private theorem truncDec_safe {d : DecimalVal} (bounded : d.Bounded) (up : Bool)
    (ret : TypeAttr) : Safe (truncDec d up ret) InRange := by
  unfold truncDec
  apply Within.guard
  · intro whole
    exact Within.ok (numericVal_inRange ⟨bounded.1, Nat.zero_le 255⟩)
  · intro frac
    extract_lets neg out ua
    apply Within.guard
    · intro _
      apply Within.ok
      have unit : out = 0 ∨ out = 1 ∨ out = -1 := by
        simp only [out]
        split
        · exact Or.inl rfl
        · cases up <;> cases neg <;> simp
      refine numericVal_inRange ⟨?_, Nat.zero_le 255⟩
      rcases unit with is | is | is <;> rw [is] <;> decide
    · intro below
      apply Within.bind (decPow10_safe (by omega) (by omega))
      intro p p_eq
      extract_lets q
      -- at least one decimal is dropped, so the quotient loses a digit
      have ten_le : 10 ≤ p := by
        rw [p_eq]
        exact le_self_pow₀ (by decide) (by omega)
      have ua_nonneg : 0 ≤ ua := abs_nonneg _
      have quotient_nonneg : 0 ≤ ua / p := Int.ediv_nonneg ua_nonneg (by omega)
      have quotient_le : 10 * (ua / p) ≤ ua :=
        calc 10 * (ua / p) ≤ p * (ua / p) := mul_le_mul_of_nonneg_right ten_le quotient_nonneg
          _ ≤ ua := Int.mul_ediv_self_le (by omega)
      have small : ua < kNumericUnscaledMax := bounded.1
      have q_bounds : 0 ≤ q ∧ q < kNumericUnscaledMax := by
        rw [kNumericUnscaledMax] at small ⊢
        simp only [q]
        split <;> constructor <;> omega
      apply Within.ok
      refine numericVal_inRange ⟨?_, Nat.zero_le 255⟩
      dsimp only
      split
      · rw [abs_neg, abs_of_nonneg q_bounds.1]
        exact q_bounds.2
      · rw [abs_of_nonneg q_bounds.1]
        exact q_bounds.2

/-! ## The overloads -/

/-- An overload that is safe on arguments of the declared types. -/
def FuncEval.SafeAt (fn : FuncEval) (args : List TypeAttr) (ret : TypeAttr) : Prop :=
  ∀ argv, Arguments argv args → Safe (fn argv ret) InRange

section Overloads
variable {t u : TypeAttr}

private theorem evalDouble_safe (rep : t.rep = .double) (f : F64 → F64) :
    FuncEval.SafeAt (evalDouble f) [t] t := by
  intro argv fit
  apply Within.bind (argAt_safe fit rfl)
  intro v present
  apply Within.bind (getF64_safe present rep)
  intro x _
  exact Within.ok (inRange_of_rep trivial (by simp [doubleVal, Box.rep]))

private theorem evalFloat_safe (rep : t.rep = .float) (f : F32 → F32) :
    FuncEval.SafeAt (evalFloat f) [t] t := by
  intro argv fit
  apply Within.bind (argAt_safe fit rfl)
  intro v present
  apply Within.bind (getF32_safe present rep)
  intro x _
  exact Within.ok (inRange_of_rep trivial (by simp [floatVal, Box.rep]))

private theorem evalInteger_safe (rep : t.rep = .int64) :
    FuncEval.SafeAt evalInteger [t] t := by
  intro argv fit
  apply Within.bind (argAt_safe fit rfl)
  intro v present
  apply Within.bind (getI64_safe present rep)
  intro i range
  exact Within.ok (intVal_inRange range)

/-- The excluded minimum is the one whose absolute value leaves the domain. -/
private theorem evalAbsInteger_safe (rep : t.rep = .int64) {low : Int}
    (domain : t.width = 4 → low = int32Min) :
    FuncEval.SafeAt (evalAbsInteger low) [t] t := by
  intro argv fit
  apply Within.bind (argAt_safe fit rfl)
  intro v present
  apply Within.bind (getI64_safe present rep)
  intro i range
  extract_lets build
  apply Within.guard
  · intro _
    exact Safe.arith_bind _ _
  · intro not_low
    apply Within.ok
    apply intVal_inRange
    intro width
    have i_range := range width
    rw [domain width] at not_low
    split
    · simp only [int32Min, int32Max] at i_range not_low ⊢
      rw [toInt_neg_of_ne (by simp only [int64Min]; omega)]
      omega
    · exact i_range

private theorem evalModInteger_safe (rep : t.rep = .int64) :
    FuncEval.SafeAt evalModInteger [t, t] t := by
  intro argv fit
  apply Within.bind (argAt_safe fit rfl)
  intro v v_present
  apply Within.bind (getI64_safe v_present rep)
  intro l l_range
  apply Within.bind (argAt_safe fit rfl)
  intro w w_present
  apply Within.bind (getI64_safe w_present rep)
  intro r _
  extract_lets build
  apply Within.guard
  · intro _
    exact Safe.arith_bind _ _
  · intro _
    apply Within.guard
    · intro _
      refine Within.ok (intVal_inRange fun _ => ?_)
      decide
    · intro _
      refine Within.ok (intVal_inRange fun width => ?_)
      have range := l_range width
      simp only [int32Min, int32Max] at range ⊢
      have magnitude : (l.toInt.tmod r.toInt).natAbs ≤ l.toInt.natAbs := by
        rw [Int.natAbs_tmod]
        exact Nat.mod_le _ _
      -- the remainder has the sign of the dividend
      have of_nonneg : 0 ≤ l.toInt → 0 ≤ l.toInt.tmod r.toInt := Int.tmod_nonneg r.toInt
      have of_nonpos : l.toInt ≤ 0 → l.toInt.tmod r.toInt ≤ 0 := by
        intro nonpos
        have flipped := Int.tmod_nonneg r.toInt (neg_nonneg.mpr nonpos)
        rw [Int.neg_tmod] at flipped
        exact neg_nonneg.mp flipped
      rw [Int64.toInt_ofInt_of_le] <;> omega

/-- A remainder is finite or an error. -/
private theorem evalModDouble_safe (rep : t.rep = .double) :
    FuncEval.SafeAt evalModDouble [t, t] t := by
  intro argv fit
  apply Within.bind (argAt_safe fit rfl)
  intro v v_present
  apply Within.bind (getF64_safe v_present rep)
  intro l _
  apply Within.bind (argAt_safe fit rfl)
  intro w w_present
  apply Within.bind (getF64_safe w_present rep)
  intro r _
  extract_lets out build
  apply Within.guard
  · intro _
    exact Safe.arith_bind _ _
  · intro _
    exact Within.ok (inRange_of_rep trivial (by simp [doubleVal, Box.rep]))

private theorem evalModFloat_safe (rep : t.rep = .float) :
    FuncEval.SafeAt evalModFloat [t, t] t := by
  intro argv fit
  apply Within.bind (argAt_safe fit rfl)
  intro v v_present
  apply Within.bind (getF32_safe v_present rep)
  intro l _
  apply Within.bind (argAt_safe fit rfl)
  intro w w_present
  apply Within.bind (getF32_safe w_present rep)
  intro r _
  extract_lets out build
  apply Within.guard
  · intro _
    exact Safe.arith_bind _ _
  · intro _
    exact Within.ok (inRange_of_rep trivial (by simp [floatVal, Box.rep]))

private theorem evalAbsNumeric_safe (rep : t.rep = .dec) :
    FuncEval.SafeAt evalAbsNumeric [t] t := by
  intro argv fit
  apply Within.bind (argAt_safe fit rfl)
  intro v present
  apply Within.bind (getDec_safe present rep)
  intro d bounded
  refine Within.ok (numericVal_inRange ⟨?_, bounded.2⟩)
  rw [abs_abs]
  exact bounded.1

private theorem evalRoundNumeric_safe (rep : t.rep = .dec) :
    FuncEval.SafeAt evalRoundNumeric [t] t := by
  intro argv fit
  apply Within.bind (argAt_safe fit rfl)
  intro v present
  apply Within.bind (getDec_safe present rep)
  intro d bounded
  exact roundDec_safe bounded 0 t

private theorem evalRoundNumericInt_safe (rep : t.rep = .dec) (digits : u.rep = .int64) :
    FuncEval.SafeAt evalRoundNumericInt [t, u] t := by
  intro argv fit
  apply Within.bind (argAt_safe fit rfl)
  intro v v_present
  apply Within.bind (getDec_safe v_present rep)
  intro d bounded
  apply Within.bind (argAt_safe fit rfl)
  intro w w_present
  apply Within.bind (getI64_safe w_present digits)
  intro i _
  exact roundDec_safe bounded i.toInt t

private theorem evalFloorNumeric_safe (rep : t.rep = .dec) :
    FuncEval.SafeAt evalFloorNumeric [t] t := by
  intro argv fit
  apply Within.bind (argAt_safe fit rfl)
  intro v present
  apply Within.bind (getDec_safe present rep)
  intro d bounded
  exact truncDec_safe bounded false t

private theorem evalCeilNumeric_safe (rep : t.rep = .dec) :
    FuncEval.SafeAt evalCeilNumeric [t] t := by
  intro argv fit
  apply Within.bind (argAt_safe fit rfl)
  intro v present
  apply Within.bind (getDec_safe present rep)
  intro d bounded
  exact truncDec_safe bounded true t

private theorem evalModNumeric_safe (rep : t.rep = .dec) :
    FuncEval.SafeAt evalModNumeric [t, t] t := by
  intro argv fit
  apply Within.bind (argAt_safe fit rfl)
  intro v v_present
  apply Within.bind (getDec_safe v_present rep)
  intro l l_bounded
  apply Within.bind (argAt_safe fit rfl)
  intro w w_present
  apply Within.bind (getDec_safe w_present rep)
  intro r r_bounded
  extract_lets s build
  apply Within.guard
  · intro _
    exact Safe.arith_bind _ _
  · intro _
    apply Within.bind (decAlign_safe l_bounded _)
    intro lu lu_small
    apply Within.bind (decAlign_safe r_bounded _)
    intro ru _
    refine Within.ok (numericVal_inRange ⟨?_, max_le l_bounded.2 r_bounded.2⟩)
    have magnitude : |lu.tmod ru| ≤ |lu| := by
      rw [Int.abs_eq_natAbs, Int.abs_eq_natAbs, Int.natAbs_tmod]
      exact_mod_cast Nat.mod_le _ _
    exact lt_of_le_of_lt magnitude lu_small

end Overloads

/-- Every overload is safe on arguments of its declared types. -/
theorem kFuncRows_safe {row : FuncRow} (mem : row ∈ kFuncRows) :
    ∃ fn, kFuncTable[row.id]? = some (some fn) ∧ FuncEval.SafeAt fn row.args row.ret := by
  simp only [kFuncRows, List.mem_cons, List.not_mem_nil, or_false] at mem
  rcases mem with rfl | rfl | rfl | rfl | rfl | rfl | rfl | rfl | rfl | rfl | rfl | rfl | rfl |
    rfl | rfl | rfl | rfl | rfl | rfl | rfl | rfl | rfl | rfl | rfl | rfl | rfl <;>
    refine ⟨_, rfl, ?_⟩
  · exact evalAbsInteger_safe rfl fun _ => rfl
  · exact evalAbsInteger_safe rfl fun narrow => absurd narrow (by decide)
  · exact evalDouble_safe rfl _
  · exact evalFloat_safe rfl _
  · exact evalAbsNumeric_safe rfl
  · exact evalInteger_safe rfl
  · exact evalInteger_safe rfl
  · exact evalDouble_safe rfl _
  · exact evalFloat_safe rfl _
  · exact evalRoundNumeric_safe rfl
  · exact evalRoundNumericInt_safe rfl rfl
  · exact evalInteger_safe rfl
  · exact evalInteger_safe rfl
  · exact evalDouble_safe rfl _
  · exact evalFloat_safe rfl _
  · exact evalFloorNumeric_safe rfl
  · exact evalInteger_safe rfl
  · exact evalInteger_safe rfl
  · exact evalDouble_safe rfl _
  · exact evalFloat_safe rfl _
  · exact evalCeilNumeric_safe rfl
  · exact evalModInteger_safe rfl
  · exact evalModInteger_safe rfl
  · exact evalModDouble_safe rfl
  · exact evalModFloat_safe rfl
  · exact evalModNumeric_safe rfl

end MySimpleDb.Expr
