import MySimpleDb.Expr.FuncSafe

/-!
# Typed trees evaluate soundly

A typed tree whose comparisons are between comparable types evaluates, on a row
of the column types, to NULL or a value of its type in range, or raises an
arithmetic error or a mismatch: no conversion is missing, no box is misread.
-/

namespace MySimpleDb.Expr

open MySimpleDb.Lib MySimpleDb.Storage MySimpleDb.Analyzer

/-! ## Operands -/

/-- An implicit conversion between types that narrows no integer. -/
abbrev Converts (t u : TypeAttr) : Prop :=
  (kCastTable t.rep u.rep).map Prod.snd = some .implicit ∧
    ¬ (t.rep = .int64 ∧ u.rep = .int64 ∧ u.width < t.width)

private theorem Converts.castAllowed {v : Value} {t u : TypeAttr} (converts : Converts t u)
    (present : Present v t) : CastAllowed v u .implicit := by
  obtain ⟨tier, wide⟩ := converts
  obtain ⟨entry, found, implicit⟩ := Option.map_eq_some_iff.mp tier
  refine ⟨entry, present.type_eq ▸ found, ?_⟩
  rw [castTier, present.type_eq, if_neg wide, implicit]

/-- Both operand types convert to the domain of the arithmetic. -/
private theorem arithType_converts {lt rt t : TypeAttr} (l_mem : lt ∈ kTypeAttrs)
    (l_num : lt.family = .num) (r_mem : rt ∈ kTypeAttrs) (r_num : rt.family = .num)
    (found : arithType lt rt = .ok t) : Converts lt t ∧ Converts rt t := by
  unfold arithType at found
  split at found
  · -- numeric with float goes up to double
    have each : ∀ s ∈ kTypeAttrs, s.family = .num → Converts s kDouble := by decide
    obtain rfl : kDouble = t := Except.ok.inj found
    exact ⟨each lt l_mem l_num, each rt r_mem r_num⟩
  · rename_i same
    have each : ∀ hi ∈ kTypeAttrs, hi.family = .num → ∀ lo ∈ kTypeAttrs, lo.family = .num →
        ¬ ((hi.rep = .dec ∧ lo.rep = .float) ∨ (hi.rep = .float ∧ lo.rep = .dec)) →
        lo.rank ≤ hi.rank → Converts hi hi ∧ Converts lo hi := by
      decide
    obtain rfl := Except.ok.inj found
    split
    · rename_i rank_le
      exact each lt l_mem l_num rt r_mem r_num same rank_le
    · rename_i rank_gt
      have swapped : ¬ ((rt.rep = .dec ∧ lt.rep = .float) ∨ (rt.rep = .float ∧ lt.rep = .dec)) :=
        by tauto
      exact (each rt r_mem r_num lt l_mem l_num swapped (le_of_not_ge rank_gt)).symm

/-- A present operand cast to a type it converts to implicitly. -/
private theorem operand_safe {v : Value} {t u : TypeAttr} (present : Present v t)
    (mem : u ∈ kTypeAttrs) (converts : Converts t u) :
    Safe (castValue v u) fun w => w.box.DecBounded ∧ w.box.rep = u.rep := by
  apply (castValue_safe present.1.1.1 present.1.2.1 present.2 mem
    (converts.castAllowed present)).mono
  rintro w ⟨bounded, typed, not_null⟩
  refine ⟨bounded, ?_⟩
  rw [← typed.2.resolve_left not_null]
  exact (typed.1.resolve_left not_null).2.1.symm

section Operands
variable {v : Value} {t u : TypeAttr}

private theorem toDouble_safe (present : Present v t) (mem : u ∈ kTypeAttrs)
    (rep : u.rep = .double) (converts : Converts t u) :
    Safe (toDouble v u) fun _ => True := by
  apply Within.bind (operand_safe present mem converts)
  rintro w ⟨-, w_rep⟩
  rw [rep] at w_rep
  cases box : w.box <;> rw [box] at w_rep <;> simp only [Box.rep, reduceCtorEq] at w_rep
  exact Within.ok trivial

private theorem toFloat_safe (present : Present v t) (mem : u ∈ kTypeAttrs)
    (rep : u.rep = .float) (converts : Converts t u) :
    Safe (toFloat v u) fun _ => True := by
  apply Within.bind (operand_safe present mem converts)
  rintro w ⟨-, w_rep⟩
  rw [rep] at w_rep
  cases box : w.box <;> rw [box] at w_rep <;> simp only [Box.rep, reduceCtorEq] at w_rep
  exact Within.ok trivial

private theorem toNumeric_safe (present : Present v t) (mem : u ∈ kTypeAttrs)
    (rep : u.rep = .dec) (converts : Converts t u) :
    Safe (toNumeric v u) DecimalVal.Bounded := by
  apply Within.bind (operand_safe present mem converts)
  rintro w ⟨bounded, w_rep⟩
  rw [rep] at w_rep
  cases box : w.box <;> rw [box] at w_rep bounded <;>
    simp only [Box.rep, reduceCtorEq] at w_rep
  exact Within.ok bounded

private theorem getInt_safe (present : Present v t) (mem : u ∈ kTypeAttrs)
    (rep : u.rep = .int64) (converts : Converts t u) :
    Safe (getInt v u) fun _ => True := by
  apply Within.bind (operand_safe present mem converts)
  rintro w ⟨-, w_rep⟩
  rw [rep] at w_rep
  cases box : w.box <;> rw [box] at w_rep <;> simp only [Box.rep, reduceCtorEq] at w_rep
  exact Within.ok trivial

end Operands

/-! ## Numeric arithmetic -/

private theorem decDivSteps_safe {ub : Int} (ub_pos : 0 < ub) (t : Nat) {q rem : Int}
    (q_nonneg : 0 ≤ q) (rem_nonneg : 0 ≤ rem) :
    Safe (decDivSteps ub t q rem) fun r => 0 ≤ r.1 := by
  induction t generalizing q rem with
  | zero => exact Within.ok q_nonneg
  | succ t inductionHypothesis =>
      rw [decDivSteps]
      apply Within.guard
      · intro _
        exact Safe.arith _
      · intro _
        apply inductionHypothesis
        · have : 0 ≤ rem * 10 / ub := Int.ediv_nonneg (by omega) ub_pos.le
          omega
        · exact Int.emod_nonneg _ ub_pos.ne'

private theorem decDiv_safe (l r : DecimalVal) {rscale : Nat} (scale : l.scale ≤ rscale) :
    Safe (decDiv l r rscale) fun u => |u| < kNumericUnscaledMax := by
  unfold decDiv
  apply Within.guard
  · intro _
    exact Safe.arith _
  · intro nonzero
    extract_lets neg ua ub t
    rw [if_neg (by omega)]
    have ub_pos : 0 < ub := abs_pos.mpr nonzero
    have ua_nonneg : 0 ≤ ua := abs_nonneg _
    apply Within.bind (decDivSteps_safe ub_pos _ (Int.ediv_nonneg ua_nonneg ub_pos.le)
      (Int.emod_nonneg _ ub_pos.ne'))
    rintro ⟨q, rem⟩ (q_nonneg : 0 ≤ q)
    dsimp -zeta only
    extract_lets carried build
    have carried_nonneg : 0 ≤ carried := by
      simp only [carried]
      split <;> omega
    apply Within.guard
    · intro _
      exact Safe.arith_bind _ _
    · intro below
      apply Within.ok
      rw [not_le] at below
      split
      · rwa [abs_neg, abs_of_nonneg carried_nonneg]
      · rwa [abs_of_nonneg carried_nonneg]

/-- The result scale is a byte, and at least the left scale for a division. -/
private theorem decResultScale_safe {l r : DecimalVal} (op : ArithOp)
    (l_scale : l.scale ≤ 255) :
    Safe (decResultScale op l r) fun s => s ≤ 255 ∧ (op = .div → l.scale ≤ s) := by
  unfold decResultScale
  extract_lets hi s
  apply Within.guard
  · intro _
    exact Safe.arith _
  · intro fits
    refine Within.ok ⟨by omega, ?_⟩
    rintro rfl
    simp only [s, hi]
    omega

private theorem decArith_safe {l r : DecimalVal} {op : ArithOp} {rscale : Nat}
    (l_bounded : l.Bounded) (r_bounded : r.Bounded) (scale : op = .div → l.scale ≤ rscale) :
    Safe (decArith op l r rscale) fun u => |u| < kNumericUnscaledMax := by
  unfold decArith
  extract_lets bounded
  have bounded_safe : ∀ out, Safe (bounded out) fun u => |u| < kNumericUnscaledMax := by
    intro out
    apply Within.guard
    · intro _
      exact Safe.arith _
    · intro below
      exact Within.ok (not_le.mp below)
  cases op with
  | add | sub =>
      apply Within.bind (decAlign_safe l_bounded _)
      intro lu _
      apply Within.bind (decAlign_safe r_bounded _)
      intro ru _
      exact bounded_safe _
  | mul => exact bounded_safe _
  | div => exact decDiv_safe l r (scale rfl)

private theorem i64Arith_safe (op : ArithOp) (l r : Int64) :
    Safe (i64Arith op l r) fun _ => True := by
  unfold i64Arith
  extract_lets checked
  have checked_safe : ∀ out, Safe (checked out) fun _ => True := fun out =>
    Within.guard (fun _ => Safe.arith _) fun _ => Within.ok trivial
  cases op with
  | add | sub | mul => exact checked_safe _
  | div =>
      exact Within.guard (fun _ => Safe.arith _) fun _ =>
        Within.guard (fun _ => Safe.arith _) fun _ => Within.ok trivial

/-! ## Operators on evaluated operands -/

/-- A numeric type that is the domain of present operands. -/
private theorem present_of_fits {v : Value} {t : TypeAttr} (fits : Fits v t)
    (not_null : valueIsNull v = false) : Present v t := by
  refine ⟨fits, ?_⟩
  intro null
  rw [valueIsNull_iff.mpr null] at not_null
  cases not_null

private theorem inRange_of_int64 {t : TypeAttr} {out : Int}
    (checked : ¬ (t.width = 4 ∧ (out < int32Min ∨ int32Max < out))) :
    InRange (intVal t (Int64.ofInt out)) := by
  apply intVal_inRange
  intro width
  have range : int32Min ≤ out ∧ out ≤ int32Max := by
    simp only [width, true_and, not_or, not_lt] at checked
    exact checked
  simp only [int32Min, int32Max] at range ⊢
  rw [Int64.toInt_ofInt_of_le] <;> omega

private theorem arithValue_inRange {op : ArithOp} {lt rt t : TypeAttr} {lv rv : Value}
    (l_present : Present lv lt) (r_present : Present rv rt) (t_mem : t ∈ kTypeAttrs)
    (t_num : t.family = .num) (l_converts : Converts lt t) (r_converts : Converts rt t) :
    Safe (arithValue op t lv rv) InRange := by
  have present : ¬ (valueIsNull lv || valueIsNull rv) = true := by
    simp [valueIsNull_iff, l_present.2, r_present.2]
  rw [arithValue, if_neg present]
  have reps : ∀ t ∈ kTypeAttrs, t.family = .num →
      t.rep = .dec ∨ t.rep = .float ∨ t.rep = .double ∨ t.rep = .int64 := by decide
  rcases reps t t_mem t_num with rep | rep | rep | rep <;> simp -zeta only [rep]
  · apply Within.bind (toNumeric_safe l_present t_mem rep l_converts)
    intro l l_bounded
    apply Within.bind (toNumeric_safe r_present t_mem rep r_converts)
    intro r r_bounded
    apply Within.bind (decResultScale_safe op l_bounded.2)
    rintro rs ⟨rs_le, div_le⟩
    apply Within.bind (decArith_safe l_bounded r_bounded div_le)
    intro u small
    exact Within.ok (numericVal_inRange ⟨small, rs_le⟩)
  · apply Within.bind (toFloat_safe l_present t_mem rep l_converts)
    intro l _
    apply Within.bind (toFloat_safe r_present t_mem rep r_converts)
    intro r _
    extract_lets out build
    apply Within.guard
    · intro _
      exact Safe.arith_bind _ _
    · intro _
      exact Within.ok (inRange_of_rep trivial (by simp [floatVal, Box.rep]))
  · apply Within.bind (toDouble_safe l_present t_mem rep l_converts)
    intro l _
    apply Within.bind (toDouble_safe r_present t_mem rep r_converts)
    intro r _
    extract_lets out build
    apply Within.guard
    · intro _
      exact Safe.arith_bind _ _
    · intro _
      exact Within.ok (inRange_of_rep trivial (by simp [doubleVal, Box.rep]))
  · apply Within.bind (getInt_safe l_present t_mem rep l_converts)
    intro l _
    apply Within.bind (getInt_safe r_present t_mem rep r_converts)
    intro r _
    apply Within.bind (i64Arith_safe op l r)
    intro out _
    extract_lets build
    apply Within.guard
    · intro _
      exact Safe.arith_bind _ _
    · intro checked
      exact Within.ok (inRange_of_int64 checked)

/-- Reading an integer in its own type gives its contents. -/
private theorem getInt_self {v : Value} {t : TypeAttr} (present : Present v t)
    (rep : t.rep = .int64) : ∃ i, v.box = .int64 i ∧ getInt v t = .ok i := by
  have v_rep := present.rep_eq.trans rep
  cases box : v.box <;> rw [box] at v_rep <;> simp only [Box.rep, reduceCtorEq] at v_rep
  rename_i i
  have stamped : castValue v t = .ok ⟨t, v.box⟩ := by
    simp [castValue, kCastTable, castTier, i64Restamp, valueIsNull, box, present.type_eq, rep,
      CastMode.tier, Res.pure_eq_ok]
  refine ⟨i, rfl, ?_⟩
  rw [getInt, stamped, box]
  rfl

private theorem negValue_inRange {t : TypeAttr} {v : Value} (present : Present v t)
    (num : t.family = .num) : Safe (negValue t v) InRange := by
  have not_null : ¬ valueIsNull v = true := by
    simp [valueIsNull_iff, present.2]
  have t_mem := present.mem
  have each : ∀ t ∈ kTypeAttrs, t.family = .num → Converts t t ∧
      (t.rep = .dec ∨ t.rep = .float ∨ t.rep = .double ∨ t.rep = .int64) := by decide
  obtain ⟨converts, reps⟩ := each t t_mem num
  rw [negValue, if_neg not_null]
  rcases reps with rep | rep | rep | rep <;> simp -zeta only [rep]
  · apply Within.bind (getDec_safe present rep)
    intro d bounded
    refine Within.ok (numericVal_inRange ⟨?_, bounded.2⟩)
    rw [abs_neg]
    exact bounded.1
  · apply Within.bind (toFloat_safe present t_mem rep converts)
    intro x _
    exact Within.ok (inRange_of_rep trivial (by simp [floatVal, Box.rep]))
  · apply Within.bind (toDouble_safe present t_mem rep converts)
    intro x _
    exact Within.ok (inRange_of_rep trivial (by simp [doubleVal, Box.rep]))
  · obtain ⟨i, box, read⟩ := getInt_self present rep
    have range := present.1.2.2 i box
    rw [present.type_eq] at range
    rw [read]
    simp -zeta only [Res.bind_ok]
    extract_lets build
    apply Within.guard
    · intro _
      exact Safe.arith_bind _ _
    · intro not_min
      refine Within.ok (intVal_inRange fun width => ?_)
      have i_range := range width
      rw [not_or] at not_min
      have not_low : i.toInt ≠ int32Min := fun low => not_min.2 ⟨width, low⟩
      rw [toInt_neg_of_ne not_min.1]
      simp only [int32Min, int32Max] at i_range not_low ⊢
      omega

private theorem numCmp_safe {lv rv : Value} {lt rt : TypeAttr} (l_present : Present lv lt)
    (r_present : Present rv rt) (l_num : lt.family = .num) (r_num : rt.family = .num) :
    Safe (numCmp lv rv) fun _ => True := by
  have each : ∀ t ∈ kTypeAttrs, t.family = .num → Converts t kDouble := by decide
  have mixed : Safe (do
      let l ← boxF64 lv
      let r ← boxF64 rv
      pure (f64Cmp l r)) fun _ => True := by
    apply Within.bind (toDouble_safe l_present (by decide) rfl (each lt l_present.mem l_num))
    intro l _
    apply Within.bind (toDouble_safe r_present (by decide) rfl (each rt r_present.mem r_num))
    intro r _
    exact Within.ok trivial
  unfold numCmp
  split
  · exact Within.ok trivial
  · exact Within.ok trivial
  · exact Within.ok trivial
  · exact Within.ok trivial
  · exact mixed

/-- Types whose values can be compared: of one family. -/
def Comparable (lt rt : TypeAttr) : Prop :=
  lt.id ≠ 0 → rt.id ≠ 0 → lt.family = rt.family

private theorem valueCmp_safe {lv rv : Value} {lt rt : TypeAttr} (l_present : Present lv lt)
    (r_present : Present rv rt) (family : lt.family = rt.family) :
    Safe (valueCmp lv rv) fun _ => True := by
  have present : ¬ (valueIsNull lv || valueIsNull rv) = true := by
    simp [valueIsNull_iff, l_present.2, r_present.2]
  have each : ∀ t ∈ kTypeAttrs, t.family = .num ∨ t.family = .text ∧ t.rep = .str ∨
      t.family = .bool ∧ t.rep = .bool := by decide
  have l_family : lv.type.family = rt.family := by rw [l_present.type_eq, family]
  have l_rep := l_present.rep_eq
  have r_rep := r_present.rep_eq
  rw [valueCmp, if_neg present, l_family, r_present.type_eq]
  rcases each rt r_present.mem with num | ⟨text, str⟩ | ⟨bool, rep⟩
  · simp only [num, if_true]
    exact numCmp_safe l_present r_present (family.trans num) num
  · have l_str : lt.rep = .str := by
      have each : ∀ t ∈ kTypeAttrs, t.family = .text → t.rep = .str := by decide
      exact each lt l_present.mem (family.trans text)
    rw [l_str] at l_rep
    rw [str] at r_rep
    cases l_box : lv.box <;> rw [l_box] at l_rep <;> simp only [Box.rep, reduceCtorEq] at l_rep
    cases r_box : rv.box <;> rw [r_box] at r_rep <;> simp only [Box.rep, reduceCtorEq] at r_rep
    simp only [text, if_true]
    exact Within.ok trivial
  · have l_bool : lt.rep = .bool := by
      have each : ∀ t ∈ kTypeAttrs, t.family = .bool → t.rep = .bool := by decide
      exact each lt l_present.mem (family.trans bool)
    rw [l_bool] at l_rep
    rw [rep] at r_rep
    cases l_box : lv.box <;> rw [l_box] at l_rep <;> simp only [Box.rep, reduceCtorEq] at l_rep
    cases r_box : rv.box <;> rw [r_box] at r_rep <;> simp only [Box.rep, reduceCtorEq] at r_rep
    simp only [bool, if_true]
    exact Within.ok trivial

private theorem boolVal_inRange (b : Bool) : InRange (boolVal kBool b) :=
  inRange_of_rep trivial (by simp [boolVal, Box.rep])

private theorem arithValue_safe {op : ArithOp} {lt rt t : TypeAttr} {lv rv : Value}
    (l_fits : Fits lv lt) (r_fits : Fits rv rt) (l_num : numOrUntyped lt = true)
    (r_num : numOrUntyped rt = true) (found : arithType lt rt = .ok t) :
    Safe (arithValue op t lv rv) InRange := by
  by_cases null : (valueIsNull lv || valueIsNull rv) = true
  · rw [arithValue, if_pos null]
    exact Within.ok (inRange_null rfl)
  · simp only [Bool.or_eq_true, not_or, Bool.not_eq_true] at null
    obtain ⟨l_mem, l_family⟩ := numOrUntyped_num l_fits.1 null.1 l_num
    obtain ⟨r_mem, r_family⟩ := numOrUntyped_num r_fits.1 null.2 r_num
    obtain ⟨t_mem, t_family⟩ := arithType_num l_mem l_family r_mem r_family found
    obtain ⟨l_converts, r_converts⟩ := arithType_converts l_mem l_family r_mem r_family found
    exact arithValue_inRange (present_of_fits l_fits null.1) (present_of_fits r_fits null.2)
      t_mem t_family l_converts r_converts

private theorem negValue_safe {t : TypeAttr} {v : Value} (fits : Fits v t)
    (num : numOrUntyped t = true) : Safe (negValue t v) InRange := by
  by_cases null : valueIsNull v = true
  · rw [negValue, if_pos null]
    exact Within.ok fits.2
  · rw [Bool.not_eq_true] at null
    exact negValue_inRange (present_of_fits fits null) (numOrUntyped_num fits.1 null num).2

private theorem cmpValue_safe {op : CmpOp} {lt rt : TypeAttr} {lv rv : Value}
    (l_fits : Fits lv lt) (r_fits : Fits rv rt) (comparable : Comparable lt rt) :
    Safe (cmpValue op lv rv) InRange := by
  by_cases null : (valueIsNull lv || valueIsNull rv) = true
  · rw [cmpValue, if_pos null]
    exact Within.ok (inRange_null rfl)
  · rw [cmpValue, if_neg null]
    simp only [Bool.or_eq_true, not_or, Bool.not_eq_true] at null
    have l_present := present_of_fits l_fits null.1
    have r_present := present_of_fits r_fits null.2
    have seeds : ∀ t ∈ kTypeAttrs, t.id ≠ 0 := by decide
    have family := comparable (seeds lt l_present.mem) (seeds rt r_present.mem)
    apply Within.bind (valueCmp_safe l_present r_present family)
    intro c _
    exact Within.ok (boolVal_inRange _)

/-- An operand of a boolean or untyped tree is a boolean or UNKNOWN. -/
private theorem logicOperand_safe {t : TypeAttr} {v : Value} (fits : Fits v t)
    (bool : boolOrUntyped t = true) :
    Safe (logicOperand v) fun b => b = none → v.box = .null := by
  by_cases null : v.box = .null
  · simp only [logicOperand, null]
    exact Within.ok fun _ => trivial
  · have present : Present v t := ⟨fits, null⟩
    have each : ∀ t ∈ kTypeAttrs, boolOrUntyped t = true → t.rep = .bool := by decide
    have v_rep := present.rep_eq.trans (each t present.mem bool)
    cases box : v.box <;> rw [box] at v_rep <;> simp only [Box.rep, reduceCtorEq] at v_rep
    simp only [logicOperand, box]
    exact Within.ok (by simp)

private theorem logicValue_safe {op : LogicOp} {lt rt : TypeAttr} {lv rv : Value}
    (l_fits : Fits lv lt) (r_fits : Fits rv rt) (l_bool : boolOrUntyped lt = true)
    (r_bool : boolOrUntyped rt = true) : Safe (logicValue op lv rv) InRange := by
  apply Within.bind (logicOperand_safe l_fits l_bool)
  intro lb _
  apply Within.bind (logicOperand_safe r_fits r_bool)
  intro rb _
  extract_lets dominating
  apply Within.guard
  · intro _
    exact Within.ok (boolVal_inRange _)
  · intro _
    apply Within.guard
    · intro _
      exact Within.ok (inRange_null rfl)
    · intro _
      exact Within.ok (boolVal_inRange _)

private theorem notValue_safe {t : TypeAttr} {v : Value} (fits : Fits v t)
    (bool : boolOrUntyped t = true) : Safe (notValue v) InRange := by
  apply Within.bind (logicOperand_safe fits bool)
  rintro (_ | b) _
  · exact Within.ok fits.2
  · exact Within.ok (boolVal_inRange _)

private theorem constValue_safe {v : Value} {t : TypeAttr} (typed : v.OfType t)
    (range : InRange v) : Safe (constValue v) InRange := by
  rw [constValue_valid typed.1]
  exact Within.ok range

private theorem arguments_of_fits {argv : List Value} {args : List TypeAttr}
    (fit : List.Forall₂ Fits argv args) (not_null : ∀ v ∈ argv, valueIsNull v = false) :
    Arguments argv args := by
  induction fit with
  | nil => exact List.Forall₂.nil
  | cons head tail inductionHypothesis =>
      apply List.Forall₂.cons
      · exact present_of_fits head (not_null _ List.mem_cons_self)
      · exact inductionHypothesis fun v mem => not_null v (List.mem_cons_of_mem _ mem)

/-- A strict overload passes on a NULL argument, and otherwise has present ones. -/
private theorem funcValue_safe {row : FuncRow} {argv : List Value} (mem : row ∈ kFuncRows)
    (fit : List.Forall₂ Fits argv row.args) :
    Safe (funcValue row.id row.strictNull row.ret argv) InRange := by
  have strict : ∀ row ∈ kFuncRows, row.strictNull = true := by decide
  rw [funcValue, if_pos (strict row mem)]
  cases found : argv.find? valueIsNull with
  | some v =>
      exact Within.ok (inRange_null (valueIsNull_iff.mp (List.find?_some found)))
  | none =>
      have present : Arguments argv row.args :=
        arguments_of_fits fit (by simpa using List.find?_eq_none.mp found)
      obtain ⟨fn, slot, safe⟩ := kFuncRows_safe mem
      simp only [evalBuiltin, slot]
      exact safe argv present

private theorem checkCastBounds_safe {t : TypeAttr} {length : Nat} {w : Value}
    (bounded : w.box.DecBounded) (typed : w.OfType t) (not_null : w.box ≠ .null) :
    Safe (checkCastBounds t length w) fun _ => InRange w := by
  have type_eq : w.type = t := typed.2.resolve_left not_null
  have rep : w.box.rep = t.rep := by
    rw [← type_eq]
    exact (typed.1.resolve_left not_null).2.1.symm
  unfold checkCastBounds
  extract_lets checkText
  have checkText_safe : InRange w → Safe (checkText ()) fun _ => InRange w := by
    intro range
    apply Within.guard
    · rintro ⟨text, -⟩
      have each : ∀ t ∈ kTypeAttrs, t.family = .text → t.rep = .str := by decide
      rw [each t (type_eq ▸ (typed.1.resolve_left not_null).1) text] at rep
      cases box : w.box <;> rw [box] at rep <;> simp only [Box.rep, reduceCtorEq] at rep
      apply Within.guard
      · intro _
        exact Safe.mismatch _
      · intro _
        exact Within.ok range
    · intro _
      exact Within.ok range
  apply Within.guard
  · rintro ⟨int, -⟩
    rw [int] at rep
    cases box : w.box <;> rw [box] at rep <;> simp only [Box.rep, reduceCtorEq] at rep
    apply Within.guard
    · intro _
      exact Safe.mismatch_bind _ _
    · intro in_range
      apply checkText_safe
      refine ⟨bounded, fun j j_box _ => ?_⟩
      rw [box] at j_box
      cases j_box
      simpa only [not_or, not_lt] using in_range
  · intro not_int
    apply checkText_safe
    refine ⟨bounded, fun j j_box width => absurd ?_ not_int⟩
    rw [j_box] at rep
    exact ⟨rep.symm, type_eq ▸ width⟩

/-- What the declared length and scale of a cast may be. -/
def CastSpec (t : TypeAttr) (length scale : Nat) : Prop :=
  (t.rep = .dec → length ≤ 38) ∧ scale ≤ 255

private theorem castExprValue_safe {t u : TypeAttr} {length scale : Nat} {v : Value}
    (fits : Fits v u) (t_mem : t ∈ kTypeAttrs) (spec : CastSpec t length scale) :
    Safe (castExprValue t length scale v) InRange := by
  by_cases null : valueIsNull v = true
  · rw [castExprValue, if_pos null]
    exact Within.ok fits.2
  · rw [castExprValue, if_neg null]
    rw [Bool.not_eq_true] at null
    have present := present_of_fits fits null
    have allowed : CastAllowed v t .explicit :=
      castAllowed_explicit (present.type_eq ▸ present.mem) t_mem
    apply Within.guard
    · rintro ⟨dec, declared⟩
      apply (coerceNumeric_safe fits.1.1 fits.2.1 present.2 t_mem dec allowed declared
        (spec.1 dec) spec.2).mono
      rintro w ⟨bounded, typed, not_null⟩
      apply inRange_of_rep bounded
      rw [← (typed.1.resolve_left not_null).2.1, typed.2.resolve_left not_null, dec]
      simp
    · intro _
      apply Within.bind (castValue_safe fits.1.1 fits.2.1 present.2 t_mem allowed)
      rintro w ⟨bounded, typed, not_null⟩
      apply Within.bind (checkCastBounds_safe bounded typed not_null)
      intro _ range
      exact Within.ok range

/-! ## Trees -/

mutual
/-- What the binder checks beyond the types: constants in range, comparisons
between comparable types, and the length and scale of casts. -/
def Checked (cols : List TypeAttr) : BoundExpr → Prop
  | .const v => InRange v
  | .colRef _ _ => True
  | .arith _ left right _ => Checked cols left ∧ Checked cols right
  | .neg operand _ => Checked cols operand
  | .cmp _ left right =>
      (∃ lt rt, Typed cols left lt ∧ Typed cols right rt ∧ Comparable lt rt) ∧
        Checked cols left ∧ Checked cols right
  | .logic _ left right => Checked cols left ∧ Checked cols right
  | .not operand => Checked cols operand
  | .isNull operand _ => Checked cols operand
  | .funcCall _ _ _ args _ => CheckedArgs cols args
  | .cast operand type length scale => CastSpec type length scale ∧ Checked cols operand

def CheckedArgs (cols : List TypeAttr) : List BoundExpr → Prop
  | [] => True
  | a :: args => Checked cols a ∧ CheckedArgs cols args
end

/-- A row whose values are of the column types and in range; without columns no
row is needed. -/
def RowFits (cols : List TypeAttr) (row : Option Row) : Prop :=
  ∀ (i : Nat) (t : TypeAttr), cols[i]? = some t →
    ∃ r v, row = some r ∧ r.values[i]? = some v ∧ Fits v t

theorem RowFits.rowsOf {cols : List TypeAttr} {row : Option Row} (fits : RowFits cols row) :
    RowsOf cols row := by
  rintro r r_mem i t at_i
  obtain ⟨r', v, row_eq, found, v_fits⟩ := fits i t at_i
  obtain rfl : r = r' := Option.some.inj ((Option.mem_def.mp r_mem).symm.trans row_eq)
  exact ⟨v, found, v_fits.1⟩

/-- Range soundness and type preservation together. -/
private theorem fits_of_inRange {cols : List TypeAttr} {row : Option Row}
    (row_fits : RowFits cols row) {e : BoundExpr} {t : TypeAttr} (typed : Typed cols e t)
    (safe : Safe (evalBound e row) InRange) : Safe (evalBound e row) fun v => Fits v t :=
  (safe.and_of_ok fun _ done => evalBound_typed row_fits.rowsOf typed done).mono
    fun _ both => ⟨both.2, both.1⟩

mutual
/-- Soundness of evaluation, by induction on the tree. -/
theorem evalBound_sound {cols : List TypeAttr} {row : Option Row}
    (row_fits : RowFits cols row) : ∀ {e : BoundExpr} {t : TypeAttr}, Typed cols e t →
      Checked cols e → Safe (evalBound e row) fun v => Fits v t
  | .const c, t, typed, checked => by
      apply fits_of_inRange row_fits typed
      simp only [Typed] at typed
      simp only [Checked] at checked
      exact constValue_safe typed.1 checked
  | .colRef i type, t, typed, checked => by
      simp only [Typed] at typed
      obtain ⟨r, v, row_eq, found, fits⟩ := row_fits i t typed.2.1
      simp only [evalBound, row_eq, found]
      exact Within.ok fits
  | .arith op left right type, t, typed, checked => by
      apply fits_of_inRange row_fits typed
      simp only [Typed] at typed
      obtain ⟨rfl, lt, rt, l_typed, r_typed, l_num, r_num, found⟩ := typed
      simp only [Checked] at checked
      apply Within.bind (evalBound_sound row_fits l_typed checked.1)
      intro lv l_fits
      apply Within.bind (evalBound_sound row_fits r_typed checked.2)
      intro rv r_fits
      exact arithValue_safe l_fits r_fits l_num r_num found
  | .neg operand type, t, typed, checked => by
      apply fits_of_inRange row_fits typed
      simp only [Typed] at typed
      obtain ⟨rfl, num, o_typed⟩ := typed
      simp only [Checked] at checked
      apply Within.bind (evalBound_sound row_fits o_typed checked)
      intro v v_fits
      exact negValue_safe v_fits num
  | .cmp op left right, t, typed, checked => by
      apply fits_of_inRange row_fits typed
      simp only [Checked] at checked
      obtain ⟨⟨lt, rt, l_typed, r_typed, comparable⟩, l_checked, r_checked⟩ := checked
      apply Within.bind (evalBound_sound row_fits l_typed l_checked)
      intro lv l_fits
      apply Within.bind (evalBound_sound row_fits r_typed r_checked)
      intro rv r_fits
      exact cmpValue_safe l_fits r_fits comparable
  | .logic op left right, t, typed, checked => by
      apply fits_of_inRange row_fits typed
      simp only [Typed] at typed
      obtain ⟨-, ⟨lt, l_typed, l_bool⟩, rt, r_typed, r_bool⟩ := typed
      simp only [Checked] at checked
      apply Within.bind (evalBound_sound row_fits l_typed checked.1)
      intro lv l_fits
      apply Within.bind (evalBound_sound row_fits r_typed checked.2)
      intro rv r_fits
      exact logicValue_safe l_fits r_fits l_bool r_bool
  | .not operand, t, typed, checked => by
      apply fits_of_inRange row_fits typed
      simp only [Typed] at typed
      obtain ⟨-, u, o_typed, bool⟩ := typed
      simp only [Checked] at checked
      apply Within.bind (evalBound_sound row_fits o_typed checked)
      intro v v_fits
      exact notValue_safe v_fits bool
  | .isNull operand negate, t, typed, checked => by
      apply fits_of_inRange row_fits typed
      simp only [Typed] at typed
      obtain ⟨-, u, o_typed⟩ := typed
      simp only [Checked] at checked
      apply Within.bind (evalBound_sound row_fits o_typed checked)
      intro v _
      exact Within.ok (boolVal_inRange _)
  | .funcCall func name strictNull args type, t, typed, checked => by
      apply fits_of_inRange row_fits typed
      simp only [Typed] at typed
      obtain ⟨rfl, frow, mem, rfl, -, rfl, rfl, a_typed⟩ := typed
      simp only [Checked] at checked
      apply Within.bind (evalArgs_sound row_fits a_typed checked)
      intro argv fit
      exact funcValue_safe mem fit
  | .cast operand type length scale, t, typed, checked => by
      apply fits_of_inRange row_fits typed
      simp only [Typed] at typed
      obtain ⟨rfl, mem, u, o_typed⟩ := typed
      simp only [Checked] at checked
      apply Within.bind (evalBound_sound row_fits o_typed checked.2)
      intro v v_fits
      exact castExprValue_safe v_fits mem checked.1

theorem evalArgs_sound {cols : List TypeAttr} {row : Option Row} (row_fits : RowFits cols row) :
    ∀ {args : List BoundExpr} {ts : List TypeAttr}, TypedArgs cols args ts →
      CheckedArgs cols args → Safe (evalArgs args row) fun vs => List.Forall₂ Fits vs ts
  | [], ts, typed, checked => by
      simp only [TypedArgs] at typed
      rw [typed, evalArgs]
      exact Within.ok List.Forall₂.nil
  | a :: args, ts, typed, checked => by
      simp only [TypedArgs] at typed
      obtain ⟨t, rest, rfl, a_typed, args_typed⟩ := typed
      simp only [CheckedArgs] at checked
      apply Within.bind (evalBound_sound row_fits a_typed checked.1)
      intro v v_fits
      apply Within.bind (evalArgs_sound row_fits args_typed checked.2)
      intro vs vs_fit
      exact Within.ok (List.Forall₂.cons v_fits vs_fit)
end

end MySimpleDb.Expr
