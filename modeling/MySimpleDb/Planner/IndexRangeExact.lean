import MySimpleDb.Planner.IndexRange
import MySimpleDb.Expr.Typed

/-!
# Key ranges are exactly the predicate

The ranges kept for a list of matched conjuncts select the keys of exactly the
column values on which every conjunct is true.  The range algebra is the
interval algebra over the key order; what remains is that a conjunct's own
ranges are exact, which is the agreement of value comparison and key order.
-/

namespace MySimpleDb.Planner

open MySimpleDb.Lib MySimpleDb.Storage MySimpleDb.Analyzer MySimpleDb.Expr

/-! ## The range operations are interval operations -/

theorem tighterLo_eq (a b : Option ScanBound) : tighterLo a b = KeyInterval.tighterLo a b := by
  rcases a with _ | a
  · rfl
  rcases b with _ | b
  · rfl
  simp only [tighterLo, KeyInterval.tighterLo, ne_eq, keyCmp_eq_zero_iff, keyCmp_pos_iff]
  rcases lt_trichotomy a.key b.key with lt | same | gt
  · simp [ne_of_lt lt, not_lt_of_gt lt, lt]
  · simp [same]
  · simp [(ne_of_lt gt).symm, gt]

theorem tighterHi_eq (a b : Option ScanBound) : tighterHi a b = KeyInterval.tighterHi a b := by
  rcases a with _ | a
  · rfl
  rcases b with _ | b
  · rfl
  simp only [tighterHi, KeyInterval.tighterHi, ne_eq, keyCmp_eq_zero_iff, keyCmp_neg_iff]
  rcases lt_trichotomy a.key b.key with lt | same | gt
  · simp [ne_of_lt lt, lt]
  · simp [same]
  · simp [(ne_of_lt gt).symm, not_lt_of_gt gt, gt]

/-- The crossing test of the source is that of the interval algebra. -/
private theorem crossed_iff (lo hi : ScanBound) :
    (0 < keyCmp lo.key hi.key ∨
        (keyCmp lo.key hi.key = 0 ∧ (!(lo.inclusive && hi.inclusive)) = true)) ↔
      KeyInterval.apart hi lo = true := by
  rw [keyCmp_pos_iff, keyCmp_eq_zero_iff, KeyInterval.apart_iff, KeyInterval.Apart,
    eq_comm (a := hi.key)]
  cases lo.inclusive <;> cases hi.inclusive <;> simp

theorem rangeMeet_eq (a b : IndexRange) : rangeMeet a b = KeyInterval.meet a b := by
  unfold rangeMeet KeyInterval.meet
  simp only [tighterLo_eq, tighterHi_eq]
  cases KeyInterval.tighterLo a.lo b.lo with
  | none => rfl
  | some lo =>
      cases KeyInterval.tighterHi a.hi b.hi with
      | none => rfl
      | some hi => simp only [crossed_iff]

theorem rangesMeet_eq (a b : List IndexRange) : rangesMeet a b = KeyInterval.meetAll a b := by
  simp only [rangesMeet, KeyInterval.meetAll, rangeMeet_eq]

theorem cmpRanges_pairwise (op : CmpOp) (k : IndexKey) :
    (cmpRanges op k).Pairwise KeyInterval.Before := by
  cases op <;> simp [cmpRanges, KeyInterval.Before, KeyInterval.Apart]

/-- What an operator asks of two keys. -/
def keysRelated : CmpOp → IndexKey → IndexKey → Prop
  | .eq, x, k => x = k
  | .ne, x, k => x ≠ k
  | .lt, x, k => x < k
  | .le, x, k => x < k ∨ x = k
  | .gt, x, k => k < x
  | .ge, x, k => k < x ∨ k = x

/-- A comparison's ranges hold the keys that compare as the operator says,
NULL excluded. -/
theorem mem_cmpRanges (op : CmpOp) {k x : IndexKey} (k_val : k.null = false) :
    (∃ r ∈ cmpRanges op k, r.Mem x) ↔
      x.null = false ∧ cmpHolds op (keyCmp x k) = true := by
  have below_null : x < kNullKey ↔ x.null = false := by
    constructor
    · intro lt
      by_contra is_null
      rw [Bool.not_eq_false] at is_null
      rw [IndexKey.lt_iff_rank] at lt
      simp only [IndexKey.rank, is_null, kNullKey, if_true] at lt
      simp at lt
    · intro not_null
      exact IndexKey.lt_null not_null 0
  have k_below : k < kNullKey := IndexKey.lt_null k_val 0
  have cases_op : cmpHolds op (keyCmp x k) = true ↔ keysRelated op x k := by
    rw [keyCmp_eq]
    rcases lt_trichotomy x k with lt | same | gt
    · cases op <;>
        simp [cmpHolds, keysRelated, lt, ne_of_lt lt, not_lt_of_gt lt, (ne_of_lt lt).symm]
    · subst same
      cases op <;> simp [cmpHolds, keysRelated]
    · cases op <;>
        simp [cmpHolds, keysRelated, gt, not_lt_of_gt gt, ne_of_lt gt, (ne_of_lt gt).symm]
  rw [cases_op, ← below_null]
  cases op <;> simp only [cmpRanges, keysRelated, KeyInterval.Mem, KeyInterval.Above,
    KeyInterval.Below, List.mem_cons, List.not_mem_nil, or_false, exists_eq_left,
    exists_eq_or_imp, Option.mem_def, Option.some.injEq, forall_eq', reduceCtorEq,
    false_implies, implies_true, true_and, Bool.false_eq_true, and_false, and_true]
  case eq =>
    constructor
    · rintro ⟨ge, le⟩
      have same : x = k := by
        rcases ge with gt | same
        · rcases le with lt | same
          · exact absurd lt (not_lt_of_gt gt)
          · exact same
        · exact same.symm
      exact ⟨same ▸ k_below, same⟩
    · rintro ⟨-, rfl⟩
      exact ⟨Or.inr rfl, Or.inr rfl⟩
  case lt => exact ⟨fun lt => ⟨lt_trans lt k_below, lt⟩, And.right⟩
  case le =>
    refine ⟨fun le => ⟨?_, le⟩, And.right⟩
    rcases le with lt | rfl
    · exact lt_trans lt k_below
    · exact k_below
  case gt => exact and_comm
  case ge => exact and_comm
  case ne =>
    constructor
    · rintro (lt | ⟨gt, below⟩)
      · exact ⟨lt_trans lt k_below, ne_of_lt lt⟩
      · exact ⟨below, (ne_of_lt gt).symm⟩
    · rintro ⟨below, ne⟩
      rcases lt_or_gt_of_ne ne with lt | gt
      · exact Or.inl lt
      · exact Or.inr ⟨gt, below⟩

/-! ## Value comparison is key comparison -/

/-- Columns an index can be built on. -/
def Indexable (t : TypeAttr) : Prop :=
  t ∈ [kInt, kBigint, kFloat, kDouble, kBool]

private theorem f64Cmp_eq_keyCmp {l r : F64} (l_num : l.isNaN = false)
    (r_num : r.isNaN = false) : f64Cmp l r = keyCmp (doubleKey l) (doubleKey r) := by
  simp only [f64Cmp, Flt.lt, l_num, r_num, Bool.not_false, Bool.true_and,
    decide_eq_true_eq, keyCmp_eq, doubleKey_lt_iff l_num r_num, doubleKey_lt_iff r_num l_num]

private theorem castValue_dec {t : TypeAttr} (rep : t.rep = .dec) (d : DecimalVal) :
    castValue ⟨t, .dec d⟩ kDouble = (decToF64Raw d).map (doubleVal kDouble) := by
  simp only [castValue, valueIsNull, rep, kCastTable, kDouble, castTier, CastMode.tier, decToF64,
    Storage.getDec, doubleVal, bind, Except.bind]
  cases decToF64Raw d <;> simp [pure, Except.pure, Except.map, doubleVal]

/-- The double a numeric value takes part in a mixed comparison as. -/
inductive AsDouble : Value → F64 → Prop
  | double {t d} : t.rep = .double → d.isFinite = true → AsDouble ⟨t, .double d⟩ d
  | float {t x} : t.rep = .float → x.isFinite = true → AsDouble ⟨t, .float x⟩ (widenF64 x)
  | dec {t d x} : t.rep = .dec → decToF64Raw d = .ok x → AsDouble ⟨t, .dec d⟩ x

private theorem AsDouble.boxF64 {v : Value} {d : F64} (as_double : AsDouble v d) :
    boxF64 v = .ok d := by
  cases as_double with
  | double rep _ =>
      simp [Expr.boxF64, toDouble, castValue, valueIsNull, rep, kCastTable, kDouble, castTier,
        CastMode.tier, restamp, bind, Except.bind]
  | float rep _ =>
      simp [Expr.boxF64, toDouble, castValue, valueIsNull, rep, kCastTable, kDouble, castTier,
        CastMode.tier, f32ToF64, Storage.getF32, doubleVal, bind, Except.bind, pure, Except.pure]
  | dec rep converted =>
      simp [Expr.boxF64, toDouble, castValue, valueIsNull, rep, kCastTable, kDouble, castTier,
        CastMode.tier, decToF64, Storage.getDec, converted, doubleVal, bind, Except.bind, pure,
        Except.pure]

private theorem AsDouble.not_nan {v : Value} {d : F64} (as_double : AsDouble v d) :
    d.isNaN = false := by
  cases as_double with
  | double _ finite => exact Flt.isFinite_not_isNaN finite
  | float _ finite => exact Flt.isFinite_not_isNaN (widenF64_isFinite finite)
  | dec _ converted => exact Flt.isFinite_not_isNaN (parseF64_isFinite converted)

/-- Comparisons in which a float or double takes part compare doubles. -/
private theorem numCmp_asDouble {a b : Value} {x y : F64} (a_double : AsDouble a x)
    (b_double : AsDouble b y) (not_dec : ¬(a.box.rep = .dec ∧ b.box.rep = .dec)) :
    numCmp a b = .ok (keyCmp (doubleKey x) (doubleKey y)) := by
  have mixed : numCmp a b = (do
      let l ← Expr.boxF64 a
      let r ← Expr.boxF64 b
      pure (f64Cmp l r)) := by
    cases a_double <;> cases b_double <;> first | rfl | exact absurd ⟨rfl, rfl⟩ not_dec
  rw [mixed, a_double.boxF64, b_double.boxF64]
  simp [bind, Except.bind, pure, Except.pure,
    f64Cmp_eq_keyCmp a_double.not_nan b_double.not_nan]

private theorem family_num {t : TypeAttr} (mem : t ∈ kTypeAttrs)
    (rep : t.rep = .int64 ∨ t.rep = .double ∨ t.rep = .float ∨ t.rep = .dec) :
    t.family = .num := by
  revert rep
  revert t
  decide

private theorem family_bool {t : TypeAttr} (mem : t ∈ kTypeAttrs) (rep : t.rep = .bool) :
    t.family = .bool := by
  revert rep
  revert t
  decide

private theorem int64_lt_iff_rank (l r : Int64) :
    (⟨l.toUInt64 ^^^ signFlip, false⟩ : IndexKey) < ⟨r.toUInt64 ^^^ signFlip, false⟩ ↔
      l < r := by
  rw [IndexKey.lt_iff_rank, Int64.lt_iff_toInt_lt]
  have l_rank := rank_int64 l
  have r_rank := rank_int64 r
  omega

/-- Both orders of comparing a column value with a constant are the key
comparison of the two. -/
theorem valueCmp_eq_keyCmp {col : ColumnSpec} {v c : Value} {kv k : IndexKey}
    (v_col : v.OfType col.type) (v_val : v.box ≠ .null) (c_valid : c.Valid)
    (v_key : encodeKey col.type v = .ok kv) (c_key : keyOf col c kDouble = .ok (some k)) :
    valueCmp v c = .ok (keyCmp kv k) ∧ valueCmp c v = .ok (keyCmp k kv) := by
  have v_type : v.type = col.type := v_col.2.resolve_left v_val
  obtain ⟨v_mem, v_rep, v_fin⟩ := v_col.1.resolve_left v_val
  have c_val : c.box ≠ .null := by
    intro is_null
    simp [keyOf, is_null] at c_key
  obtain ⟨c_mem, c_rep, c_fin⟩ := c_valid.resolve_left c_val
  rw [v_type] at v_mem v_rep
  rcases v with ⟨vt, vbox⟩
  rcases c with ⟨ct, cbox⟩
  simp only at v_type v_rep v_fin c_mem c_rep c_fin c_val v_val
  subst v_type
  -- a comparison in the numeric family that goes through doubles
  have by_double : ∀ {x y : F64}, AsDouble ⟨col.type, vbox⟩ x → AsDouble ⟨ct, cbox⟩ y →
      ¬(vbox.rep = .dec) → kv = doubleKey x → k = doubleKey y →
      col.type.family = .num → ct.family = .num →
      valueCmp ⟨col.type, vbox⟩ ⟨ct, cbox⟩ = .ok (keyCmp kv k) ∧
        valueCmp ⟨ct, cbox⟩ ⟨col.type, vbox⟩ = .ok (keyCmp k kv) := by
    intro x y v_double c_double not_dec kv_eq k_eq v_num c_num
    have v_not_null : valueIsNull ⟨col.type, vbox⟩ = false := by
      rw [Bool.eq_false_iff, ne_eq, valueIsNull_iff]; exact v_val
    have c_not_null : valueIsNull ⟨ct, cbox⟩ = false := by
      rw [Bool.eq_false_iff, ne_eq, valueIsNull_iff]; exact c_val
    subst kv_eq k_eq
    constructor
    · simp only [valueCmp, v_not_null, c_not_null, v_num, c_num, Bool.or_self,
        Bool.false_eq_true, if_false, if_true]
      exact numCmp_asDouble v_double c_double fun both => not_dec both.1
    · simp only [valueCmp, v_not_null, c_not_null, v_num, c_num, Bool.or_self,
        Bool.false_eq_true, if_false, if_true]
      exact numCmp_asDouble c_double v_double fun both => not_dec both.2
  cases vbox with
  | null => exact absurd rfl v_val
  | str s => simp [encodeKey, v_rep, Box.rep, dbRaise] at v_key
  | dec d => simp [encodeKey, v_rep, Box.rep, dbRaise] at v_key
  | bool b =>
      have col_bool := family_bool v_mem v_rep
      simp only [Box.rep] at v_rep
      cases cbox with
      | bool b' =>
          simp only [Box.rep] at c_rep
          have c_bool := family_bool c_mem c_rep
          simp only [encodeKey, keyOf, v_rep] at v_key c_key
          simp only [reduceCtorEq, if_false, if_true, Except.ok.injEq, ne_eq,
            not_true_eq_false, Functor.map, Except.map, Option.some.injEq] at v_key c_key
          subst v_key c_key
          cases b <;> cases b' <;>
            simp [valueCmp, valueIsNull, col_bool, c_bool] <;> decide
      | _ => simp [keyOf, v_rep] at c_key
  | int64 i =>
      have col_num := family_num v_mem (Or.inl v_rep)
      simp only [Box.rep] at v_rep
      cases cbox with
      | int64 j =>
          have c_num := family_num c_mem (Or.inl c_rep)
          simp only [encodeKey, keyOf, v_rep] at v_key c_key
          simp only [reduceCtorEq, if_false, if_true, Except.ok.injEq, ne_eq,
            not_true_eq_false, Functor.map, Except.map, Option.some.injEq] at v_key c_key
          subst v_key c_key
          simp only [valueCmp, valueIsNull, col_num, c_num, Bool.or_self, Bool.false_eq_true,
            if_false, if_true, numCmp, keyCmp_eq, int64_lt_iff_rank, and_self]
      | _ => simp [keyOf, v_rep] at c_key
  | double d =>
      have col_num := family_num v_mem (Or.inr (Or.inl v_rep))
      simp only [Box.rep] at v_rep
      have kv_eq : kv = doubleKey d := by
        simpa [encodeKey, v_rep, eq_comm] using v_key
      have v_double : AsDouble ⟨col.type, .double d⟩ d := .double v_rep v_fin
      cases cbox with
      | double e =>
          have k_eq : k = doubleKey e := by
            simpa [keyOf, encodeKey, v_rep, kDouble, Functor.map, Except.map, eq_comm]
              using c_key
          exact by_double v_double (.double c_rep c_fin) (by simp [Box.rep]) kv_eq k_eq
            col_num (family_num c_mem (Or.inr (Or.inl c_rep)))
      | dec e =>
          simp only [Box.rep] at c_rep
          cases converted : decToF64Raw e with
          | error err =>
              simp [keyOf, v_rep, castValue, valueIsNull, c_rep, kCastTable, kDouble, castTier,
                CastMode.tier, decToF64, Storage.getDec, converted, bind, Except.bind] at c_key
          | ok x =>
              have k_eq : k = doubleKey x := by
                simpa [keyOf, v_rep, castValue, valueIsNull, c_rep, kCastTable, kDouble, castTier,
                  CastMode.tier, decToF64, Storage.getDec, converted, doubleVal, encodeKey, bind,
                  Except.bind, pure, Except.pure, Functor.map, Except.map, eq_comm] using c_key
              exact by_double v_double (.dec c_rep converted) (by simp [Box.rep]) kv_eq k_eq
                col_num (family_num c_mem (Or.inr (Or.inr (Or.inr c_rep))))
      | _ => simp [keyOf, v_rep] at c_key
  | float x =>
      have col_num := family_num v_mem (Or.inr (Or.inr (Or.inl v_rep)))
      simp only [Box.rep] at v_rep
      have kv_eq : kv = doubleKey (widenF64 x) := by
        simpa [encodeKey, v_rep, widenF64, eq_comm] using v_key
      have v_double : AsDouble ⟨col.type, .float x⟩ (widenF64 x) := .float v_rep v_fin
      cases cbox with
      | double e =>
          have k_eq : k = doubleKey e := by
            simpa [keyOf, encodeKey, v_rep, kDouble, Functor.map, Except.map, eq_comm]
              using c_key
          exact by_double v_double (.double c_rep c_fin) (by simp [Box.rep]) kv_eq k_eq
            col_num (family_num c_mem (Or.inr (Or.inl c_rep)))
      | float e =>
          have k_eq : k = doubleKey (widenF64 e) := by
            simpa [keyOf, encodeKey, v_rep, widenF64, Functor.map, Except.map, eq_comm]
              using c_key
          exact by_double v_double (.float c_rep c_fin) (by simp [Box.rep]) kv_eq k_eq
            col_num (family_num c_mem (Or.inr (Or.inr (Or.inl c_rep))))
      | dec e =>
          simp only [Box.rep] at c_rep
          cases converted : decToF64Raw e with
          | error err =>
              simp [keyOf, v_rep, castValue, valueIsNull, c_rep, kCastTable, kDouble, castTier,
                CastMode.tier, decToF64, Storage.getDec, converted, bind, Except.bind] at c_key
          | ok y =>
              have k_eq : k = doubleKey y := by
                simpa [keyOf, v_rep, castValue, valueIsNull, c_rep, kCastTable, kDouble, castTier,
                  CastMode.tier, decToF64, Storage.getDec, converted, doubleVal, encodeKey, bind,
                  Except.bind, pure, Except.pure, Functor.map, Except.map, eq_comm] using c_key
              exact by_double v_double (.dec c_rep converted) (by simp [Box.rep]) kv_eq k_eq
                col_num (family_num c_mem (Or.inr (Or.inr (Or.inr c_rep))))
      | _ => simp [keyOf, v_rep] at c_key

/-! ## One conjunct -/

private theorem indexable_rep {t : TypeAttr} (indexable : Indexable t) :
    t.rep ≠ .dec ∧ t.rep ≠ .str := by
  have each : ∀ t ∈ [kInt, kBigint, kFloat, kDouble, kBool], t.rep ≠ .dec ∧ t.rep ≠ .str := by
    decide
  exact each t indexable

/-- Every value of an indexable column has a key. -/
theorem encodeKey_ofType {t : TypeAttr} {v : Value} (indexable : Indexable t)
    (v_col : v.OfType t) : ∃ key, encodeKey t v = .ok key ∧ key.null = valueIsNull v := by
  rcases v with ⟨vt, vbox⟩
  rcases v_col with ⟨valid, null | rfl⟩
  · simp only at null
    subst null
    exact ⟨kNullKey, rfl, rfl⟩
  rcases valid with null | ⟨-, rep, -⟩
  · simp only at null
    subst null
    exact ⟨kNullKey, rfl, rfl⟩
  have not_dec : vt.rep ≠ .dec := indexable_rep indexable |>.1
  have not_str : vt.rep ≠ .str := indexable_rep indexable |>.2
  cases vbox <;> simp only [Box.rep] at rep <;>
    first
    | exact absurd rep not_str
    | exact absurd rep not_dec
    | exact ⟨_, by simp [encodeKey, rep]; rfl, rfl⟩

/-- The constants of a comparison are well-formed values. -/
def ConstsValid : BoundExpr → Prop
  | .cmp _ left right =>
      (∀ c, left = .const c → c.Valid) ∧ (∀ c, right = .const c → c.Valid)
  | _ => True

private theorem evalBound_isCol {e : BoundExpr} {ordinal : Nat} {row : Row} {v : Value}
    (is_col : isCol e ordinal = true) (found : row.values[ordinal]? = some v) :
    evalBound e (some row) = .ok v := by
  cases e <;> simp [isCol] at is_col
  subst is_col
  simp [evalBound, found]

theorem cmpHolds_mirror (op : CmpOp) (a b : IndexKey) :
    cmpHolds (mirror op) (keyCmp a b) = cmpHolds op (keyCmp b a) := by
  rw [keyCmp_eq, keyCmp_eq]
  rcases lt_trichotomy a b with lt | rfl | gt
  · cases op <;> simp [cmpHolds, mirror, lt, not_lt_of_gt lt]
  · cases op <;> simp [cmpHolds, mirror]
  · cases op <;> simp [cmpHolds, mirror, gt, not_lt_of_gt gt]

private theorem keyOf_val {col : ColumnSpec} {c : Value} {k : IndexKey} (valid : c.Valid)
    (c_key : keyOf col c kDouble = .ok (some k)) : c.box ≠ .null ∧ k.null = false := by
  have mapped : ∀ {t : TypeAttr} {v : Value}, v.box ≠ .null →
      some <$> encodeKey t v = .ok (some k) → k.null = false := by
    intro t v v_val found
    cases encoded : encodeKey t v with
    | error _ => simp [encoded, Functor.map, Except.map] at found
    | ok key =>
        simp only [encoded, Functor.map, Except.map, Except.ok.injEq, Option.some.injEq] at found
        subst found
        rw [encodeKey_null encoded, Bool.eq_false_iff, ne_eq, valueIsNull_iff]
        exact v_val
  rcases c with ⟨ct, box⟩
  cases box with
  | null => simp [keyOf] at c_key
  | str s => simp [keyOf] at c_key
  | dec d =>
      have rep : ct.rep = .dec := (valid.resolve_left (by simp)).2.1
      simp only [keyOf, castValue_dec rep] at c_key
      split at c_key
      · cases c_key
      · cases converted : decToF64Raw d with
        | error _ => simp [converted, Except.map, bind, Except.bind] at c_key
        | ok x =>
            simp only [converted, Except.map, bind, Except.bind] at c_key
            exact ⟨by simp, mapped (by simp [doubleVal]) c_key⟩
  | _ =>
      refine ⟨by simp, ?_⟩
      simp only [keyOf] at c_key
      split at c_key
      · cases c_key
      · exact mapped (by simp) c_key

/-- A column value compared with a constant, in either order of operands. -/
private theorem cmpValue_exact {col : ColumnSpec} {op : CmpOp} {v c : Value} {key k : IndexKey}
    (v_col : v.OfType col.type) (v_key : encodeKey col.type v = .ok key)
    (c_valid : c.Valid) (c_key : keyOf col c kDouble = .ok (some k)) :
    ((∃ r ∈ cmpRanges op k, r.Mem key) ↔ cmpValue op v c = .ok (boolVal kBool true)) ∧
      ((∃ r ∈ cmpRanges (mirror op) k, r.Mem key) ↔
        cmpValue op c v = .ok (boolVal kBool true)) := by
  obtain ⟨c_val, k_val⟩ := keyOf_val c_valid c_key
  have c_not_null : valueIsNull c = false := by
    rw [Bool.eq_false_iff, ne_eq, valueIsNull_iff]; exact c_val
  rw [mem_cmpRanges op k_val, mem_cmpRanges (mirror op) k_val, encodeKey_null v_key,
    cmpHolds_mirror]
  cases v_null : valueIsNull v with
  | true => simp [cmpValue, v_null, c_not_null, nullVal, boolVal]
  | false =>
      have v_val : v.box ≠ .null := by
        rw [ne_eq, ← valueIsNull_iff, v_null]; simp
      obtain ⟨cmp_vc, cmp_cv⟩ := valueCmp_eq_keyCmp v_col v_val c_valid v_key c_key
      simp [cmpValue, v_null, c_not_null, cmp_vc, cmp_cv, boolVal, bind, Except.bind, pure,
        Except.pure]

private theorem colVersusConst_exact {col : ColumnSpec} {ordinal : Nat} {op op' : CmpOp}
    {left right : BoundExpr} {c : Value} {k : IndexKey} {row : Row} {v : Value} {key : IndexKey}
    (consts : ConstsValid (.cmp op left right))
    (shape : colVersusConst op left right ordinal = some (op', c))
    (c_key : keyOf col c kDouble = .ok (some k)) (found : row.values[ordinal]? = some v)
    (v_col : v.OfType col.type) (v_key : encodeKey col.type v = .ok key) :
    (∃ r ∈ cmpRanges op' k, r.Mem key) ↔
      evalRow (.cmp op left right) row = .ok (boolVal kBool true) := by
  simp only [colVersusConst] at shape
  split at shape
  · cases shape
  · split at shape
    · rename_i _ left_col
      cases right <;> simp only [reduceCtorEq, Option.some.injEq, Prod.mk.injEq] at shape
      obtain ⟨rfl, rfl⟩ := shape
      have c_valid := consts.2 _ rfl
      rw [(cmpValue_exact v_col v_key c_valid c_key).1]
      simp [evalRow, evalBound, evalBound_isCol left_col found, constValue_valid c_valid, bind,
        Except.bind]
    · rename_i not_both left_other
      have right_col : isCol right ordinal = true := by
        simpa [left_other] using not_both
      cases left <;> simp only [reduceCtorEq, Option.some.injEq, Prod.mk.injEq] at shape
      obtain ⟨rfl, rfl⟩ := shape
      have c_valid := consts.1 _ rfl
      rw [(cmpValue_exact v_col v_key c_valid c_key).2]
      simp [evalRow, evalBound, evalBound_isCol right_col found, constValue_valid c_valid, bind,
        Except.bind]

private theorem mem_isNullRanges {key : IndexKey} {v : Value} {t : TypeAttr}
    (v_key : encodeKey t v = .ok key) (negate : Bool) :
    (∃ r ∈ (if negate then [⟨none, some ⟨kNullKey, false⟩⟩]
        else [⟨some ⟨kNullKey, true⟩, some ⟨kNullKey, true⟩⟩] : List IndexRange), r.Mem key) ↔
      isNullValue negate v = boolVal kBool true := by
  have key_null := encodeKey_null v_key
  cases v_null : valueIsNull v with
  | true =>
      have null_key : key = kNullKey := by
        rw [valueIsNull_iff] at v_null
        simpa [encodeKey, v_null, kNullKey, eq_comm] using v_key
      cases negate <;> simp [null_key, KeyInterval.Mem, KeyInterval.Above, KeyInterval.Below, isNullValue,
        v_null, boolVal]
  | false =>
      have below : key < kNullKey := IndexKey.lt_null (key_null.trans v_null) 0
      cases negate <;> simp [KeyInterval.Mem, KeyInterval.Above, KeyInterval.Below, isNullValue, v_null,
        boolVal, below, not_lt_of_gt below, (ne_of_lt below).symm]

/-- The ranges of a matched conjunct hold exactly the keys of the column values on which the conjunct is true. -/
theorem matchHit_exact {col : ColumnSpec} {ordinal conj : Nat} {e : BoundExpr} {h : Hit}
    {row : Row} {v : Value} {key : IndexKey}
    (consts : ConstsValid e) (accepted : matchHit e col ordinal conj kDouble = .ok (some h))
    (found : row.values[ordinal]? = some v) (v_col : v.OfType col.type)
    (v_key : encodeKey col.type v = .ok key) :
    (∃ r ∈ h.ranges, r.Mem key) ↔ evalRow e row = .ok (boolVal kBool true) := by
  cases e with
  | cmp op left right =>
      simp only [matchHit] at accepted
      cases shape : colVersusConst op left right ordinal with
      | none => simp [shape] at accepted
      | some side =>
          obtain ⟨op', c⟩ := side
          cases c_key : keyOf col c kDouble with
          | error _ => simp [shape, c_key, bind, Except.bind] at accepted
          | ok k? =>
              cases k? with
              | none => simp [shape, c_key, bind, Except.bind, pure, Except.pure] at accepted
              | some k =>
                  simp only [shape, c_key, bind, Except.bind, pure, Except.pure,
                    Except.ok.injEq, Option.some.injEq] at accepted
                  subst accepted
                  exact colVersusConst_exact consts shape c_key found v_col v_key
  | isNull operand negate =>
      simp only [matchHit] at accepted
      split at accepted
      · rename_i is_col
        simp only [Except.ok.injEq, Option.some.injEq] at accepted
        subst accepted
        rw [mem_isNullRanges v_key negate]
        simp [evalRow, evalBound, evalBound_isCol is_col found, bind, Except.bind, pure,
          Except.pure]
      · cases accepted
  | _ => simp [matchHit] at accepted

theorem matchHit_pairwise {col : ColumnSpec} {ordinal conj : Nat} {e : BoundExpr} {h : Hit}
    (accepted : matchHit e col ordinal conj kDouble = .ok (some h)) :
    h.ranges.Pairwise KeyInterval.Before := by
  cases e with
  | cmp op left right =>
      simp only [matchHit] at accepted
      cases shape : colVersusConst op left right ordinal with
      | none => simp [shape] at accepted
      | some side =>
          cases c_key : keyOf col side.2 kDouble with
          | error _ => simp [shape, c_key, bind, Except.bind] at accepted
          | ok k? =>
              cases k? with
              | none => simp [shape, c_key, bind, Except.bind, pure, Except.pure] at accepted
              | some k =>
                  simp only [shape, c_key, bind, Except.bind, pure, Except.pure,
                    Except.ok.injEq, Option.some.injEq] at accepted
                  subst accepted
                  exact cmpRanges_pairwise _ _
  | isNull operand negate =>
      simp only [matchHit] at accepted
      split at accepted
      · simp only [Except.ok.injEq, Option.some.injEq] at accepted
        subst accepted
        cases negate <;> simp
      · cases accepted
  | _ => simp [matchHit] at accepted

/-! ## All conjuncts -/

/-- The conjuncts accepted for a column, each with its hit. -/
def Accepted (col : ColumnSpec) (ordinal : Nat) (conjs : List BoundExpr) (hits : List Hit) : Prop :=
  List.Forall₂ (fun e h => ∃ conj, matchHit e col ordinal conj kDouble = .ok (some h)) conjs hits

private theorem intersectRanges_go_eq (ranges : List IndexRange) (hits : List Hit) :
    intersectRanges.go ranges hits =
      hits.foldl (fun ranges h => KeyInterval.meetAll ranges h.ranges) ranges := by
  induction hits generalizing ranges with
  | nil => rfl
  | cons h hits ih =>
      simp only [intersectRanges.go, List.foldl_cons, rangesMeet_eq]
      split
      · rename_i none_left
        rw [List.isEmpty_iff.mp none_left]
        exact (List.foldl_fixed' (fun _ => rfl) hits).symm
      · exact ih _

/-- Intersecting the ranges of further accepted conjuncts: the list stays in
order and uncrossed, and membership asks for one more conjunct each time. -/
private theorem foldl_meetAll_exact {col : ColumnSpec} {ordinal : Nat} {conjs : List BoundExpr}
    {hits : List Hit} (accepted : Accepted col ordinal conjs hits)
    (consts : ∀ e ∈ conjs, ConstsValid e) (ranges : List IndexRange)
    (sorted : ranges.Pairwise KeyInterval.Before) (uncrossed : ∀ r ∈ ranges, ¬r.Crossed) :
    let out := hits.foldl (fun ranges h => KeyInterval.meetAll ranges h.ranges) ranges
    out.Pairwise KeyInterval.Before ∧ (∀ r ∈ out, ¬r.Crossed) ∧
      ∀ (row : Row) (v : Value) (key : IndexKey), row.values[ordinal]? = some v →
        v.OfType col.type → encodeKey col.type v = .ok key →
        ((∃ r ∈ out, r.Mem key) ↔
          (∃ r ∈ ranges, r.Mem key) ∧ ∀ e ∈ conjs, evalRow e row = .ok (boolVal kBool true)) := by
  induction accepted generalizing ranges with
  | nil => simpa using ⟨sorted, uncrossed⟩
  | @cons e h conjs hits hit _ ih =>
      obtain ⟨conj, hit⟩ := hit
      obtain ⟨out_sorted, out_uncrossed, out_mem⟩ := ih
        (fun e' e_mem => consts e' (List.mem_cons_of_mem _ e_mem))
        (KeyInterval.meetAll ranges h.ranges)
        (KeyInterval.pairwise_meetAll sorted (matchHit_pairwise hit))
        (fun r r_mem => KeyInterval.not_crossed_of_mem_meetAll r_mem)
      refine ⟨out_sorted, out_uncrossed, fun row v key found v_col v_key => ?_⟩
      have e_exact := matchHit_exact (consts e List.mem_cons_self) hit found v_col v_key
      rw [List.foldl_cons, out_mem row v key found v_col v_key, KeyInterval.exists_mem_meetAll,
        e_exact, List.forall_mem_cons, and_assoc]

/-- The ranges kept for the accepted conjuncts of an indexable column follow one
another in key order, none is crossed, and a column value has its key in one of
them exactly when every conjunct is true on it. -/
theorem intersectRanges_exact {col : ColumnSpec} {ordinal : Nat} {conjs : List BoundExpr}
    {hits : List Hit} (indexable : Indexable col.type)
    (accepted : Accepted col ordinal conjs hits) (consts : ∀ e ∈ conjs, ConstsValid e) :
    (intersectRanges hits).Pairwise KeyInterval.Before ∧
      (∀ r ∈ intersectRanges hits, ¬r.Crossed) ∧
      ∀ (row : Row) (v : Value), row.values[ordinal]? = some v → v.OfType col.type →
        ∃ key, encodeKey col.type v = .ok key ∧
          ((∃ r ∈ intersectRanges hits, r.Mem key) ↔
            ∀ e ∈ conjs, evalRow e row = .ok (boolVal kBool true)) := by
  obtain ⟨sorted, uncrossed, mem⟩ := foldl_meetAll_exact accepted consts [{}] (by simp)
    (by simp [KeyInterval.Crossed])
  simp only [intersectRanges, intersectRanges_go_eq]
  refine ⟨sorted, uncrossed, fun row v found v_col => ?_⟩
  obtain ⟨key, v_key, -⟩ := encodeKey_ofType indexable v_col
  refine ⟨key, v_key, (mem row v key found v_col v_key).trans ?_⟩
  simp [KeyInterval.Mem]

/-- `a <> 5 AND 5 <= a` on an int column: the key of 7 is in a range, that of 5
and that of NULL are not. -/
theorem intersectRanges_exact_int :
    let col : ColumnSpec := { name := "a", type := kInt }
    let k : IndexKey := ⟨(5 : Int64).toUInt64 ^^^ signFlip, false⟩
    let hits : List Hit :=
      [⟨0, false, cmpRanges .ne k, { col := "a", op := .ne, value := intVal kInt 5 }⟩,
       ⟨1, false, cmpRanges .ge k, { col := "a", op := .ge, value := intVal kInt 5 }⟩]
    (intersectRanges hits).Pairwise KeyInterval.Before ∧ (∀ r ∈ intersectRanges hits, ¬r.Crossed) ∧
      ∀ v ∈ [intVal kInt 5, intVal kInt 7, nullVal],
        ∃ key, encodeKey col.type v = .ok key ∧
          ((∃ r ∈ intersectRanges hits, r.Mem key) ↔ v = intVal kInt 7) := by
  intro col k hits
  let ne5 : BoundExpr := .cmp .ne (.colRef 0 kInt) (.const (intVal kInt 5))
  let ge5 : BoundExpr := .cmp .le (.const (intVal kInt 5)) (.colRef 0 kInt)
  have accepted : Accepted col 0 [ne5, ge5] hits :=
    .cons ⟨0, rfl⟩ (.cons ⟨1, rfl⟩ .nil)
  have int_valid (i : Int64) : (intVal kInt i).Valid :=
    Or.inr ⟨List.mem_cons_self, rfl, trivial⟩
  have consts : ∀ e ∈ [ne5, ge5], ConstsValid e := by
    simp [ne5, ge5, ConstsValid, int_valid]
  obtain ⟨sorted, uncrossed, mem⟩ :=
    intersectRanges_exact List.mem_cons_self accepted consts
  refine ⟨sorted, uncrossed, fun v v_mem => ?_⟩
  have v_col : v.OfType kInt := by
    simp only [List.mem_cons, List.not_mem_nil, or_false] at v_mem
    rcases v_mem with rfl | rfl | rfl
    · exact ⟨int_valid 5, Or.inr rfl⟩
    · exact ⟨int_valid 7, Or.inr rfl⟩
    · exact ⟨Or.inl rfl, Or.inl rfl⟩
  obtain ⟨key, v_key, key_mem⟩ := mem { values := [v] } v rfl v_col
  refine ⟨key, v_key, key_mem.trans ?_⟩
  simp only [List.mem_cons, List.not_mem_nil, or_false] at v_mem
  rcases v_mem with rfl | rfl | rfl
  · decide
  · decide
  · decide

end MySimpleDb.Planner
