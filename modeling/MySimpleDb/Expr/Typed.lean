import MySimpleDb.Analyzer.Bind
import MySimpleDb.Expr.Eval
import MySimpleDb.Storage.CastTyped

/-!
# Evaluation gives values of the static type

The static typing of bound trees, and its preservation: a tree that evaluates
on a row of the column types gives NULL or a finite value tagged with the
tree's type.  The tag is what lets a rewrite replace a node by its operand.
-/

namespace MySimpleDb.Expr

open MySimpleDb.Lib MySimpleDb.Storage MySimpleDb.Analyzer

/-! ## Static typing -/

/-- A built-in type, or the untyped attribute. -/
def SeedType (t : TypeAttr) : Prop :=
  t = {} ∨ t ∈ kTypeAttrs

mutual
/-- A bound tree with its static type.  The untyped attribute is the type of
trees that can only be NULL; a NULL constant may stand for any type. -/
def Typed (cols : List TypeAttr) : BoundExpr → TypeAttr → Prop
  | .const v, t => v.OfType t ∧ SeedType t
  | .colRef i type, t => type = t ∧ cols[i]? = some t ∧ t ∈ kTypeAttrs
  | .arith _ left right type, t =>
      type = t ∧ ∃ lt rt, Typed cols left lt ∧ Typed cols right rt ∧
        numOrUntyped lt = true ∧ numOrUntyped rt = true ∧ arithType lt rt = .ok t
  | .neg operand type, t => type = t ∧ numOrUntyped t = true ∧ Typed cols operand t
  | .cmp _ left right, t => t = kBool ∧ (∃ lt, Typed cols left lt) ∧ ∃ rt, Typed cols right rt
  | .logic _ left right, t =>
      t = kBool ∧ (∃ lt, Typed cols left lt ∧ boolOrUntyped lt = true) ∧
        ∃ rt, Typed cols right rt ∧ boolOrUntyped rt = true
  | .not operand, t => t = kBool ∧ ∃ u, Typed cols operand u ∧ boolOrUntyped u = true
  | .isNull operand _, t => t = kBool ∧ ∃ u, Typed cols operand u
  | .funcCall func name strictNull args type, t =>
      type = t ∧ (∃ row ∈ kFuncRows, row.id = func ∧ row.name = name ∧
        row.strictNull = strictNull ∧ row.ret = t ∧ TypedArgs cols args row.args)
  | .cast operand type _ _, t => type = t ∧ t ∈ kTypeAttrs ∧ ∃ u, Typed cols operand u

def TypedArgs (cols : List TypeAttr) : List BoundExpr → List TypeAttr → Prop
  | [], ts => ts = []
  | a :: args, ts => ∃ t rest, ts = t :: rest ∧ Typed cols a t ∧ TypedArgs cols args rest
end

/-- A row whose values are of the column types. -/
def RowOf (cols : List TypeAttr) (row : Row) : Prop :=
  ∀ (i : Nat) (t : TypeAttr), cols[i]? = some t → ∃ v, row.values[i]? = some v ∧ v.OfType t

/-- The rows a tree is evaluated on: one of the column types, or none. -/
def RowsOf (cols : List TypeAttr) (row : Option Row) : Prop :=
  ∀ r ∈ row, RowOf cols r

theorem some_rowsOf {cols : List TypeAttr} {row : Row} (row_of : RowOf cols row) :
    RowsOf cols (some row) := by
  rintro r ⟨⟩
  exact row_of

/-! ## Built-in functions -/

/-- A function whose result is a finite box of one representation, under the
declared result type. -/
def FuncEval.Gives (fn : FuncEval) (rep : Rep) : Prop :=
  ∀ (args : List Value) (ret : TypeAttr) (w : Value), (∀ a ∈ args, a.box.Finite) →
    fn args ret = .ok w → w.type = ret ∧ w.box.rep = rep ∧ w.box.Finite

private theorem argAt_finite {args : List Value} {i : Nat} {v : Value}
    (finite : ∀ a ∈ args, a.box.Finite) (found : argAt args i = .ok v) : v.box.Finite := by
  unfold argAt at found
  split at found
  · rename_i at_i
    cases found
    exact finite _ (List.mem_of_getElem? at_i)
  · cases found

private theorem evalDouble_gives {f : F64 → F64}
    (keeps : ∀ x : F64, x.isFinite = true → (f x).isFinite = true) :
    FuncEval.Gives (evalDouble f) .double := by
  intro args ret w finite done
  simp only [evalDouble, Res.bind_eq_ok, Res.pure_eq_ok] at done
  obtain ⟨v, at_0, x, found, rfl⟩ := done
  have v_finite := argAt_finite finite at_0
  rw [Expr.getF64_eq_ok.mp found] at v_finite
  exact ⟨rfl, rfl, keeps x v_finite⟩

private theorem evalFloat_gives {f : F32 → F32}
    (keeps : ∀ x : F32, x.isFinite = true → (f x).isFinite = true) :
    FuncEval.Gives (evalFloat f) .float := by
  intro args ret w finite done
  simp only [evalFloat, Res.bind_eq_ok, Res.pure_eq_ok] at done
  obtain ⟨v, at_0, x, found, rfl⟩ := done
  have v_finite := argAt_finite finite at_0
  rw [Expr.getF32_eq_ok.mp found] at v_finite
  exact ⟨rfl, rfl, keeps x v_finite⟩

private theorem evalInteger_gives : FuncEval.Gives evalInteger .int64 := by
  intro args ret w _ done
  simp only [evalInteger, Res.bind_eq_ok, Res.pure_eq_ok] at done
  obtain ⟨v, -, i, -, rfl⟩ := done
  exact ⟨rfl, rfl, trivial⟩

private theorem evalAbsInteger_gives (low : Int) :
    FuncEval.Gives (evalAbsInteger low) .int64 := by
  intro args ret w _ done
  simp only [evalAbsInteger, Res.bind_eq_ok] at done
  obtain ⟨v, -, i, -, done⟩ := done
  split at done
  · exact absurd done dbRaise_bind_ne_ok
  · cases done
    exact ⟨rfl, rfl, trivial⟩

private theorem evalModInteger_gives : FuncEval.Gives evalModInteger .int64 := by
  intro args ret w _ done
  simp only [evalModInteger, Res.bind_eq_ok] at done
  obtain ⟨v, -, l, -, u, -, r, -, done⟩ := done
  split at done
  · exact absurd done dbRaise_bind_ne_ok
  · split at done <;> cases done <;> exact ⟨rfl, rfl, trivial⟩

private theorem evalModDouble_gives : FuncEval.Gives evalModDouble .double := by
  intro args ret w _ done
  simp only [evalModDouble, Res.bind_eq_ok] at done
  obtain ⟨v, -, l, -, u, -, r, -, done⟩ := done
  split at done
  · exact absurd done dbRaise_bind_ne_ok
  · rename_i not_inf
    cases done
    have finite : (Flt.fmod l r).isFinite = true := by simpa using not_inf
    exact ⟨rfl, rfl, finite⟩

private theorem evalModFloat_gives : FuncEval.Gives evalModFloat .float := by
  intro args ret w _ done
  simp only [evalModFloat, Res.bind_eq_ok] at done
  obtain ⟨v, -, l, -, u, -, r, -, done⟩ := done
  split at done
  · exact absurd done dbRaise_bind_ne_ok
  · rename_i not_inf
    cases done
    have finite : (Flt.fmod l r).isFinite = true := by simpa using not_inf
    exact ⟨rfl, rfl, finite⟩

/-- A function whose results are all built by `numericVal`. -/
private theorem gives_numeric {fn : FuncEval}
    (built : ∀ args ret w, fn args ret = .ok w → ∃ u s, w = numericVal ret u s) :
    FuncEval.Gives fn .dec := by
  intro args ret w _ done
  obtain ⟨u, s, rfl⟩ := built args ret w done
  exact ⟨rfl, rfl, trivial⟩

private theorem roundDec_numeric {d : DecimalVal} {n : Int} {ret : TypeAttr} {w : Value}
    (done : roundDec d n ret = .ok w) : ∃ u s, w = numericVal ret u s := by
  unfold roundDec at done
  split at done
  · cases done
    exact ⟨_, _, rfl⟩
  · simp only [Res.bind_eq_ok] at done
    obtain ⟨q, -, done⟩ := done
    split at done
    · exact absurd done dbRaise_bind_ne_ok
    · cases done
      exact ⟨_, _, rfl⟩

private theorem truncDec_numeric {d : DecimalVal} {up : Bool} {ret : TypeAttr} {w : Value}
    (done : truncDec d up ret = .ok w) : ∃ u s, w = numericVal ret u s := by
  unfold truncDec at done
  split at done
  · cases done
    exact ⟨_, _, rfl⟩
  · split at done
    · cases done
      exact ⟨_, _, rfl⟩
    · simp only [Res.bind_eq_ok] at done
      obtain ⟨p, -, done⟩ := done
      cases done
      exact ⟨_, _, rfl⟩

private theorem evalAbsNumeric_gives : FuncEval.Gives evalAbsNumeric .dec := by
  apply gives_numeric
  intro args ret w done
  simp only [evalAbsNumeric, Res.bind_eq_ok, Res.pure_eq_ok] at done
  obtain ⟨v, -, d, -, rfl⟩ := done
  exact ⟨_, _, rfl⟩

private theorem evalRoundNumeric_gives : FuncEval.Gives evalRoundNumeric .dec := by
  apply gives_numeric
  intro args ret w done
  simp only [evalRoundNumeric, Res.bind_eq_ok] at done
  obtain ⟨v, -, d, -, done⟩ := done
  exact roundDec_numeric done

private theorem evalRoundNumericInt_gives : FuncEval.Gives evalRoundNumericInt .dec := by
  apply gives_numeric
  intro args ret w done
  simp only [evalRoundNumericInt, Res.bind_eq_ok] at done
  obtain ⟨v, -, d, -, u, -, i, -, done⟩ := done
  exact roundDec_numeric done

private theorem evalFloorNumeric_gives : FuncEval.Gives evalFloorNumeric .dec := by
  apply gives_numeric
  intro args ret w done
  simp only [evalFloorNumeric, Res.bind_eq_ok] at done
  obtain ⟨v, -, d, -, done⟩ := done
  exact truncDec_numeric done

private theorem evalCeilNumeric_gives : FuncEval.Gives evalCeilNumeric .dec := by
  apply gives_numeric
  intro args ret w done
  simp only [evalCeilNumeric, Res.bind_eq_ok] at done
  obtain ⟨v, -, d, -, done⟩ := done
  exact truncDec_numeric done

private theorem evalModNumeric_gives : FuncEval.Gives evalModNumeric .dec := by
  apply gives_numeric
  intro args ret w done
  simp only [evalModNumeric, Res.bind_eq_ok] at done
  obtain ⟨v, -, l, -, u, -, r, -, done⟩ := done
  split at done
  · exact absurd done dbRaise_bind_ne_ok
  · simp only [Res.bind_eq_ok] at done
    obtain ⟨lu, -, ru, -, done⟩ := done
    cases done
    exact ⟨_, _, rfl⟩

private theorem toIntegral_keeps_f64 {mode : ℚ → Int} (bounded : Flt.Bounded mode) (x : F64)
    (finite : x.isFinite = true) : (Flt.toIntegral mode x).isFinite = true :=
  Flt.toIntegral_isFinite (by norm_num) bounded f64_maxVal finite

private theorem toIntegral_keeps_f32 {mode : ℚ → Int} (bounded : Flt.Bounded mode) (x : F32)
    (finite : x.isFinite = true) : (Flt.toIntegral mode x).isFinite = true :=
  Flt.toIntegral_isFinite (by norm_num) bounded f32_maxVal finite

/-- Every overload gives its declared result type. -/
theorem kFuncRows_gives {row : FuncRow} (mem : row ∈ kFuncRows) :
    ∃ fn, kFuncTable[row.id]? = some (some fn) ∧ FuncEval.Gives fn row.ret.rep := by
  simp only [kFuncRows, List.mem_cons, List.not_mem_nil, or_false] at mem
  rcases mem with rfl | rfl | rfl | rfl | rfl | rfl | rfl | rfl | rfl | rfl | rfl | rfl | rfl |
    rfl | rfl | rfl | rfl | rfl | rfl | rfl | rfl | rfl | rfl | rfl | rfl | rfl <;>
    refine ⟨_, rfl, ?_⟩
  · exact evalAbsInteger_gives _
  · exact evalAbsInteger_gives _
  · exact evalDouble_gives fun _ finite => finite
  · exact evalFloat_gives fun _ finite => finite
  · exact evalAbsNumeric_gives
  · exact evalInteger_gives
  · exact evalInteger_gives
  · exact evalDouble_gives (toIntegral_keeps_f64 Flt.bounded_roundHalfAway)
  · exact evalFloat_gives (toIntegral_keeps_f32 Flt.bounded_roundHalfAway)
  · exact evalRoundNumeric_gives
  · exact evalRoundNumericInt_gives
  · exact evalInteger_gives
  · exact evalInteger_gives
  · exact evalDouble_gives (toIntegral_keeps_f64 Flt.bounded_floor)
  · exact evalFloat_gives (toIntegral_keeps_f32 Flt.bounded_floor)
  · exact evalFloorNumeric_gives
  · exact evalInteger_gives
  · exact evalInteger_gives
  · exact evalDouble_gives (toIntegral_keeps_f64 Flt.bounded_ceil)
  · exact evalFloat_gives (toIntegral_keeps_f32 Flt.bounded_ceil)
  · exact evalCeilNumeric_gives
  · exact evalModInteger_gives
  · exact evalModInteger_gives
  · exact evalModDouble_gives
  · exact evalModFloat_gives
  · exact evalModNumeric_gives

/-! ## Operators -/

/-- A numeric seed type is represented by a numeric box. -/
private theorem num_rep {t : TypeAttr} (mem : t ∈ kTypeAttrs) (num : t.family = .num) :
    t.rep = .int64 ∨ t.rep = .double ∨ t.rep = .float ∨ t.rep = .dec := by
  have each : ∀ t ∈ kTypeAttrs, t.family = .num →
      t.rep = .int64 ∨ t.rep = .double ∨ t.rep = .float ∨ t.rep = .dec := by
    decide
  exact each t mem num

private theorem seed_id_ne_zero {t : TypeAttr} (mem : t ∈ kTypeAttrs) : t.id ≠ 0 := by
  have each : ∀ t ∈ kTypeAttrs, t.id ≠ 0 := by decide
  exact each t mem

/-- A value that is not NULL has a seed type. -/
theorem OfType.mem {v : Value} {t : TypeAttr} (typed : v.OfType t)
    (not_null : valueIsNull v = false) : t ∈ kTypeAttrs ∧ v.type = t := by
  have val : v.box ≠ .null := by
    rw [ne_eq, ← valueIsNull_iff, not_null]
    simp
  have type_eq := typed.2.resolve_left val
  exact ⟨type_eq ▸ (typed.1.resolve_left val).1, type_eq⟩

theorem numOrUntyped_num {v : Value} {t : TypeAttr} (typed : v.OfType t)
    (not_null : valueIsNull v = false) (num : numOrUntyped t = true) :
    t ∈ kTypeAttrs ∧ t.family = .num := by
  have mem := (OfType.mem typed not_null).1
  refine ⟨mem, ?_⟩
  simpa [numOrUntyped, seed_id_ne_zero mem] using num

theorem arithType_num {lt rt t : TypeAttr} (l_mem : lt ∈ kTypeAttrs)
    (l_num : lt.family = .num) (r_mem : rt ∈ kTypeAttrs) (r_num : rt.family = .num)
    (found : arithType lt rt = .ok t) : t ∈ kTypeAttrs ∧ t.family = .num := by
  unfold arithType at found
  split at found
  · have double_eq : requireType "double" = .ok kDouble := rfl
    rw [double_eq] at found
    cases found
    decide
  · split at found
    · cases found
      exact ⟨l_mem, l_num⟩
    · cases found
      exact ⟨r_mem, r_num⟩

theorem arithValue_typed {op : ArithOp} {t : TypeAttr} {lv rv w : Value}
    (domain : valueIsNull lv = false → valueIsNull rv = false →
      t ∈ kTypeAttrs ∧ t.family = .num)
    (done : arithValue op t lv rv = .ok w) : w.OfType t := by
  unfold arithValue at done
  split at done
  · cases done
    exact Value.OfType.null rfl t
  · rename_i both
    simp only [Bool.or_eq_true, not_or, Bool.not_eq_true] at both
    obtain ⟨mem, num⟩ := domain both.1 both.2
    split at done
    · rename_i rep
      simp only [Res.bind_eq_ok, Res.pure_eq_ok] at done
      obtain ⟨l, -, r, -, rs, -, u, -, rfl⟩ := done
      exact Value.OfType.mk mem rep trivial
    · rename_i rep
      simp only [Res.bind_eq_ok] at done
      obtain ⟨l, -, r, -, done⟩ := done
      split at done
      · exact absurd done dbRaise_bind_ne_ok
      · rename_i not_inf
        cases done
        have finite : (fltArith op l r).isFinite = true := by simpa using not_inf
        exact Value.OfType.mk mem rep finite
    · rename_i rep
      simp only [Res.bind_eq_ok] at done
      obtain ⟨l, -, r, -, done⟩ := done
      split at done
      · exact absurd done dbRaise_bind_ne_ok
      · rename_i not_inf
        cases done
        have finite : (fltArith op l r).isFinite = true := by simpa using not_inf
        exact Value.OfType.mk mem rep finite
    · rename_i not_dec not_float not_double
      have rep : t.rep = .int64 := by
        rcases num_rep mem num with int | double | float | dec
        · exact int
        · exact absurd double not_double
        · exact absurd float not_float
        · exact absurd dec not_dec
      simp only [Res.bind_eq_ok] at done
      obtain ⟨l, -, r, -, out, -, done⟩ := done
      split at done
      · exact absurd done dbRaise_bind_ne_ok
      · cases done
        exact Value.OfType.mk mem rep trivial

theorem negValue_typed {t : TypeAttr} {v w : Value} (typed : v.OfType t)
    (num : numOrUntyped t = true) (done : negValue t v = .ok w) : w.OfType t := by
  unfold negValue at done
  split at done
  · cases done
    exact typed
  · rename_i not_null
    rw [Bool.not_eq_true] at not_null
    obtain ⟨mem, num⟩ := numOrUntyped_num typed not_null num
    split at done
    · rename_i rep
      simp only [Res.bind_eq_ok, Res.pure_eq_ok, toFloat] at done
      obtain ⟨x, ⟨u, cast, box_eq⟩, rfl⟩ := done
      have u_finite := (castValue_typed typed.1 mem cast).1.1.finite
      split at box_eq
      · rename_i y y_box
        cases box_eq
        rw [y_box] at u_finite
        exact Value.OfType.mk mem rep u_finite
      · cases box_eq
    · rename_i rep
      simp only [Res.bind_eq_ok, Res.pure_eq_ok, toDouble] at done
      obtain ⟨x, ⟨u, cast, box_eq⟩, rfl⟩ := done
      have u_finite := (castValue_typed typed.1 mem cast).1.1.finite
      split at box_eq
      · rename_i y y_box
        cases box_eq
        rw [y_box] at u_finite
        exact Value.OfType.mk mem rep u_finite
      · cases box_eq
    · rename_i rep
      simp only [Res.bind_eq_ok, Res.pure_eq_ok] at done
      obtain ⟨d, -, rfl⟩ := done
      exact Value.OfType.mk mem rep trivial
    · rename_i not_float not_double not_dec
      have rep : t.rep = .int64 := by
        rcases num_rep mem num with int | double | float | dec
        · exact int
        · exact absurd double not_double
        · exact absurd float not_float
        · exact absurd dec not_dec
      simp only [Res.bind_eq_ok] at done
      obtain ⟨i, -, done⟩ := done
      split at done
      · exact absurd done dbRaise_bind_ne_ok
      · cases done
        exact Value.OfType.mk mem rep trivial

theorem boolVal_typed (b : Bool) : (boolVal kBool b).OfType kBool :=
  Value.OfType.mk (by decide) rfl trivial

theorem cmpValue_typed {op : CmpOp} {lv rv w : Value} (done : cmpValue op lv rv = .ok w) :
    w.OfType kBool := by
  unfold cmpValue at done
  split at done
  · cases done
    exact Value.OfType.null rfl kBool
  · simp only [Res.bind_eq_ok, Res.pure_eq_ok] at done
    obtain ⟨c, -, rfl⟩ := done
    exact boolVal_typed _

theorem logicValue_typed {op : LogicOp} {lv rv w : Value} (done : logicValue op lv rv = .ok w) :
    w.OfType kBool := by
  simp only [logicValue, Res.bind_eq_ok] at done
  obtain ⟨lb, -, rb, -, done⟩ := done
  split at done
  · cases done
    exact boolVal_typed _
  · split at done
    · cases done
      exact Value.OfType.null rfl kBool
    · cases done
      exact boolVal_typed _

theorem notValue_typed {v w : Value} (done : notValue v = .ok w) : w.OfType kBool := by
  simp only [notValue, Res.bind_eq_ok] at done
  obtain ⟨b, operand, done⟩ := done
  split at done
  · cases done
    refine Value.OfType.null ?_ kBool
    cases box : v.box <;> simp [logicOperand, box] at operand
    rfl
  · cases done
    exact boolVal_typed _

theorem castExprValue_typed {t u : TypeAttr} {length scale : Nat} {v w : Value}
    (typed : v.OfType u) (mem : t ∈ kTypeAttrs)
    (done : castExprValue t length scale v = .ok w) : w.OfType t := by
  unfold castExprValue at done
  split at done
  · rename_i null
    cases done
    exact Value.OfType.null (valueIsNull_iff.mp null) t
  · split at done
    · rename_i declared
      simp only [coerceNumeric, Res.bind_eq_ok] at done
      obtain ⟨out, -, d, -, i, -, done⟩ := done
      split at done
      · exact absurd done dbRaise_bind_ne_ok
      · cases done
        exact Value.OfType.mk mem declared.1 trivial
    · simp only [Res.bind_eq_ok, Res.pure_eq_ok] at done
      obtain ⟨out, cast, -, -, rfl⟩ := done
      exact (castValue_typed typed.1 mem cast).1

/-- Typed arguments, each a value of its declared type. -/
private theorem funcValue_typed {row : FuncRow} {argv : List Value} {w : Value}
    (mem : row ∈ kFuncRows) (valid : ∀ a ∈ argv, a.Valid)
    (done : funcValue row.id row.strictNull row.ret argv = .ok w) : w.OfType row.ret := by
  have strict : ∀ row ∈ kFuncRows, row.strictNull = true ∧ row.ret ∈ kTypeAttrs := by decide
  obtain ⟨strict_null, ret_mem⟩ := strict row mem
  simp only [funcValue, strict_null, if_true] at done
  cases found : argv.find? valueIsNull with
  | some v =>
      simp only [found] at done
      cases done
      exact Value.OfType.null (valueIsNull_iff.mp (List.find?_some found)) _
  | none =>
      obtain ⟨fn, slot, gives⟩ := kFuncRows_gives mem
      simp only [found, evalBuiltin, slot] at done
      obtain ⟨type_eq, rep, finite⟩ := gives argv row.ret w
        (fun a a_mem => (valid a a_mem).finite) done
      exact ⟨Or.inr ⟨type_eq ▸ ret_mem, type_eq ▸ rep.symm, finite⟩, Or.inr type_eq⟩

theorem constValue_eq {c v : Value} (done : constValue c = .ok v) : c = v := by
  unfold constValue at done
  split at done
  · split at done
    · exact Except.ok.inj done
    · exact absurd done dbRaise_ne_ok
  · exact Except.ok.inj done

theorem constValue_valid {c : Value} (valid : c.Valid) : constValue c = .ok c := by
  rcases c with ⟨t, box⟩
  rcases valid with null | ⟨-, -, finite⟩
  · simp only at null
    subst null
    simp [constValue]
  · cases box <;> simp_all [constValue, Box.Finite]

/-! ## Trees -/

mutual
/-- Preservation of the static type. -/
theorem evalBound_typed {cols : List TypeAttr} {row : Option Row} (row_of : RowsOf cols row) :
    ∀ {e : BoundExpr} {t : TypeAttr} {v : Value}, Typed cols e t →
      evalBound e row = .ok v → v.OfType t
  | .const c, t, v, typed, done => by
      simp only [Typed] at typed
      simp only [evalBound] at done
      exact constValue_eq done ▸ typed.1
  | .colRef i type, t, v, typed, done => by
      simp only [Typed] at typed
      obtain ⟨-, at_i, -⟩ := typed
      cases row with
      | none => exact absurd done dbRaise_ne_ok
      | some row =>
          obtain ⟨u, found, u_typed⟩ := row_of row rfl i t at_i
          simp only [evalBound, found, Except.ok.injEq] at done
          exact done ▸ u_typed
  | .arith op left right type, t, v, typed, done => by
      simp only [Typed] at typed
      obtain ⟨rfl, lt, rt, l_typed, r_typed, l_num, r_num, found⟩ := typed
      simp only [evalBound, Res.bind_eq_ok] at done
      obtain ⟨lv, l_done, rv, r_done, done⟩ := done
      have l_type := evalBound_typed row_of l_typed l_done
      have r_type := evalBound_typed row_of r_typed r_done
      refine arithValue_typed (fun l_val r_val => ?_) done
      obtain ⟨l_mem, l_fam⟩ := numOrUntyped_num l_type l_val l_num
      obtain ⟨r_mem, r_fam⟩ := numOrUntyped_num r_type r_val r_num
      exact arithType_num l_mem l_fam r_mem r_fam found
  | .neg operand type, t, v, typed, done => by
      simp only [Typed] at typed
      obtain ⟨rfl, num, o_typed⟩ := typed
      simp only [evalBound, Res.bind_eq_ok] at done
      obtain ⟨o, o_done, done⟩ := done
      exact negValue_typed (evalBound_typed row_of o_typed o_done) num done
  | .cmp op left right, t, v, typed, done => by
      simp only [Typed] at typed
      simp only [evalBound, Res.bind_eq_ok] at done
      obtain ⟨lv, -, rv, -, done⟩ := done
      exact typed.1 ▸ cmpValue_typed done
  | .logic op left right, t, v, typed, done => by
      simp only [Typed] at typed
      simp only [evalBound, Res.bind_eq_ok] at done
      obtain ⟨lv, -, rv, -, done⟩ := done
      exact typed.1 ▸ logicValue_typed done
  | .not operand, t, v, typed, done => by
      simp only [Typed] at typed
      simp only [evalBound, Res.bind_eq_ok] at done
      obtain ⟨o, -, done⟩ := done
      exact typed.1 ▸ notValue_typed done
  | .isNull operand negate, t, v, typed, done => by
      simp only [Typed] at typed
      simp only [evalBound, Res.bind_eq_ok, Res.pure_eq_ok] at done
      obtain ⟨o, -, rfl⟩ := done
      exact typed.1 ▸ boolVal_typed _
  | .funcCall func name strictNull args type, t, v, typed, done => by
      simp only [Typed] at typed
      obtain ⟨rfl, frow, mem, rfl, -, rfl, rfl, a_typed⟩ := typed
      simp only [evalBound, Res.bind_eq_ok] at done
      obtain ⟨argv, a_done, done⟩ := done
      exact funcValue_typed mem (evalArgs_valid row_of a_typed a_done) done
  | .cast operand type length scale, t, v, typed, done => by
      simp only [Typed] at typed
      obtain ⟨rfl, mem, u, o_typed⟩ := typed
      simp only [evalBound, Res.bind_eq_ok] at done
      obtain ⟨o, o_done, done⟩ := done
      exact castExprValue_typed (evalBound_typed row_of o_typed o_done) mem done

theorem evalArgs_valid {cols : List TypeAttr} {row : Option Row} (row_of : RowsOf cols row) :
    ∀ {args : List BoundExpr} {ts : List TypeAttr} {vs : List Value}, TypedArgs cols args ts →
      evalArgs args row = .ok vs → ∀ v ∈ vs, v.Valid
  | [], ts, vs, typed, done => by
      simp only [evalArgs, Except.ok.injEq] at done
      subst done
      simp
  | a :: args, ts, vs, typed, done => by
      simp only [TypedArgs] at typed
      obtain ⟨t, rest, -, a_typed, args_typed⟩ := typed
      simp only [evalArgs, Res.bind_eq_ok, Res.pure_eq_ok] at done
      obtain ⟨v, a_done, vs, args_done, rfl⟩ := done
      intro u u_mem
      rcases List.mem_cons.mp u_mem with rfl | u_mem
      · exact (evalBound_typed row_of a_typed a_done).1
      · exact evalArgs_valid row_of args_typed args_done u u_mem
end

end MySimpleDb.Expr
