import MySimpleDb.Planner.FoldTyped

/-!
# Folding preserves evaluation

A folded tree evaluates to the value of the tree it came from, up to the type
tag of NULL; in a weak position it has the same truth.  Each rule of the pass
is one lemma about a node over already folded children, and the induction over
the tree composes them.
-/

namespace MySimpleDb.Planner

open MySimpleDb.Lib MySimpleDb.Storage MySimpleDb.Parser MySimpleDb.Analyzer MySimpleDb.Expr

/-! ## Values up to the tag of NULL -/

/-- The same value; NULLs are the same whatever their type tag. -/
def SameValue (v w : Value) : Prop :=
  v = w ∨ (v.box = .null ∧ w.box = .null)

@[refl]
theorem SameValue.refl (v : Value) : SameValue v v :=
  Or.inl rfl

theorem SameValue.trans {u v w : Value} (uv : SameValue u v) (vw : SameValue v w) :
    SameValue u w := by
  rcases uv with rfl | ⟨u_null, v_null⟩
  · exact vw
  · rcases vw with rfl | ⟨-, w_null⟩
    · exact Or.inr ⟨u_null, v_null⟩
    · exact Or.inr ⟨u_null, w_null⟩

theorem SameValue.valid {v w : Value} (same : SameValue v w) (valid : v.Valid) : w.Valid := by
  rcases same with rfl | ⟨-, w_null⟩
  · exact valid
  · exact Or.inl w_null

theorem SameValue.isNull {v w : Value} (same : SameValue v w) :
    valueIsNull v = valueIsNull w := by
  rcases same with rfl | ⟨v_null, w_null⟩
  · rfl
  · rw [valueIsNull_iff.mpr v_null, valueIsNull_iff.mpr w_null]

theorem SameValue.box {v w : Value} (same : SameValue v w) : v.box = w.box := by
  rcases same with rfl | ⟨v_null, w_null⟩
  · rfl
  · rw [v_null, w_null]

theorem SameValue.truthOf {v w : Value} (same : SameValue v w) : truthOf v = truthOf w := by
  simp only [Expr.truthOf, same.box]

/-- Values that are not NULL are the same only when they are equal. -/
theorem SameValue.eq {v w : Value} (same : SameValue v w) (not_null : valueIsNull v = false) :
    v = w := by
  rcases same with rfl | ⟨v_null, -⟩
  · rfl
  · rw [valueIsNull_iff.mpr v_null] at not_null
    contradiction

/-- Where `x` returns, `y` returns the same value. -/
def Agrees (x y : Res Value) : Prop :=
  ∀ v, x = .ok v → ∃ w, y = .ok w ∧ SameValue v w

theorem Agrees.trans {x y z : Res Value} (xy : Agrees x y) (yz : Agrees y z) : Agrees x z := by
  intro v done
  obtain ⟨w, y_done, vw⟩ := xy v done
  obtain ⟨u, z_done, wu⟩ := yz w y_done
  exact ⟨u, z_done, vw.trans wu⟩

theorem Agrees.refl (x : Res Value) : Agrees x x :=
  fun v done => ⟨v, done, SameValue.refl v⟩

/-- An operator applied to an operand. -/
private theorem Agrees.bind {x y : Res Value} {f : Value → Res Value} (xy : Agrees x y)
    (same : ∀ {v w}, SameValue v w → Agrees (f v) (f w)) : Agrees (x >>= f) (y >>= f) := by
  intro u done
  obtain ⟨v, x_done, f_done⟩ := Res.bind_eq_ok.mp done
  obtain ⟨w, y_done, vw⟩ := xy v x_done
  rw [y_done]
  exact same vw u f_done

/-- An operator applied to two operands. -/
private theorem Agrees.bind₂ {x x' y y' : Res Value} {f : Value → Value → Res Value}
    (left : Agrees x x') (right : Agrees y y')
    (same : ∀ {lv lw rv rw}, SameValue lv lw → SameValue rv rw → f lv rv = f lw rw) :
    Agrees (do let l ← x; let r ← y; f l r) (do let l ← x'; let r ← y'; f l r) := by
  intro u done
  simp only [Res.bind_eq_ok] at done
  obtain ⟨lv, l_done, rv, r_done, done⟩ := done
  obtain ⟨lw, l_done', l_same⟩ := left lv l_done
  obtain ⟨rw', r_done', r_same⟩ := right rv r_done
  refine ⟨u, ?_, SameValue.refl u⟩
  simp only [l_done', r_done', Res.bind_ok]
  rw [← same l_same r_same]
  exact done

/-! ## Operators do not see the tag of NULL -/

theorem arithValue_same (op : ArithOp) (t : TypeAttr) {lv lw rv rw : Value}
    (l_same : SameValue lv lw) (r_same : SameValue rv rw) :
    arithValue op t lv rv = arithValue op t lw rw := by
  cases l_null : valueIsNull lv with
  | true => simp [arithValue, l_null, ← l_same.isNull]
  | false =>
      cases r_null : valueIsNull rv with
      | true => simp [arithValue, r_null, ← r_same.isNull]
      | false => rw [l_same.eq l_null, r_same.eq r_null]

theorem cmpValue_same (op : CmpOp) {lv lw rv rw : Value}
    (l_same : SameValue lv lw) (r_same : SameValue rv rw) :
    cmpValue op lv rv = cmpValue op lw rw := by
  cases l_null : valueIsNull lv with
  | true => simp [cmpValue, l_null, ← l_same.isNull]
  | false =>
      cases r_null : valueIsNull rv with
      | true => simp [cmpValue, r_null, ← r_same.isNull]
      | false => rw [l_same.eq l_null, r_same.eq r_null]

theorem logicValue_same (op : LogicOp) {lv lw rv rw : Value}
    (l_same : SameValue lv lw) (r_same : SameValue rv rw) :
    logicValue op lv rv = logicValue op lw rw := by
  simp only [logicValue, logicOperand, l_same.box, r_same.box]

theorem isNullValue_same (negate : Bool) {v w : Value} (same : SameValue v w) :
    isNullValue negate v = isNullValue negate w := by
  simp only [isNullValue, same.isNull]

/-- An operator that passes on a NULL agrees on the same operands. -/
private theorem agrees_of_passes {f : Value → Res Value} {v w : Value} (same : SameValue v w)
    (passes : ∀ u, u.box = .null → f u = .ok u) : Agrees (f v) (f w) := by
  intro r done
  rcases same with rfl | ⟨v_null, w_null⟩
  · exact ⟨r, done, SameValue.refl r⟩
  · rw [passes v v_null] at done
    cases done
    exact ⟨w, passes w w_null, Or.inr ⟨v_null, w_null⟩⟩

theorem negValue_same (t : TypeAttr) {v w : Value} (same : SameValue v w) :
    Agrees (negValue t v) (negValue t w) :=
  agrees_of_passes same fun u null => by simp [negValue, valueIsNull_iff.mpr null]

theorem notValue_same {v w : Value} (same : SameValue v w) :
    Agrees (notValue v) (notValue w) :=
  agrees_of_passes same fun u null => by
    simp [notValue, logicOperand, null, pure, Except.pure]

theorem castExprValue_same (t : TypeAttr) (length scale : Nat) {v w : Value}
    (same : SameValue v w) :
    Agrees (castExprValue t length scale v) (castExprValue t length scale w) :=
  agrees_of_passes same fun u null => by simp [castExprValue, valueIsNull_iff.mpr null]

/-- A strict call on the same arguments. -/
theorem funcValue_same (func : Nat) (t : TypeAttr) {vs ws : List Value}
    (same : List.Forall₂ SameValue vs ws) :
    Agrees (funcValue func true t vs) (funcValue func true t ws) := by
  have found : (∃ v w, vs.find? valueIsNull = some v ∧ ws.find? valueIsNull = some w ∧
      SameValue v w) ∨
      (vs.find? valueIsNull = none ∧ ws.find? valueIsNull = none ∧ vs = ws) := by
    induction same with
    | nil => exact Or.inr ⟨rfl, rfl, rfl⟩
    | @cons v w vs ws head _ ih =>
        cases null : valueIsNull v with
        | true =>
            refine Or.inl ⟨v, w, ?_, ?_, head⟩
            · simp [null]
            · simp [← head.isNull, null]
        | false =>
            simp only [List.find?_cons, null, ← head.isNull]
            rcases ih with found | ⟨v_none, w_none, rfl⟩
            · exact Or.inl found
            · exact Or.inr ⟨v_none, w_none, by rw [head.eq null]⟩
  intro r done
  rcases found with ⟨v, w, v_found, w_found, vw⟩ | ⟨-, -, rfl⟩
  · simp only [funcValue, if_true, v_found] at done
    cases done
    exact ⟨w, by simp [funcValue, w_found], vw⟩
  · exact ⟨r, done, SameValue.refl r⟩

/-! ## The rules, over folded children -/

theorem evalBound_isConst {e : BoundExpr} (is_const : isConst e = true) (row row' : Option Row) :
    evalBound e row = evalBound e row' := by
  cases e <;> simp [isConst] at is_const
  simp [evalBound]

theorem evalArgs_isConst {args : List BoundExpr} (all_const : args.all isConst = true)
    (row row' : Option Row) : evalArgs args row = evalArgs args row' := by
  induction args with
  | nil => simp [evalArgs]
  | cons a args ih =>
      simp only [List.all_cons, Bool.and_eq_true] at all_const
      simp only [evalArgs, evalBound_isConst all_const.1 row row', ih all_const.2]

/-- A node without columns may be replaced by the constant it evaluates to. -/
private theorem Agrees.const {x : Res Value} {node e' : BoundExpr} {row : Row}
    (agrees : Agrees x (evalBound node (some row))) (valid : ∀ v, x = .ok v → v.Valid)
    (closed : evalBound node (some row) = evalBound node none)
    (folded : BoundExpr.const <$> evalConst node = .ok e') :
    Agrees x (evalBound e' (some row)) := by
  intro v done
  obtain ⟨w, node_done, same⟩ := agrees v done
  rw [closed] at node_done
  simp only [evalConst, node_done, Functor.map, Except.map, Except.ok.injEq] at folded
  subst folded
  exact ⟨w, by simp [evalBound, constValue_valid (same.valid (valid v done))], same⟩

/-- An operator with a NULL constant operand may be replaced by NULL. -/
private theorem Agrees.null {x : Res Value} {node : BoundExpr} {row : Row}
    (agrees : Agrees x (evalBound node (some row)))
    (null : ∀ w, evalBound node (some row) = .ok w → w = nullVal) :
    Agrees x (evalBound (.const nullVal) (some row)) := by
  intro v done
  obtain ⟨w, node_done, same⟩ := agrees v done
  obtain rfl := null w node_done
  exact ⟨nullVal, by simp [evalBound, constValue, nullVal], same⟩

private theorem evalBound_isNullConst {e : BoundExpr} {row : Option Row} {v : Value}
    (is_null : isNullConst e = true) (done : evalBound e row = .ok v) :
    valueIsNull v = true := by
  cases e <;> simp [isNullConst] at is_null
  simp only [evalBound] at done
  exact constValue_eq done ▸ is_null

/-- A NULL operand makes a strict binary operator NULL. -/
private theorem binary_null {f : Value → Value → Res Value} {l r node : BoundExpr} {row : Row}
    (node_eq : evalBound node (some row) = (do
      let lv ← evalBound l (some row)
      let rv ← evalBound r (some row)
      f lv rv))
    (f_null : ∀ lv rv, valueIsNull lv = true ∨ valueIsNull rv = true → f lv rv = .ok nullVal)
    (null : (isNullConst l || isNullConst r) = true) (w : Value)
    (done : evalBound node (some row) = .ok w) : w = nullVal := by
  rw [node_eq] at done
  simp only [Res.bind_eq_ok] at done
  obtain ⟨lv, l_done, rv, r_done, done⟩ := done
  have either : valueIsNull lv = true ∨ valueIsNull rv = true := by
    rcases Bool.or_eq_true_iff.mp null with l_null | r_null
    · exact Or.inl (evalBound_isNullConst l_null l_done)
    · exact Or.inr (evalBound_isNullConst r_null r_done)
  rw [f_null lv rv either] at done
  exact (Except.ok.inj done).symm

/-- A valid boolean is tagged boolean. -/
theorem valid_bool {v : Value} {b : Bool} (valid : v.Valid) (box : v.box = .bool b) :
    v = boolVal kBool b := by
  obtain ⟨mem, rep, -⟩ := valid.resolve_left (by simp [box])
  have each : ∀ t ∈ kTypeAttrs, t.rep = .bool → t = kBool := by decide
  have type_eq : v.type = kBool := each v.type mem (by rw [rep, box]; rfl)
  rcases v with ⟨t, vbox⟩
  simp only at box type_eq
  rw [box, type_eq]
  rfl

theorem constBool_value {e : BoundExpr} {b : Bool} {row : Option Row} {v : Value}
    (found : constBool e = some b) (done : evalBound e row = .ok v) : v.box = .bool b := by
  cases e <;> simp only [constBool, reduceCtorEq] at found
  simp only [evalBound] at done
  obtain rfl := constValue_eq done
  split at found
  · rename_i box
    cases found
    exact box
  · cases found

theorem logicOperand_eq_ok {v : Value} {b : Option Bool} :
    logicOperand v = .ok b ↔ v.box = b.elim .null .bool := by
  cases box : v.box <;> cases b <;> simp [logicOperand, box, dbRaise]

/-- The dominating value of an operator decides it. -/
private theorem logicValue_dominated {op : LogicOp} {lv rv v : Value}
    (either : lv.box = .bool (op = .or) ∨ rv.box = .bool (op = .or))
    (done : logicValue op lv rv = .ok v) : v = boolVal kBool (op = .or) := by
  simp only [logicValue, Res.bind_eq_ok, logicOperand_eq_ok] at done
  obtain ⟨lb, l_box, rb, r_box, done⟩ := done
  have dominated : lb = some (decide (op = .or)) ∨ rb = some (decide (op = .or)) := by
    rcases either with l | r
    · rw [l] at l_box
      cases lb <;> simp_all
    · rw [r] at r_box
      cases rb <;> simp_all
  rw [if_pos dominated] at done
  exact (Res.pure_eq_ok.mp done).symm

/-- With the other value on one side, an operator is its other side. -/
private theorem logicValue_neutral_left {op : LogicOp} {lv rv v : Value}
    (neutral : lv.box = .bool (!decide (op = .or))) (r_valid : rv.Valid)
    (done : logicValue op lv rv = .ok v) : SameValue v rv := by
  simp only [logicValue, Res.bind_eq_ok, logicOperand_eq_ok] at done
  obtain ⟨lb, l_box, rb, r_box, done⟩ := done
  rw [neutral] at l_box
  cases lb with
  | none => simp at l_box
  | some b =>
      obtain rfl : (!decide (op = .or)) = b := by simpa using l_box
      cases rb with
      | none =>
          have r_null : rv.box = .null := r_box
          simp at done
          exact Or.inr ⟨by rw [← Res.pure_eq_ok.mp done]; rfl, r_null⟩
      | some c =>
          rw [valid_bool r_valid (b := c) r_box]
          refine Or.inl ?_
          cases op <;> cases c <;> simp at done <;> exact (Res.pure_eq_ok.mp done).symm

private theorem logicValue_comm (op : LogicOp) {lv rv v : Value}
    (done : logicValue op lv rv = .ok v) : logicValue op rv lv = .ok v := by
  simp only [logicValue, Res.bind_eq_ok] at done ⊢
  obtain ⟨lb, l_done, rb, r_done, done⟩ := done
  refine ⟨rb, r_done, lb, l_done, ?_⟩
  simpa only [or_comm] using done

/-- Both operators at once, told apart by their dominating value. -/
theorem simplifyLogic_eq (op : LogicOp) (l r : BoundExpr) :
    simplifyLogic op l r =
      let d := decide (op = .or)
      if constBool l = some d ∨ constBool r = some d then .const (boolVal kBool d)
      else if (constBool l).isSome then r
      else if (constBool r).isSome then l
      else .logic op l r := by
  cases op <;> rfl

theorem constBool_neutral {e : BoundExpr} {d : Bool} (is_bool : (constBool e).isSome)
    (other : constBool e ≠ some d) : constBool e = some !d := by
  obtain ⟨b, found⟩ := Option.isSome_iff_exists.mp is_bool
  rw [found] at other ⊢
  cases b <;> cases d <;> simp_all

theorem simplifyLogic_agrees {cols : List TypeAttr} {op : LogicOp} {l r : BoundExpr} {row : Row}
    (row_of : RowOf cols row) (typed : Typed cols (.logic op l r) kBool) :
    Agrees (evalBound (.logic op l r) (some row))
      (evalBound (simplifyLogic op l r) (some row)) := by
  intro v whole
  have done := whole
  simp only [evalBound, Res.bind_eq_ok] at done
  obtain ⟨lv, l_done, rv, r_done, done⟩ := done
  simp only [Typed] at typed
  obtain ⟨-, ⟨lt, l_typed, -⟩, rt, r_typed, -⟩ := typed
  have rows_of := some_rowsOf row_of
  have l_valid := (evalBound_typed rows_of l_typed l_done).1
  have r_valid := (evalBound_typed rows_of r_typed r_done).1
  rw [simplifyLogic_eq]
  dsimp only
  split_ifs with dominated left right
  · have either : lv.box = .bool (op = .or) ∨ rv.box = .bool (op = .or) := by
      rcases dominated with found | found
      · exact Or.inl (constBool_value found l_done)
      · exact Or.inr (constBool_value found r_done)
    obtain rfl := logicValue_dominated either done
    exact ⟨_, by simp [evalBound, constValue, boolVal], SameValue.refl _⟩
  · have found := constBool_neutral left fun found => dominated (Or.inl found)
    exact ⟨rv, r_done, logicValue_neutral_left (constBool_value found l_done) r_valid done⟩
  · have found := constBool_neutral right fun found => dominated (Or.inr found)
    exact ⟨lv, l_done,
      logicValue_neutral_left (constBool_value found r_done) l_valid (logicValue_comm op done)⟩
  · exact ⟨v, whole, SameValue.refl v⟩

theorem cmpHolds_negate (op : CmpOp) (c : Int) :
    cmpHolds (negateCmp op) c = !cmpHolds op c := by
  rw [Bool.eq_iff_iff]
  cases op <;> simp [cmpHolds, negateCmp]

private theorem notValue_boolVal (b : Bool) :
    notValue (boolVal kBool b) = .ok (boolVal kBool !b) :=
  rfl

private theorem notValue_null {v : Value} (null : v.box = .null) : notValue v = .ok v := by
  simp [notValue, logicOperand, null, pure, Except.pure]

theorem simplifyNot_agrees {cols : List TypeAttr} {x : BoundExpr} {row : Row}
    (row_of : RowOf cols row) (typed : Typed cols (.not x) kBool) :
    Agrees (evalBound (.not x) (some row)) (evalBound (simplifyNot x) (some row)) := by
  have rows_of := some_rowsOf row_of
  intro v whole
  have done := whole
  simp only [evalBound, Res.bind_eq_ok] at done
  obtain ⟨a, x_done, done⟩ := done
  cases x with
  | not y =>
      simp only [evalBound, Res.bind_eq_ok] at x_done
      obtain ⟨u, y_done, not_u⟩ := x_done
      simp only [Typed] at typed
      obtain ⟨-, _, ⟨-, yt, y_typed, -⟩, -⟩ := typed
      have u_valid := (evalBound_typed rows_of y_typed y_done).1
      refine ⟨u, y_done, ?_⟩
      have operand := not_u
      simp only [notValue, Res.bind_eq_ok, logicOperand_eq_ok] at operand
      obtain ⟨b, u_box, -⟩ := operand
      cases b with
      | none =>
          have u_null : u.box = .null := u_box
          rw [notValue_null u_null] at not_u
          cases not_u
          rw [notValue_null u_null] at done
          cases done
          exact SameValue.refl _
      | some b =>
          obtain rfl := valid_bool u_valid (b := b) u_box
          rw [notValue_boolVal] at not_u
          cases not_u
          rw [notValue_boolVal, Bool.not_not] at done
          cases done
          exact SameValue.refl _
  | cmp op l r =>
      simp only [evalBound, Res.bind_eq_ok] at x_done
      obtain ⟨lv, l_done, rv, r_done, compared⟩ := x_done
      refine ⟨v, ?_, SameValue.refl v⟩
      simp only [simplifyNot, evalBound, l_done, r_done, Res.bind_ok]
      unfold cmpValue at compared ⊢
      split at compared
      · rename_i null
        cases compared
        rw [notValue_null rfl] at done
        cases done
        rw [if_pos null]
      · rename_i not_null
        simp only [Res.bind_eq_ok, Res.pure_eq_ok] at compared
        obtain ⟨c, cmp_done, rfl⟩ := compared
        rw [notValue_boolVal] at done
        cases done
        rw [if_neg not_null, cmp_done, Res.bind_ok, cmpHolds_negate]
        rfl
  | isNull y negate =>
      simp only [evalBound, Res.bind_eq_ok, Res.pure_eq_ok] at x_done
      obtain ⟨u, y_done, rfl⟩ := x_done
      refine ⟨v, ?_, SameValue.refl v⟩
      rw [isNullValue, notValue_boolVal] at done
      cases done
      simp only [simplifyNot, evalBound, y_done, Res.bind_ok, isNullValue]
      cases negate <;> simp [pure, Except.pure]
  | _ => exact ⟨v, whole, SameValue.refl v⟩

/-! ## Folding in a strict position -/

mutual
/-- A tree folded strictly evaluates to the same value wherever the tree
evaluates. -/
theorem foldExpr_agrees {cols : List TypeAttr} {row : Row} (row_of : RowOf cols row) :
    ∀ {e e' : BoundExpr} {t : TypeAttr}, Typed cols e t → foldExpr false e = .ok e' →
      Agrees (evalBound e (some row)) (evalBound e' (some row))
  | .const v, e', t, typed, folded => by
      simp only [foldExpr, Except.ok.injEq] at folded
      exact folded ▸ Agrees.refl _
  | .colRef i type, e', t, typed, folded => by
      simp only [foldExpr, Except.ok.injEq] at folded
      exact folded ▸ Agrees.refl _
  | .arith op left right type, e', t, typed, folded => by
      have valid := fun v done => (evalBound_typed (some_rowsOf row_of) (v := v) typed done).1
      simp only [Typed] at typed
      obtain ⟨rfl, lt, rt, l_typed, r_typed, -⟩ := typed
      simp only [foldExpr, Res.bind_eq_ok] at folded
      obtain ⟨l, l_folded, r, r_folded, folded⟩ := folded
      have node : Agrees (evalBound (.arith op left right type) (some row))
          (evalBound (.arith op l r type) (some row)) := by
        simp only [evalBound]
        exact Agrees.bind₂ (foldExpr_agrees row_of l_typed l_folded)
          (foldExpr_agrees row_of r_typed r_folded) (arithValue_same op type)
      split at folded
      · rename_i consts
        rw [Bool.and_eq_true] at consts
        refine node.const valid ?_ folded
        simp only [evalBound, evalBound_isConst consts.1 (some row) none,
          evalBound_isConst consts.2 (some row) none]
      · split at folded
        · rename_i null
          obtain rfl := Res.pure_eq_ok.mp folded
          refine node.null (binary_null (f := arithValue op type) (by simp only [evalBound]) ?_ null)
          rintro lv rv (l_null | r_null)
          · simp [arithValue, l_null]
          · simp [arithValue, r_null]
        · obtain rfl := Res.pure_eq_ok.mp folded
          exact node
  | .neg operand type, e', t, typed, folded => by
      have valid := fun v done => (evalBound_typed (some_rowsOf row_of) (v := v) typed done).1
      simp only [Typed] at typed
      obtain ⟨rfl, -, o_typed⟩ := typed
      simp only [foldExpr, Res.bind_eq_ok] at folded
      obtain ⟨x, x_folded, folded⟩ := folded
      have node : Agrees (evalBound (.neg operand type) (some row))
          (evalBound (.neg x type) (some row)) := by
        simp only [evalBound]
        exact (foldExpr_agrees row_of o_typed x_folded).bind (negValue_same type)
      split at folded
      · rename_i const
        refine node.const valid ?_ folded
        simp only [evalBound, evalBound_isConst const (some row) none]
      · obtain rfl := Res.pure_eq_ok.mp folded
        exact node
  | .cmp op left right, e', t, typed, folded => by
      have valid := fun v done => (evalBound_typed (some_rowsOf row_of) (v := v) typed done).1
      simp only [Typed] at typed
      obtain ⟨-, ⟨lt, l_typed⟩, rt, r_typed⟩ := typed
      simp only [foldExpr, Res.bind_eq_ok] at folded
      obtain ⟨l, l_folded, r, r_folded, folded⟩ := folded
      have node : Agrees (evalBound (.cmp op left right) (some row))
          (evalBound (.cmp op l r) (some row)) := by
        simp only [evalBound]
        exact Agrees.bind₂ (foldExpr_agrees row_of l_typed l_folded)
          (foldExpr_agrees row_of r_typed r_folded) (cmpValue_same op)
      split at folded
      · rename_i consts
        rw [Bool.and_eq_true] at consts
        refine node.const valid ?_ folded
        simp only [evalBound, evalBound_isConst consts.1 (some row) none,
          evalBound_isConst consts.2 (some row) none]
      · split at folded
        · rename_i null
          obtain rfl := Res.pure_eq_ok.mp folded
          refine node.null (binary_null (f := cmpValue op) (by simp only [evalBound]) ?_ null)
          rintro lv rv (l_null | r_null)
          · simp [cmpValue, l_null]
          · simp [cmpValue, r_null]
        · obtain rfl := Res.pure_eq_ok.mp folded
          exact node
  | .logic op left right, e', t, typed, folded => by
      have valid := fun v done => (evalBound_typed (some_rowsOf row_of) (v := v) typed done).1
      simp only [Typed] at typed
      obtain ⟨-, ⟨lt, l_typed, l_bool⟩, rt, r_typed, r_bool⟩ := typed
      simp only [foldExpr, Res.bind_eq_ok] at folded
      obtain ⟨l, l_folded, r, r_folded, folded⟩ := folded
      have node : Agrees (evalBound (.logic op left right) (some row))
          (evalBound (.logic op l r) (some row)) := by
        simp only [evalBound]
        exact Agrees.bind₂ (foldExpr_agrees row_of l_typed l_folded)
          (foldExpr_agrees row_of r_typed r_folded) (logicValue_same op)
      split at folded
      · rename_i consts
        rw [Bool.and_eq_true] at consts
        refine node.const valid ?_ folded
        simp only [evalBound, evalBound_isConst consts.1 (some row) none,
          evalBound_isConst consts.2 (some row) none]
      · obtain rfl := Res.pure_eq_ok.mp folded
        refine node.trans (simplifyLogic_agrees row_of ?_)
        exact logic_folded_typed l_typed l_bool l_folded r_typed r_bool r_folded
  | .not operand, e', t, typed, folded => by
      have valid := fun v done => (evalBound_typed (some_rowsOf row_of) (v := v) typed done).1
      simp only [Typed] at typed
      obtain ⟨-, u, o_typed, bool⟩ := typed
      simp only [foldExpr, Res.bind_eq_ok] at folded
      obtain ⟨x, x_folded, folded⟩ := folded
      have node : Agrees (evalBound (.not operand) (some row))
          (evalBound (.not x) (some row)) := by
        simp only [evalBound]
        exact (foldExpr_agrees row_of o_typed x_folded).bind notValue_same
      split at folded
      · rename_i const
        refine node.const valid ?_ folded
        simp only [evalBound, evalBound_isConst const (some row) none]
      · have absorbed : e' = simplifyNot x := by
          split at folded
          · rename_i op l r not_eq
            simp only [Bool.false_eq_true, if_false, Res.pure_eq_ok] at folded
            rw [← folded, not_eq]
          · exact (Res.pure_eq_ok.mp folded).symm
        subst absorbed
        exact node.trans (simplifyNot_agrees row_of (not_folded_typed o_typed bool x_folded))
  | .isNull operand negate, e', t, typed, folded => by
      have valid := fun v done => (evalBound_typed (some_rowsOf row_of) (v := v) typed done).1
      simp only [Typed] at typed
      obtain ⟨-, u, o_typed⟩ := typed
      simp only [foldExpr, Res.bind_eq_ok] at folded
      obtain ⟨x, x_folded, folded⟩ := folded
      have node : Agrees (evalBound (.isNull operand negate) (some row))
          (evalBound (.isNull x negate) (some row)) := by
        simp only [evalBound]
        refine (foldExpr_agrees row_of o_typed x_folded).bind fun same => ?_
        rw [isNullValue_same negate same]
        exact Agrees.refl _
      split at folded
      · rename_i const
        refine node.const valid ?_ folded
        simp only [evalBound, evalBound_isConst const (some row) none]
      · obtain rfl := Res.pure_eq_ok.mp folded
        exact node
  | .funcCall func name strictNull args type, e', t, typed, folded => by
      have valid := fun v done => (evalBound_typed (some_rowsOf row_of) (v := v) typed done).1
      have strict := typed_strictCalls typed
      simp only [Typed] at typed
      obtain ⟨rfl, frow, mem, -, -, -, -, a_typed⟩ := typed
      simp only [StrictCalls] at strict
      obtain ⟨rfl, -⟩ := strict
      simp only [foldExpr, Res.bind_eq_ok] at folded
      obtain ⟨args', a_folded, folded⟩ := folded
      have node : Agrees (evalBound (.funcCall func name true args type) (some row))
          (evalBound (.funcCall func name true args' type) (some row)) := by
        intro v done
        simp only [evalBound, Res.bind_eq_ok] at done
        obtain ⟨vs, a_done, done⟩ := done
        obtain ⟨ws, a_done', same⟩ := foldArgs_agrees row_of a_typed a_folded vs a_done
        simp only [evalBound, a_done', Res.bind_ok]
        exact funcValue_same func type same v done
      split at folded
      · rename_i consts
        refine node.const valid ?_ folded
        simp only [evalBound, evalArgs_isConst consts (some row) none]
      · obtain rfl := Res.pure_eq_ok.mp folded
        exact node
  | .cast operand type length scale, e', t, typed, folded => by
      have valid := fun v done => (evalBound_typed (some_rowsOf row_of) (v := v) typed done).1
      simp only [Typed] at typed
      obtain ⟨-, -, u, o_typed⟩ := typed
      simp only [foldExpr, Res.bind_eq_ok] at folded
      obtain ⟨x, x_folded, folded⟩ := folded
      have node : Agrees (evalBound (.cast operand type length scale) (some row))
          (evalBound (.cast x type length scale) (some row)) := by
        simp only [evalBound]
        exact (foldExpr_agrees row_of o_typed x_folded).bind (castExprValue_same type length scale)
      split at folded
      · rename_i const
        refine node.const valid ?_ folded
        simp only [evalBound, evalBound_isConst const (some row) none]
      · obtain rfl := Res.pure_eq_ok.mp folded
        exact node

theorem foldArgs_agrees {cols : List TypeAttr} {row : Row} (row_of : RowOf cols row) :
    ∀ {args args' : List BoundExpr} {ts : List TypeAttr}, TypedArgs cols args ts →
      foldArgs args = .ok args' → ∀ vs, evalArgs args (some row) = .ok vs →
        ∃ ws, evalArgs args' (some row) = .ok ws ∧ List.Forall₂ SameValue vs ws
  | [], args', ts, _, folded, vs, done => by
      simp only [foldArgs, Except.ok.injEq] at folded
      subst folded
      simp only [evalArgs, Except.ok.injEq] at done
      subst done
      exact ⟨[], by simp [evalArgs], .nil⟩
  | a :: args, args', ts, typed, folded, vs, done => by
      simp only [TypedArgs] at typed
      obtain ⟨t, rest, -, a_typed, rest_typed⟩ := typed
      simp only [foldArgs, Res.bind_eq_ok, Res.pure_eq_ok] at folded
      obtain ⟨a', a_folded, rest', rest_folded, rfl⟩ := folded
      simp only [evalArgs, Res.bind_eq_ok, Res.pure_eq_ok] at done
      obtain ⟨v, a_done, vs, rest_done, rfl⟩ := done
      obtain ⟨w, a_done', same⟩ := foldExpr_agrees row_of a_typed a_folded v a_done
      obtain ⟨ws, rest_done', rest_same⟩ :=
        foldArgs_agrees row_of rest_typed rest_folded vs rest_done
      exact ⟨w :: ws, by simp [evalArgs, a_done', rest_done', pure, Except.pure],
        .cons same rest_same⟩
end

end MySimpleDb.Planner
