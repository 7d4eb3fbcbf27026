import MySimpleDb.Analyzer.BindTyped
import MySimpleDb.Expr.Sound

/-!
# Bound expressions are sound

What the binder accepts evaluates soundly on every row of the table: the checks
it makes on comparisons and cast targets are those evaluation relies on.
-/

namespace MySimpleDb.Analyzer

open MySimpleDb.Lib MySimpleDb.Storage MySimpleDb.Parser MySimpleDb.Expr

/-! ## The checks of the binder -/

private theorem checkComparable_ok {lt rt : TypeAttr} {u : Unit}
    (done : checkComparable lt rt = .ok u) : Comparable lt rt := by
  intro l_typed r_typed
  unfold checkComparable at done
  split at done
  · exact absurd done dbRaise_ne_ok
  · rename_i same
    by_contra differ
    exact same ⟨l_typed, r_typed, differ⟩

private theorem checkTypeSpec_length {row : TypeSeed} {n : Int} {scale : Option Int} {u : Unit}
    (done : checkTypeSpec row (some n) scale = .ok u) : n ≤ row.lenMax := by
  simp only [checkTypeSpec, Option.isSome_some, Option.getD_some, Bool.and_true,
    Bool.true_and] at done
  obtain ⟨-, done⟩ := checked_ok done
  split at done
  · -- a length out of range raises, whichever message it gets
    split at done
    · exact absurd done dbRaise_bind_ne_ok
    · exact absurd done dbRaise_bind_ne_ok
  · rename_i in_range
    simp only [Bool.or_eq_true, decide_eq_true_eq, not_or, not_le, not_lt] at in_range
    exact in_range.2

/-- The declared length of a numeric target is within the digit limit. -/
private theorem mapTypeSpec_spec {type : String} {length scale : Option Int} {t : TypeAttr}
    {len scl : Nat} (done : mapTypeSpec type length scale = .ok (t, len, scl)) :
    CastSpec t len scl := by
  simp only [mapTypeSpec, Res.bind_eq_ok, Res.pure_eq_ok, Prod.mk.injEq] at done
  obtain ⟨row, found, u, spec, rfl, rfl, rfl⟩ := done
  have mem : row ∈ kTypeSeeds := by
    unfold findType at found
    split at found
    · rename_i named
      cases found
      exact List.mem_of_find?_eq_some named
    · exact absurd found dbRaise_ne_ok
  constructor
  · intro dec
    have each : ∀ row ∈ kTypeSeeds, row.attr.rep = .dec → row.lenMax = 38 ∧ row.lenDefault = 0 := by
      decide
    obtain ⟨len_max, len_default⟩ := each row mem dec
    cases length with
    | none => simp [len_default]
    | some n =>
        have n_le := checkTypeSpec_length spec
        rw [len_max] at n_le
        simp only [Option.getD_some]
        omega
  · omega

/-! ## The binder -/

private theorem const_checked {cols : List TypeAttr} {v : Value} (range : InRange v) :
    Checked cols (.const v) := by
  simp only [Checked]
  exact range

mutual
/-- A tree the binder builds passes the checks evaluation relies on. -/
theorem bindExpr_checked {rowDesc : Option RowDesc} {cols : List TypeAttr}
    (desc_cols : ∀ desc ∈ rowDesc, desc.colTypes = cols) (seeds : ∀ t ∈ cols, t ∈ kTypeAttrs) :
    ∀ {e : SqlExpr} {b : BoundExpr} {t : TypeAttr}, bindExpr rowDesc e = .ok (b, t) →
      Checked cols b
  | .int text, b, t, done => by
      simp only [bindExpr] at done
      split at done
      · exact absurd done dbRaise_ne_ok
      · rename_i v parsed
        simp only [Res.bind_eq_ok, Res.pure_eq_ok, Prod.mk.injEq] at done
        obtain ⟨type, found, rfl, rfl⟩ := done
        apply const_checked
        apply intVal_inRange
        split at found
        · rename_i range
          intro _
          exact range
        · obtain rfl : kBigint = type := Except.ok.inj found
          intro narrow
          exact absurd narrow (by decide)
  | .float text, b, t, done => by
      simp only [bindExpr] at done
      split at done
      · exact absurd done dbRaise_ne_ok
      · simp only [Res.bind_eq_ok, Res.pure_eq_ok, Prod.mk.injEq] at done
        obtain ⟨type, -, rfl, rfl⟩ := done
        exact const_checked (inRange_of_rep trivial (by simp [doubleVal, Box.rep]))
  | .decimal text, b, t, done => by
      simp only [bindExpr, Res.bind_eq_ok, Res.pure_eq_ok, Prod.mk.injEq] at done
      obtain ⟨d, parsed, type, -, rfl, rfl⟩ := done
      have bounded : DecimalVal.Bounded d := by
        have safe := parseDecimalText_safe text
        rw [parsed] at safe
        exact safe
      exact const_checked (numericVal_inRange bounded)
  | .string value, b, t, done => by
      simp only [bindExpr, Res.bind_eq_ok, Res.pure_eq_ok, Prod.mk.injEq] at done
      obtain ⟨type, -, rfl, rfl⟩ := done
      exact const_checked (inRange_of_rep trivial (by simp [strVal, Box.rep]))
  | .null, b, t, done => by
      simp only [bindExpr, Res.pure_eq_ok, Prod.mk.injEq] at done
      obtain ⟨rfl, rfl⟩ := done
      exact const_checked (inRange_null rfl)
  | .bool value, b, t, done => by
      simp only [bindExpr, Res.bind_eq_ok, Res.pure_eq_ok, Prod.mk.injEq] at done
      obtain ⟨type, -, rfl, rfl⟩ := done
      exact const_checked (inRange_of_rep trivial (by simp [boolVal, Box.rep]))
  | .identifier name, b, t, done => by
      simp only [bindExpr] at done
      cases rowDesc with
      | none => exact absurd done dbRaise_ne_ok
      | some desc =>
          cases found : desc.cols.lookup name with
          | none => simp [found] at done
          | some i =>
              simp only [found] at done
              split at done
              · simp only [Res.pure_eq_ok, Prod.mk.injEq] at done
                obtain ⟨rfl, rfl⟩ := done
                simp only [Checked]
              · cases done
  | .binaryOp op left right, b, t, done => by
      simp only [bindExpr, Res.bind_eq_ok, Prod.exists] at done
      obtain ⟨l, lt, l_done, r, rt, r_done, done⟩ := done
      obtain ⟨-, done⟩ := checked_ok done
      simp only [Res.bind_eq_ok, Res.pure_eq_ok, Prod.mk.injEq] at done
      obtain ⟨type, -, rfl, rfl⟩ := done
      simp only [Checked]
      exact ⟨bindExpr_checked desc_cols seeds l_done, bindExpr_checked desc_cols seeds r_done⟩
  | .unaryOp op operand, b, t, done => by
      simp only [bindExpr, Res.bind_eq_ok, Prod.exists] at done
      obtain ⟨e, et, e_done, done⟩ := done
      obtain ⟨-, done⟩ := checked_ok done
      have e_checked := bindExpr_checked desc_cols seeds e_done
      cases op with
      | plus =>
          simp only [Res.pure_eq_ok, Prod.mk.injEq] at done
          obtain ⟨rfl, rfl⟩ := done
          exact e_checked
      | minus =>
          simp only [Res.pure_eq_ok, Prod.mk.injEq] at done
          obtain ⟨rfl, rfl⟩ := done
          simp only [Checked]
          exact e_checked
  | .compare op left right, b, t, done => by
      simp only [bindExpr, Res.bind_eq_ok, Prod.exists, Res.pure_eq_ok, Prod.mk.injEq] at done
      obtain ⟨l, lt, l_done, r, rt, r_done, u, comparable, type, -, rfl, rfl⟩ := done
      simp only [Checked]
      exact ⟨⟨lt, rt, bindExpr_typed desc_cols seeds l_done, bindExpr_typed desc_cols seeds r_done,
          checkComparable_ok comparable⟩,
        bindExpr_checked desc_cols seeds l_done, bindExpr_checked desc_cols seeds r_done⟩
  | .logic op left right, b, t, done => by
      simp only [bindExpr, Res.bind_eq_ok, Prod.exists] at done
      obtain ⟨l, lt, l_done, r, rt, r_done, done⟩ := done
      obtain ⟨-, done⟩ := checked_ok done
      simp only [Res.bind_eq_ok, Res.pure_eq_ok, Prod.mk.injEq] at done
      obtain ⟨type, -, rfl, rfl⟩ := done
      simp only [Checked]
      exact ⟨bindExpr_checked desc_cols seeds l_done, bindExpr_checked desc_cols seeds r_done⟩
  | .not operand, b, t, done => by
      simp only [bindExpr, Res.bind_eq_ok, Prod.exists] at done
      obtain ⟨e, et, e_done, done⟩ := done
      obtain ⟨-, done⟩ := checked_ok done
      simp only [Res.bind_eq_ok, Res.pure_eq_ok, Prod.mk.injEq] at done
      obtain ⟨type, -, rfl, rfl⟩ := done
      simp only [Checked]
      exact bindExpr_checked desc_cols seeds e_done
  | .isNull operand negate, b, t, done => by
      simp only [bindExpr, Res.bind_eq_ok, Prod.exists, Res.pure_eq_ok, Prod.mk.injEq] at done
      obtain ⟨e, et, e_done, type, -, rfl, rfl⟩ := done
      simp only [Checked]
      exact bindExpr_checked desc_cols seeds e_done
  | .between expr lo hi, b, t, done => by
      simp only [bindExpr, Res.bind_eq_ok, Prod.exists, Res.pure_eq_ok, Prod.mk.injEq] at done
      obtain ⟨x1, xt1, x1_done, lo, lot, lo_done, x2, xt2, x2_done, hi, hit, hi_done, u, above, w,
        below, type, -, rfl, rfl⟩ := done
      -- both bindings of the tested expression give the same tree
      obtain ⟨rfl, rfl⟩ := Prod.mk.inj (Except.ok.inj (x1_done.symm.trans x2_done))
      have x_typed := bindExpr_typed desc_cols seeds x1_done
      have x_checked := bindExpr_checked desc_cols seeds x1_done
      simp only [Checked]
      exact ⟨⟨⟨xt1, lot, x_typed, bindExpr_typed desc_cols seeds lo_done,
            checkComparable_ok above⟩, x_checked, bindExpr_checked desc_cols seeds lo_done⟩,
        ⟨xt1, hit, x_typed, bindExpr_typed desc_cols seeds hi_done, checkComparable_ok below⟩,
        x_checked, bindExpr_checked desc_cols seeds hi_done⟩
  | .funcCall name args, b, t, done => by
      simp only [bindExpr] at done
      split at done
      · exact absurd done dbRaise_ne_ok
      · simp only [Res.bind_eq_ok] at done
        obtain ⟨bound, a_done, done⟩ := done
        split at done
        · exact absurd done dbRaise_ne_ok
        · simp only [Res.pure_eq_ok, Prod.mk.injEq] at done
          obtain ⟨rfl, rfl⟩ := done
          simp only [Checked]
          exact bindArgs_checked desc_cols seeds a_done
  | .cast operand target, b, t, done => by
      simp only [bindExpr, Res.bind_eq_ok, Prod.exists] at done
      obtain ⟨e, et, e_done, type, len, scl, spec, done⟩ := done
      have e_checked := bindExpr_checked desc_cols seeds e_done
      split at done
      · simp only [Res.pure_eq_ok, Prod.mk.injEq] at done
        obtain ⟨rfl, rfl⟩ := done
        exact e_checked
      · simp only [Res.pure_eq_ok, Prod.mk.injEq] at done
        obtain ⟨rfl, rfl⟩ := done
        simp only [Checked]
        exact ⟨mapTypeSpec_spec spec, e_checked⟩

theorem bindArgs_checked {rowDesc : Option RowDesc} {cols : List TypeAttr}
    (desc_cols : ∀ desc ∈ rowDesc, desc.colTypes = cols) (seeds : ∀ t ∈ cols, t ∈ kTypeAttrs) :
    ∀ {args : List SqlExpr} {bs : List (BoundExpr × TypeAttr)},
      bindArgs rowDesc args = .ok bs → CheckedArgs cols (bs.map Prod.fst)
  | [], bs, done => by
      simp only [bindArgs, Except.ok.injEq] at done
      subst done
      simp [CheckedArgs]
  | a :: args, bs, done => by
      simp only [bindArgs, Res.bind_eq_ok, Res.pure_eq_ok] at done
      obtain ⟨⟨b, t⟩, a_done, bs, args_done, rfl⟩ := done
      simp only [List.map_cons, CheckedArgs]
      exact ⟨bindExpr_checked desc_cols seeds a_done, bindArgs_checked desc_cols seeds args_done⟩
end

/-! ## Soundness -/

/-- The column types an expression is bound against: those of the row structure,
none in a constant context. -/
def colTypesOf (rowDesc : Option RowDesc) : List TypeAttr :=
  match rowDesc with
  | some desc => desc.colTypes
  | none => []

/-- An expression the binder accepts with type `t` evaluates, on every row that
fits the columns, to NULL or a value of type `t` in range, or raises an
arithmetic error or a mismatch. -/
theorem bindExpr_sound {rowDesc : Option RowDesc} {e : SqlExpr} {b : BoundExpr} {t : TypeAttr}
    {row : Option Row} (bound : bindExpr rowDesc e = .ok (b, t))
    (seeds : ∀ t ∈ colTypesOf rowDesc, t ∈ kTypeAttrs)
    (row_fits : RowFits (colTypesOf rowDesc) row) :
    Safe (evalBound b row) fun v => Fits v t := by
  have desc_cols : ∀ desc ∈ rowDesc, desc.colTypes = colTypesOf rowDesc := by
    rintro desc mem
    rw [Option.mem_def.mp mem]
    rfl
  exact evalBound_sound row_fits (bindExpr_typed desc_cols seeds bound)
    (bindExpr_checked desc_cols seeds bound)

/-- The sum of an int column and 1 on a row that holds the largest int. -/
theorem bindExpr_sound_overflow :
    ∃ b, bindExpr (some ⟨[("a", 0)], [kInt]⟩)
        (.binaryOp .add (.identifier "a") (.int (ascii "1"))) = .ok (b, kInt) ∧
      Safe (evalBound b (some { values := [intVal kInt 2147483647] })) fun v => Fits v kInt := by
  have bound : bindExpr (some ⟨[("a", 0)], [kInt]⟩)
      (.binaryOp .add (.identifier "a") (.int (ascii "1"))) =
        .ok (.arith .add (.colRef 0 kInt) (.const (intVal kInt 1)) kInt, kInt) := rfl
  refine ⟨_, bound, bindExpr_sound bound (by decide) fun i t at_i => ?_⟩
  cases i with
  | zero =>
      obtain rfl : kInt = t := Option.some.inj at_i
      have fits : Fits (intVal kInt 2147483647) kInt :=
        ⟨Value.OfType.mk (by decide) rfl trivial, intVal_inRange fun _ => by decide⟩
      exact ⟨_, _, rfl, rfl, fits⟩
  | succ i => simp [colTypesOf] at at_i

end MySimpleDb.Analyzer
