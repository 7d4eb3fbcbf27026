import MySimpleDb.Expr.Typed

/-!
# Binding gives typed trees

The static type the binder computes is a type of the tree it builds, so every
fact about typed trees holds of bound ones.
-/

namespace MySimpleDb.Analyzer

open MySimpleDb.Lib MySimpleDb.Storage MySimpleDb.Parser MySimpleDb.Expr

/-! ## Types are seed types -/

private theorem arithType_seed {lt rt t : TypeAttr} (l_seed : SeedType lt) (r_seed : SeedType rt)
    (found : arithType lt rt = .ok t) : SeedType t := by
  unfold arithType at found
  split at found
  · have double_eq : requireType "double" = .ok kDouble := rfl
    rw [double_eq] at found
    cases found
    exact Or.inr (by decide)
  · split at found
    · cases found
      exact l_seed
    · cases found
      exact r_seed

/-- Static types are seed types. -/
theorem typed_seed {cols : List TypeAttr} :
    ∀ {e : BoundExpr} {t : TypeAttr}, Typed cols e t → SeedType t
  | .const v, t, typed => by
      simp only [Typed] at typed
      exact typed.2
  | .colRef i type, t, typed => by
      simp only [Typed] at typed
      exact Or.inr typed.2.2
  | .arith op left right type, t, typed => by
      simp only [Typed] at typed
      obtain ⟨-, lt, rt, l_typed, r_typed, -, -, found⟩ := typed
      exact arithType_seed (typed_seed l_typed) (typed_seed r_typed) found
  | .neg operand type, t, typed => by
      simp only [Typed] at typed
      exact typed_seed typed.2.2
  | .cmp op left right, t, typed => by
      simp only [Typed] at typed
      exact Or.inr (typed.1 ▸ by decide)
  | .logic op left right, t, typed => by
      simp only [Typed] at typed
      exact Or.inr (typed.1 ▸ by decide)
  | .not operand, t, typed => by
      simp only [Typed] at typed
      exact Or.inr (typed.1 ▸ by decide)
  | .isNull operand negate, t, typed => by
      simp only [Typed] at typed
      exact Or.inr (typed.1 ▸ by decide)
  | .funcCall func name strictNull args type, t, typed => by
      simp only [Typed] at typed
      obtain ⟨-, row, mem, -, -, -, rfl, -⟩ := typed
      have each : ∀ row ∈ kFuncRows, row.ret ∈ kTypeAttrs := by decide
      exact Or.inr (each row mem)
  | .cast operand type length scale, t, typed => by
      simp only [Typed] at typed
      exact Or.inr typed.2.1

/-- Seed types are told apart by their ids. -/
private theorem seedType_ext {t u : TypeAttr} (t_seed : SeedType t) (u_seed : SeedType u)
    (id_eq : t.id = u.id) : t = u := by
  have each : ∀ t ∈ {} :: kTypeAttrs, ∀ u ∈ {} :: kTypeAttrs, t.id = u.id → t = u := by decide
  exact each t (List.mem_cons.mpr t_seed) u (List.mem_cons.mpr u_seed) id_eq

private theorem typedArgs_seed {cols : List TypeAttr} {args : List BoundExpr}
    {ts : List TypeAttr} (typed : TypedArgs cols args ts) : ∀ t ∈ ts, SeedType t := by
  induction args generalizing ts with
  | nil =>
      simp only [TypedArgs] at typed
      simp [typed]
  | cons a args ih =>
      simp only [TypedArgs] at typed
      obtain ⟨t, rest, rfl, a_typed, args_typed⟩ := typed
      intro u u_mem
      rcases List.mem_cons.mp u_mem with rfl | u_mem
      · exact typed_seed a_typed
      · exact ih args_typed u u_mem

private theorem map_id_inj {ts us : List TypeAttr} (ts_seed : ∀ t ∈ ts, SeedType t)
    (us_seed : ∀ u ∈ us, SeedType u) (ids : ts.map TypeAttr.id = us.map TypeAttr.id) :
    ts = us := by
  induction ts generalizing us with
  | nil =>
      cases us with
      | nil => rfl
      | cons u us => simp at ids
  | cons t ts ih =>
      cases us with
      | nil => simp at ids
      | cons u us =>
          simp only [List.map_cons, List.cons.injEq] at ids
          rw [seedType_ext (ts_seed t List.mem_cons_self) (us_seed u List.mem_cons_self) ids.1,
            ih (fun t mem => ts_seed t (List.mem_cons_of_mem _ mem))
              (fun u mem => us_seed u (List.mem_cons_of_mem _ mem)) ids.2]

/-- The overload found declares exactly the types of the arguments. -/
private theorem matchOverload_typed {cols : List TypeAttr} {name : String}
    {args : List BoundExpr} {ts : List TypeAttr} {row : FuncRow}
    (typed : TypedArgs cols args ts) (found : matchOverload (funcs name) ts = some row) :
    row ∈ kFuncRows ∧ row.name = name ∧ TypedArgs cols args row.args := by
  have in_funcs := List.mem_of_find?_eq_some found
  have ids := List.find?_some found
  simp only [decide_eq_true_eq] at ids
  simp only [funcs, List.mem_filter, decide_eq_true_eq] at in_funcs
  have each : ∀ row ∈ kFuncRows, ∀ t ∈ row.args, t ∈ kTypeAttrs := by decide
  have args_eq : row.args = ts :=
    map_id_inj (fun t mem => Or.inr (each row in_funcs.1 t mem)) (typedArgs_seed typed) ids
  exact ⟨in_funcs.1, in_funcs.2, args_eq ▸ typed⟩

/-! ## The binder -/

/-- Types of a cast target. -/
private theorem mapTypeSpec_mem {type : String} {length scale : Option Int} {t : TypeAttr}
    {len scl : Nat} (done : mapTypeSpec type length scale = .ok (t, len, scl)) :
    t ∈ kTypeAttrs := by
  simp only [mapTypeSpec, Res.bind_eq_ok, Res.pure_eq_ok, Prod.mk.injEq] at done
  obtain ⟨row, found, -, -, rfl, -, -⟩ := done
  unfold findType at found
  split at found
  · rename_i named
    cases found
    exact List.mem_map_of_mem (List.mem_of_find?_eq_some named)
  · exact absurd found dbRaise_ne_ok

private theorem const_typed {cols : List TypeAttr} {t : TypeAttr} {box : Box}
    (mem : t ∈ kTypeAttrs) (rep : t.rep = box.rep) (finite : box.Finite) :
    Typed cols (.const ⟨t, box⟩) t := by
  simp only [Typed]
  exact ⟨Value.OfType.mk mem rep finite, Or.inr mem⟩

theorem checked_ok {α : Type} {c : Prop} [Decidable c] {code : ErrCode} {text : String}
    {rest : Res α} {a : α}
    (done : (if c then do dbRaise code text; rest else rest) = .ok a) : ¬c ∧ rest = .ok a := by
  split at done
  · exact absurd done dbRaise_bind_ne_ok
  · rename_i holds
    exact ⟨holds, done⟩

mutual
/-- The binder's static type is a type of the tree it builds. -/
theorem bindExpr_typed {rowDesc : Option RowDesc} {cols : List TypeAttr}
    (desc_cols : ∀ desc ∈ rowDesc, desc.colTypes = cols) (seeds : ∀ t ∈ cols, t ∈ kTypeAttrs) :
    ∀ {e : SqlExpr} {b : BoundExpr} {t : TypeAttr}, bindExpr rowDesc e = .ok (b, t) →
      Typed cols b t
  | .int text, b, t, done => by
      simp only [bindExpr] at done
      split at done
      · exact absurd done dbRaise_ne_ok
      · rename_i v parsed
        simp only [Res.bind_eq_ok, Res.pure_eq_ok, Prod.mk.injEq] at done
        obtain ⟨type, found, rfl, rfl⟩ := done
        split at found
        · obtain rfl : kInt = type := Except.ok.inj found
          exact const_typed (by decide) rfl trivial
        · obtain rfl : kBigint = type := Except.ok.inj found
          exact const_typed (by decide) rfl trivial
  | .float text, b, t, done => by
      simp only [bindExpr] at done
      split at done
      · exact absurd done dbRaise_ne_ok
      · rename_i v parsed
        simp only [Res.bind_eq_ok, Res.pure_eq_ok, Prod.mk.injEq] at done
        obtain ⟨type, found, rfl, rfl⟩ := done
        obtain rfl : kDouble = type := Except.ok.inj found
        exact const_typed (by decide) rfl (fromChars_isFinite (by decide) parsed)
  | .decimal text, b, t, done => by
      simp only [bindExpr, Res.bind_eq_ok, Res.pure_eq_ok, Prod.mk.injEq] at done
      obtain ⟨d, -, type, found, rfl, rfl⟩ := done
      obtain rfl : kNumeric = type := Except.ok.inj found
      exact const_typed (by decide) rfl trivial
  | .string value, b, t, done => by
      simp only [bindExpr, Res.bind_eq_ok, Res.pure_eq_ok, Prod.mk.injEq] at done
      obtain ⟨type, found, rfl, rfl⟩ := done
      obtain rfl : kVarChar = type := Except.ok.inj found
      exact const_typed (by decide) rfl trivial
  | .null, b, t, done => by
      simp only [bindExpr, Res.pure_eq_ok, Prod.mk.injEq] at done
      obtain ⟨rfl, rfl⟩ := done
      simp only [Typed]
      exact ⟨Value.OfType.null rfl _, Or.inl rfl⟩
  | .bool value, b, t, done => by
      simp only [bindExpr, Res.bind_eq_ok, Res.pure_eq_ok, Prod.mk.injEq] at done
      obtain ⟨type, found, rfl, rfl⟩ := done
      obtain rfl : kBool = type := Except.ok.inj found
      exact const_typed (by decide) rfl trivial
  | .identifier name, b, t, done => by
      simp only [bindExpr] at done
      cases rowDesc with
      | none => exact absurd done dbRaise_ne_ok
      | some desc =>
          obtain rfl := desc_cols desc rfl
          cases found : desc.cols.lookup name with
          | none => simp [found] at done
          | some i =>
              simp only [found] at done
              split at done
              · rename_i type at_i
                simp only [Res.pure_eq_ok, Prod.mk.injEq] at done
                obtain ⟨rfl, rfl⟩ := done
                simp only [Typed]
                exact ⟨trivial, at_i, seeds _ (List.mem_of_getElem? at_i)⟩
              · cases done
  | .binaryOp op left right, b, t, done => by
      simp only [bindExpr, Res.bind_eq_ok, Prod.exists] at done
      obtain ⟨l, lt, l_done, r, rt, r_done, done⟩ := done
      obtain ⟨num, done⟩ := checked_ok done
      simp only [Res.bind_eq_ok, Res.pure_eq_ok, Prod.mk.injEq] at done
      obtain ⟨type, found, rfl, rfl⟩ := done
      simp only [Bool.or_eq_true, Bool.not_eq_true', not_or, Bool.not_eq_false] at num
      simp only [Typed]
      exact ⟨trivial, lt, rt, bindExpr_typed desc_cols seeds l_done,
        bindExpr_typed desc_cols seeds r_done, num.1, num.2, found⟩
  | .unaryOp op operand, b, t, done => by
      simp only [bindExpr, Res.bind_eq_ok, Prod.exists] at done
      obtain ⟨e, et, e_done, done⟩ := done
      obtain ⟨num, done⟩ := checked_ok done
      have e_typed := bindExpr_typed desc_cols seeds e_done
      cases op with
      | plus =>
          simp only [Res.pure_eq_ok, Prod.mk.injEq] at done
          obtain ⟨rfl, rfl⟩ := done
          exact e_typed
      | minus =>
          simp only [Res.pure_eq_ok, Prod.mk.injEq] at done
          obtain ⟨rfl, rfl⟩ := done
          simp only [Typed]
          exact ⟨trivial, by simpa using num, e_typed⟩
  | .compare op left right, b, t, done => by
      simp only [bindExpr, Res.bind_eq_ok, Prod.exists, Res.pure_eq_ok, Prod.mk.injEq] at done
      obtain ⟨l, lt, l_done, r, rt, r_done, -, -, type, found, rfl, rfl⟩ := done
      simp only [Typed]
      exact ⟨(Except.ok.inj found).symm, ⟨lt, bindExpr_typed desc_cols seeds l_done⟩,
        rt, bindExpr_typed desc_cols seeds r_done⟩
  | .logic op left right, b, t, done => by
      simp only [bindExpr, Res.bind_eq_ok, Prod.exists] at done
      obtain ⟨l, lt, l_done, r, rt, r_done, done⟩ := done
      obtain ⟨bool, done⟩ := checked_ok done
      simp only [Res.bind_eq_ok, Res.pure_eq_ok, Prod.mk.injEq] at done
      obtain ⟨type, found, rfl, rfl⟩ := done
      simp only [Bool.or_eq_true, Bool.not_eq_true', not_or, Bool.not_eq_false] at bool
      simp only [Typed]
      exact ⟨(Except.ok.inj found).symm, ⟨lt, bindExpr_typed desc_cols seeds l_done, bool.1⟩,
        rt, bindExpr_typed desc_cols seeds r_done, bool.2⟩
  | .not operand, b, t, done => by
      simp only [bindExpr, Res.bind_eq_ok, Prod.exists] at done
      obtain ⟨e, et, e_done, done⟩ := done
      obtain ⟨bool, done⟩ := checked_ok done
      simp only [Res.bind_eq_ok, Res.pure_eq_ok, Prod.mk.injEq] at done
      obtain ⟨type, found, rfl, rfl⟩ := done
      simp only [Typed]
      exact ⟨(Except.ok.inj found).symm, et, bindExpr_typed desc_cols seeds e_done,
        by simpa using bool⟩
  | .isNull operand negate, b, t, done => by
      simp only [bindExpr, Res.bind_eq_ok, Prod.exists, Res.pure_eq_ok, Prod.mk.injEq] at done
      obtain ⟨e, et, e_done, type, found, rfl, rfl⟩ := done
      simp only [Typed]
      exact ⟨(Except.ok.inj found).symm, et, bindExpr_typed desc_cols seeds e_done⟩
  | .between expr lo hi, b, t, done => by
      simp only [bindExpr, Res.bind_eq_ok, Prod.exists, Res.pure_eq_ok, Prod.mk.injEq] at done
      obtain ⟨x1, xt1, x1_done, lo, lot, lo_done, x2, xt2, x2_done, hi, hit, hi_done, -, -, -, -,
        type, found, rfl, rfl⟩ := done
      simp only [Typed]
      exact ⟨(Except.ok.inj found).symm,
        ⟨kBool, ⟨rfl, ⟨xt1, bindExpr_typed desc_cols seeds x1_done⟩,
          lot, bindExpr_typed desc_cols seeds lo_done⟩, rfl⟩,
        kBool, ⟨rfl, ⟨xt2, bindExpr_typed desc_cols seeds x2_done⟩,
          hit, bindExpr_typed desc_cols seeds hi_done⟩, rfl⟩
  | .funcCall name args, b, t, done => by
      simp only [bindExpr] at done
      split at done
      · exact absurd done dbRaise_ne_ok
      · simp only [Res.bind_eq_ok] at done
        obtain ⟨bound, a_done, done⟩ := done
        have a_typed := bindArgs_typed desc_cols seeds a_done
        split at done
        · exact absurd done dbRaise_ne_ok
        · rename_i row found
          simp only [Res.pure_eq_ok, Prod.mk.injEq] at done
          obtain ⟨rfl, rfl⟩ := done
          obtain ⟨mem, name_eq, args_typed⟩ := matchOverload_typed a_typed found
          simp only [Typed]
          exact ⟨trivial, row, mem, rfl, name_eq, rfl, rfl, args_typed⟩
  | .cast operand target, b, t, done => by
      simp only [bindExpr, Res.bind_eq_ok, Prod.exists] at done
      obtain ⟨e, et, e_done, type, len, scl, spec, done⟩ := done
      have e_typed := bindExpr_typed desc_cols seeds e_done
      split at done
      · rename_i plain
        simp only [Res.pure_eq_ok, Prod.mk.injEq] at done
        obtain ⟨rfl, rfl⟩ := done
        exact plain.1 ▸ e_typed
      · simp only [Res.pure_eq_ok, Prod.mk.injEq] at done
        obtain ⟨rfl, rfl⟩ := done
        simp only [Typed]
        exact ⟨trivial, mapTypeSpec_mem spec, et, e_typed⟩

theorem bindArgs_typed {rowDesc : Option RowDesc} {cols : List TypeAttr}
    (desc_cols : ∀ desc ∈ rowDesc, desc.colTypes = cols) (seeds : ∀ t ∈ cols, t ∈ kTypeAttrs) :
    ∀ {args : List SqlExpr} {bs : List (BoundExpr × TypeAttr)},
      bindArgs rowDesc args = .ok bs → TypedArgs cols (bs.map Prod.fst) (bs.map Prod.snd)
  | [], bs, done => by
      simp only [bindArgs, Except.ok.injEq] at done
      subst done
      simp [TypedArgs]
  | a :: args, bs, done => by
      simp only [bindArgs, Res.bind_eq_ok, Res.pure_eq_ok] at done
      obtain ⟨⟨b, t⟩, a_done, bs, args_done, rfl⟩ := done
      simp only [List.map_cons, TypedArgs]
      exact ⟨t, _, rfl, bindExpr_typed desc_cols seeds a_done,
        bindArgs_typed desc_cols seeds args_done⟩
end

end MySimpleDb.Analyzer
