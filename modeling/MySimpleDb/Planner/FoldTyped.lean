import MySimpleDb.Planner.FoldEqual
import MySimpleDb.Analyzer.BindTyped

/-!
# Folding keeps static types

A folded tree has the type of the tree it came from, except that a boolean
tree may come out untyped when only an untyped operand of it is left.
-/

namespace MySimpleDb.Planner

open MySimpleDb.Lib MySimpleDb.Storage MySimpleDb.Analyzer MySimpleDb.Expr

/-- The type a folded tree may have in place of `t`. -/
def Narrows (t u : TypeAttr) : Prop :=
  u = t ∨ (t = kBool ∧ u = {})

theorem Narrows.eq {t u : TypeAttr} (narrows : Narrows t u) (ne : t ≠ kBool) : u = t :=
  narrows.resolve_right fun bool => ne bool.1

theorem Narrows.bool {t u : TypeAttr} (narrows : Narrows t u) (bool : boolOrUntyped t = true) :
    boolOrUntyped u = true := by
  rcases narrows with rfl | ⟨-, rfl⟩
  · exact bool
  · rfl

theorem narrows_of_bool {u : TypeAttr} (seed : SeedType u) (bool : boolOrUntyped u = true) :
    Narrows kBool u := by
  have each : ∀ u ∈ {} :: kTypeAttrs, boolOrUntyped u = true → u = kBool ∨ u = {} := by decide
  rcases each u (List.mem_cons.mpr seed) bool with rfl | rfl
  · exact Or.inl rfl
  · exact Or.inr ⟨rfl, rfl⟩

private theorem num_ne_bool {t : TypeAttr} (num : numOrUntyped t = true) : t ≠ kBool := by
  rintro rfl
  revert num
  decide

/-- A node may be replaced by the constant it evaluates to. -/
private theorem typed_const {cols : List TypeAttr} {node e' : BoundExpr} {t : TypeAttr}
    (typed : Typed cols node t) (folded : BoundExpr.const <$> evalConst node = .ok e') :
    Typed cols e' t := by
  cases done : evalConst node with
  | error _ => simp [done, Functor.map, Except.map] at folded
  | ok c =>
      simp only [done, Functor.map, Except.map, Except.ok.injEq] at folded
      subst folded
      simp only [Typed]
      have no_row : RowsOf cols none := by
        intro r mem
        cases mem
      exact ⟨evalBound_typed no_row typed done, typed_seed typed⟩

private theorem typed_null {cols : List TypeAttr} {t : TypeAttr} (seed : SeedType t) :
    Typed cols (.const nullVal) t := by
  simp only [Typed]
  exact ⟨Value.OfType.null rfl t, seed⟩

private theorem typed_boolConst (cols : List TypeAttr) (b : Bool) :
    Typed cols (.const (boolVal kBool b)) kBool := by
  simp only [Typed]
  exact ⟨boolVal_typed b, Or.inr (by decide)⟩

private theorem simplifyLogic_typed {cols : List TypeAttr} {op : LogicOp} {l r : BoundExpr}
    (typed : Typed cols (.logic op l r) kBool) :
    ∃ u, Typed cols (simplifyLogic op l r) u ∧ Narrows kBool u := by
  have whole := typed
  simp only [Typed] at typed
  obtain ⟨-, ⟨lt, l_typed, l_bool⟩, rt, r_typed, r_bool⟩ := typed
  have left := And.intro l_typed (narrows_of_bool (typed_seed l_typed) l_bool)
  have right := And.intro r_typed (narrows_of_bool (typed_seed r_typed) r_bool)
  cases op <;> simp only [simplifyLogic] <;> split_ifs
  · exact ⟨kBool, typed_boolConst cols false, Or.inl rfl⟩
  · exact ⟨rt, right⟩
  · exact ⟨lt, left⟩
  · exact ⟨kBool, whole, Or.inl rfl⟩
  · exact ⟨kBool, typed_boolConst cols true, Or.inl rfl⟩
  · exact ⟨rt, right⟩
  · exact ⟨lt, left⟩
  · exact ⟨kBool, whole, Or.inl rfl⟩

private theorem simplifyNot_typed {cols : List TypeAttr} {x : BoundExpr}
    (typed : Typed cols (.not x) kBool) :
    ∃ u, Typed cols (simplifyNot x) u ∧ Narrows kBool u := by
  have whole := typed
  cases x with
  | not y =>
      simp only [Typed] at typed
      obtain ⟨-, _, ⟨-, u, y_typed, y_bool⟩, -⟩ := typed
      exact ⟨u, y_typed, narrows_of_bool (typed_seed y_typed) y_bool⟩
  | cmp op l r =>
      simp only [Typed] at typed
      obtain ⟨-, _, ⟨-, l_typed, r_typed⟩, -⟩ := typed
      refine ⟨kBool, ?_, Or.inl rfl⟩
      simp only [simplifyNot, Typed]
      exact ⟨trivial, l_typed, r_typed⟩
  | isNull y negate =>
      simp only [Typed] at typed
      obtain ⟨-, _, ⟨-, y_typed⟩, -⟩ := typed
      refine ⟨kBool, ?_, Or.inl rfl⟩
      simp only [simplifyNot, Typed]
      exact ⟨trivial, y_typed⟩
  | _ => exact ⟨kBool, whole, Or.inl rfl⟩

theorem simplifyCmp_typed {cols : List TypeAttr} {op : CmpOp} {l r : BoundExpr} {t : TypeAttr}
    (typed : Typed cols (.cmp op l r) t) : Typed cols (simplifyCmp op l r) t := by
  have whole := typed
  simp only [Typed] at typed
  obtain ⟨rfl, l_typed, -⟩ := typed
  have test : Typed cols (.isNull l true) kBool := by
    simp only [Typed]
    exact ⟨trivial, l_typed⟩
  have never := typed_boolConst cols false
  cases op <;> simp only [simplifyCmp] <;> split_ifs <;> assumption

mutual
/-- Folding keeps the static type. -/
theorem foldExpr_typed {cols : List TypeAttr} (weak : Bool) :
    ∀ {e e' : BoundExpr} {t : TypeAttr}, Typed cols e t → foldExpr weak e = .ok e' →
      ∃ u, Typed cols e' u ∧ Narrows t u
  | .const v, e', t, typed, folded => by
      simp only [foldExpr, Except.ok.injEq] at folded
      exact ⟨t, folded ▸ typed, Or.inl rfl⟩
  | .colRef i type, e', t, typed, folded => by
      simp only [foldExpr, Except.ok.injEq] at folded
      exact ⟨t, folded ▸ typed, Or.inl rfl⟩
  | .arith op left right type, e', t, typed, folded => by
      have seed := typed_seed typed
      simp only [Typed] at typed
      obtain ⟨rfl, lt, rt, l_typed, r_typed, l_num, r_num, found⟩ := typed
      simp only [foldExpr, Res.bind_eq_ok] at folded
      obtain ⟨l, l_folded, r, r_folded, folded⟩ := folded
      obtain ⟨lu, l_out, l_narrows⟩ := foldExpr_typed false l_typed l_folded
      obtain ⟨ru, r_out, r_narrows⟩ := foldExpr_typed false r_typed r_folded
      obtain rfl := l_narrows.eq (num_ne_bool l_num)
      obtain rfl := r_narrows.eq (num_ne_bool r_num)
      have node : Typed cols (.arith op l r type) type := by
        simp only [Typed]
        exact ⟨trivial, lu, ru, l_out, r_out, l_num, r_num, found⟩
      refine ⟨type, ?_, Or.inl rfl⟩
      split at folded
      · exact typed_const node folded
      · split at folded
        · obtain rfl := Res.pure_eq_ok.mp folded
          exact typed_null seed
        · obtain rfl := Res.pure_eq_ok.mp folded
          exact node
  | .neg operand type, e', t, typed, folded => by
      simp only [Typed] at typed
      obtain ⟨rfl, num, o_typed⟩ := typed
      simp only [foldExpr, Res.bind_eq_ok] at folded
      obtain ⟨x, x_folded, folded⟩ := folded
      obtain ⟨u, x_out, narrows⟩ := foldExpr_typed false o_typed x_folded
      obtain rfl := narrows.eq (num_ne_bool num)
      have node : Typed cols (.neg x u) u := by
        simp only [Typed]
        exact ⟨trivial, num, x_out⟩
      refine ⟨u, ?_, Or.inl rfl⟩
      split at folded
      · exact typed_const node folded
      · obtain rfl := Res.pure_eq_ok.mp folded
        exact node
  | .cmp op left right, e', t, typed, folded => by
      simp only [Typed] at typed
      obtain ⟨rfl, ⟨lt, l_typed⟩, rt, r_typed⟩ := typed
      simp only [foldExpr, Res.bind_eq_ok] at folded
      obtain ⟨l, l_folded, r, r_folded, folded⟩ := folded
      obtain ⟨lu, l_typed, -⟩ := foldExpr_typed false l_typed l_folded
      obtain ⟨ru, r_typed, -⟩ := foldExpr_typed false r_typed r_folded
      have node : Typed cols (.cmp op l r) kBool := by
        simp only [Typed]
        exact ⟨trivial, ⟨lu, l_typed⟩, ru, r_typed⟩
      refine ⟨kBool, ?_, Or.inl rfl⟩
      split at folded
      · exact typed_const node folded
      · split at folded
        · obtain rfl := Res.pure_eq_ok.mp folded
          exact typed_null (typed_seed node)
        · split at folded
          · obtain rfl := Res.pure_eq_ok.mp folded
            exact simplifyCmp_typed node
          · obtain rfl := Res.pure_eq_ok.mp folded
            exact node
  | .logic op left right, e', t, typed, folded => by
      simp only [Typed] at typed
      obtain ⟨rfl, ⟨lt, l_typed, l_bool⟩, rt, r_typed, r_bool⟩ := typed
      simp only [foldExpr, Res.bind_eq_ok] at folded
      obtain ⟨l, l_folded, r, r_folded, folded⟩ := folded
      obtain ⟨lu, l_typed, l_narrows⟩ := foldExpr_typed weak l_typed l_folded
      obtain ⟨ru, r_typed, r_narrows⟩ := foldExpr_typed weak r_typed r_folded
      have node : Typed cols (.logic op l r) kBool := by
        simp only [Typed]
        exact ⟨trivial, ⟨lu, l_typed, l_narrows.bool l_bool⟩, ru, r_typed,
          r_narrows.bool r_bool⟩
      split at folded
      · exact ⟨kBool, typed_const node folded, Or.inl rfl⟩
      · obtain rfl := Res.pure_eq_ok.mp folded
        exact simplifyLogic_typed node
  | .not operand, e', t, typed, folded => by
      simp only [Typed] at typed
      obtain ⟨rfl, u, o_typed, bool⟩ := typed
      simp only [foldExpr, Res.bind_eq_ok] at folded
      obtain ⟨x, x_folded, folded⟩ := folded
      obtain ⟨xu, x_typed, narrows⟩ := foldExpr_typed false o_typed x_folded
      have node : Typed cols (.not x) kBool := by
        simp only [Typed]
        exact ⟨trivial, xu, x_typed, narrows.bool bool⟩
      split at folded
      · exact ⟨kBool, typed_const node folded, Or.inl rfl⟩
      · obtain ⟨yu, y_typed, y_narrows⟩ := simplifyNot_typed node
        split at folded
        · rename_i op l r not_eq
          rw [not_eq] at y_typed
          obtain rfl := Res.pure_eq_ok.mp folded
          refine ⟨yu, ?_, y_narrows⟩
          split
          · exact simplifyCmp_typed y_typed
          · exact y_typed
        · obtain rfl := Res.pure_eq_ok.mp folded
          exact ⟨yu, y_typed, y_narrows⟩
  | .isNull operand negate, e', t, typed, folded => by
      simp only [Typed] at typed
      obtain ⟨rfl, u, o_typed⟩ := typed
      simp only [foldExpr, Res.bind_eq_ok] at folded
      obtain ⟨x, x_folded, folded⟩ := folded
      obtain ⟨xu, x_typed, -⟩ := foldExpr_typed false o_typed x_folded
      have node : Typed cols (.isNull x negate) kBool := by
        simp only [Typed]
        exact ⟨trivial, xu, x_typed⟩
      refine ⟨kBool, ?_, Or.inl rfl⟩
      split at folded
      · exact typed_const node folded
      · obtain rfl := Res.pure_eq_ok.mp folded
        exact node
  | .funcCall func name strictNull args type, e', t, typed, folded => by
      simp only [Typed] at typed
      obtain ⟨rfl, row, mem, rfl, rfl, rfl, rfl, a_typed⟩ := typed
      simp only [foldExpr, Res.bind_eq_ok] at folded
      obtain ⟨args', a_folded, folded⟩ := folded
      have no_bool : ∀ row ∈ kFuncRows, ∀ t ∈ row.args, t ≠ kBool := by decide
      have node : Typed cols (.funcCall row.id row.name row.strictNull args' row.ret) row.ret := by
        simp only [Typed]
        exact ⟨trivial, row, mem, rfl, rfl, rfl, rfl,
          foldArgs_typed (no_bool row mem) a_typed a_folded⟩
      refine ⟨row.ret, ?_, Or.inl rfl⟩
      split at folded
      · exact typed_const node folded
      · obtain rfl := Res.pure_eq_ok.mp folded
        exact node
  | .cast operand type length scale, e', t, typed, folded => by
      simp only [Typed] at typed
      obtain ⟨rfl, mem, u, o_typed⟩ := typed
      simp only [foldExpr, Res.bind_eq_ok] at folded
      obtain ⟨x, x_folded, folded⟩ := folded
      obtain ⟨xu, x_typed, -⟩ := foldExpr_typed false o_typed x_folded
      have node : Typed cols (.cast x type length scale) type := by
        simp only [Typed]
        exact ⟨trivial, mem, xu, x_typed⟩
      refine ⟨type, ?_, Or.inl rfl⟩
      split at folded
      · exact typed_const node folded
      · obtain rfl := Res.pure_eq_ok.mp folded
        exact node

theorem foldArgs_typed {cols : List TypeAttr} :
    ∀ {args args' : List BoundExpr} {ts : List TypeAttr}, (∀ t ∈ ts, t ≠ kBool) →
      TypedArgs cols args ts → foldArgs args = .ok args' → TypedArgs cols args' ts
  | [], args', ts, _, typed, folded => by
      simp only [foldArgs, Except.ok.injEq] at folded
      exact folded ▸ typed
  | a :: args, args', ts, no_bool, typed, folded => by
      simp only [TypedArgs] at typed
      obtain ⟨t, rest, rfl, a_typed, rest_typed⟩ := typed
      simp only [foldArgs, Res.bind_eq_ok, Res.pure_eq_ok] at folded
      obtain ⟨a', a_folded, rest', rest_folded, rfl⟩ := folded
      obtain ⟨u, a_out, narrows⟩ := foldExpr_typed false a_typed a_folded
      obtain rfl := narrows.eq (no_bool t List.mem_cons_self)
      simp only [TypedArgs]
      exact ⟨u, rest, rfl, a_out,
        foldArgs_typed (fun v mem => no_bool v (List.mem_cons_of_mem _ mem)) rest_typed
          rest_folded⟩
end

/-- A logic node over folded operands. -/
theorem logic_folded_typed {cols : List TypeAttr} {weak : Bool} {op : LogicOp}
    {left right l r : BoundExpr} {lt rt : TypeAttr} (l_typed : Typed cols left lt)
    (l_bool : boolOrUntyped lt = true) (l_folded : foldExpr weak left = .ok l)
    (r_typed : Typed cols right rt) (r_bool : boolOrUntyped rt = true)
    (r_folded : foldExpr weak right = .ok r) : Typed cols (.logic op l r) kBool := by
  obtain ⟨lu, l_out, l_narrows⟩ := foldExpr_typed weak l_typed l_folded
  obtain ⟨ru, r_out, r_narrows⟩ := foldExpr_typed weak r_typed r_folded
  simp only [Typed]
  exact ⟨trivial, ⟨lu, l_out, l_narrows.bool l_bool⟩, ru, r_out, r_narrows.bool r_bool⟩

/-- NOT over a folded operand. -/
theorem not_folded_typed {cols : List TypeAttr} {operand x : BoundExpr} {u : TypeAttr}
    (typed : Typed cols operand u) (bool : boolOrUntyped u = true)
    (folded : foldExpr false operand = .ok x) : Typed cols (.not x) kBool := by
  obtain ⟨xu, x_out, narrows⟩ := foldExpr_typed false typed folded
  simp only [Typed]
  exact ⟨trivial, xu, x_out, narrows.bool bool⟩

/-! ## Typed calls are strict -/

mutual
theorem typed_strictCalls {cols : List TypeAttr} :
    ∀ {e : BoundExpr} {t : TypeAttr}, Typed cols e t → StrictCalls e
  | .const _, _, _ | .colRef _ _, _, _ => by simp only [StrictCalls]
  | .arith .., _, typed => by
      simp only [Typed] at typed
      obtain ⟨-, lt, rt, l_typed, r_typed, -⟩ := typed
      simp only [StrictCalls]
      exact ⟨typed_strictCalls l_typed, typed_strictCalls r_typed⟩
  | .neg .., _, typed => by
      simp only [Typed] at typed
      simp only [StrictCalls]
      exact typed_strictCalls typed.2.2
  | .cmp .., _, typed => by
      simp only [Typed] at typed
      obtain ⟨-, ⟨lt, l_typed⟩, rt, r_typed⟩ := typed
      simp only [StrictCalls]
      exact ⟨typed_strictCalls l_typed, typed_strictCalls r_typed⟩
  | .logic .., _, typed => by
      simp only [Typed] at typed
      obtain ⟨-, ⟨lt, l_typed, -⟩, rt, r_typed, -⟩ := typed
      simp only [StrictCalls]
      exact ⟨typed_strictCalls l_typed, typed_strictCalls r_typed⟩
  | .not .., _, typed => by
      simp only [Typed] at typed
      obtain ⟨-, u, x_typed, -⟩ := typed
      simp only [StrictCalls]
      exact typed_strictCalls x_typed
  | .isNull .., _, typed => by
      simp only [Typed] at typed
      obtain ⟨-, u, x_typed⟩ := typed
      simp only [StrictCalls]
      exact typed_strictCalls x_typed
  | .funcCall .., _, typed => by
      simp only [Typed] at typed
      obtain ⟨-, row, mem, -, -, strict_eq, -, a_typed⟩ := typed
      have each : ∀ row ∈ kFuncRows, row.strictNull = true := by decide
      simp only [StrictCalls]
      exact ⟨strict_eq ▸ each row mem, typedArgs_strictCalls a_typed⟩
  | .cast .., _, typed => by
      simp only [Typed] at typed
      obtain ⟨-, -, u, x_typed⟩ := typed
      simp only [StrictCalls]
      exact typed_strictCalls x_typed

theorem typedArgs_strictCalls {cols : List TypeAttr} :
    ∀ {args : List BoundExpr} {ts : List TypeAttr}, TypedArgs cols args ts →
      ArgsStrictCalls args
  | [], _, _ => by simp only [ArgsStrictCalls]
  | _ :: _, _, typed => by
      simp only [TypedArgs] at typed
      obtain ⟨t, rest, -, a_typed, rest_typed⟩ := typed
      simp only [ArgsStrictCalls]
      exact ⟨typed_strictCalls a_typed, typedArgs_strictCalls rest_typed⟩
end

end MySimpleDb.Planner
