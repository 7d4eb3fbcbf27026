import MySimpleDb.Planner.FoldSound

/-!
# Folding a condition

In a weak position, NULL and false are the same, and comparisons of equal
sides are eliminated.  The elimination is the one rule that can go wrong: it
trusts structural equality, which overlooks the scale of a cast and the sign
of a zero.  Where no comparison that the pass eliminates differs in these, the
folded condition holds of exactly the same rows.
-/

namespace MySimpleDb.Planner

open MySimpleDb.Lib MySimpleDb.Storage MySimpleDb.Parser MySimpleDb.Analyzer MySimpleDb.Expr

/-- Where `x` returns, `y` returns a value of the same truth. -/
def SameTruth (x y : Res Value) : Prop :=
  ∀ v, x = .ok v → ∃ w, y = .ok w ∧ truthOf w = truthOf v

theorem Agrees.sameTruth {x y : Res Value} (agrees : Agrees x y) : SameTruth x y := by
  intro v done
  obtain ⟨w, y_done, same⟩ := agrees v done
  exact ⟨w, y_done, same.truthOf.symm⟩

theorem SameTruth.trans {x y z : Res Value} (xy : SameTruth x y) (yz : SameTruth y z) :
    SameTruth x z := by
  intro v done
  obtain ⟨w, y_done, w_truth⟩ := xy v done
  obtain ⟨u, z_done, u_truth⟩ := yz w y_done
  exact ⟨u, z_done, u_truth.trans w_truth⟩

/-! ## A value compared with itself -/

private theorem f64Cmp_self (x : F64) : f64Cmp x x = 0 := by
  simp [f64Cmp]

private theorem decCmp_self (d : DecimalVal) : decCmp d d = 0 := by
  unfold decCmp
  simp only [Bool.or_self, Bool.and_self, bne_self_eq_false, Bool.false_eq_true, if_false,
    ne_eq, not_true_eq_false]
  split_ifs <;> rfl

private theorem bytesCompare_self (s : Bytes) : bytesCompare s s = 0 := by
  induction s with
  | nil => rfl
  | cons c s ih => simp [bytesCompare, ih]

private theorem numCmp_self {v : Value} {c : Int} (done : numCmp v v = .ok c) : c = 0 := by
  unfold numCmp at done
  split at done
  · simp_all
  · simp_all [decCmp_self]
  · simp_all
  · simp_all
  · simp only [Res.bind_eq_ok, Res.pure_eq_ok] at done
    obtain ⟨l, l_done, r, r_done, rfl⟩ := done
    obtain rfl : l = r := Except.ok.inj (l_done.symm.trans r_done)
    exact f64Cmp_self l

theorem valueCmp_self {v : Value} {c : Int} (done : valueCmp v v = .ok c) : c = 0 := by
  cases null : valueIsNull v with
  | true => simpa [valueCmp, null, eq_comm] using done
  | false =>
      simp only [valueCmp, null, Bool.or_self, Bool.false_eq_true, if_false] at done
      cases family : v.type.family with
      | none => simp [family, notComparable] at done
      | num =>
          simp only [family, if_true] at done
          exact numCmp_self done
      | text =>
          simp only [family, if_true] at done
          split at done
          · simp_all [bytesCompare_self]
          · exact absurd done notComparable_ne_ok
      | bool =>
          simp only [family, if_true] at done
          split at done
          · simp_all
          · exact absurd done notComparable_ne_ok

/-- A value compared with itself: UNKNOWN on NULL, else what equality says. -/
private theorem cmpValue_self {op : CmpOp} {v w : Value} (done : cmpValue op v v = .ok w) :
    truthOf w = .ok (!valueIsNull v && cmpHolds op 0) := by
  unfold cmpValue at done
  split at done
  · rename_i null
    rw [Bool.or_self] at null
    cases done
    simp [truthOf, nullVal, null]
  · rename_i not_null
    rw [Bool.or_self, Bool.not_eq_true] at not_null
    simp only [Res.bind_eq_ok, Res.pure_eq_ok] at done
    obtain ⟨c, compared, rfl⟩ := done
    rw [valueCmp_self compared, not_null]
    simp [truthOf, boolVal]

/-! ## Self comparison -/

/-- The elimination of a comparison whose sides, when they are taken for equal,
do not differ in what the test overlooks. -/
theorem simplifyCmp_sameTruth {cols : List TypeAttr} {op : CmpOp} {l r : BoundExpr} {t : TypeAttr}
    (row : Row) (typed : Typed cols (.cmp op l r) t)
    (tight : exprEqual l r = true → sameDetails l r = true) :
    SameTruth (evalBound (.cmp op l r) (some row))
      (evalBound (simplifyCmp op l r) (some row)) := by
  have strict := typed_strictCalls typed
  simp only [StrictCalls] at strict
  intro v whole
  cases equal : exprEqual l r with
  | false =>
      have kept : simplifyCmp op l r = .cmp op l r := by
        cases op <;> simp [simplifyCmp, equal]
      exact ⟨v, kept ▸ whole, rfl⟩
  | true =>
      have sides := exprEqual_sound (some row) strict.1 strict.2 equal (tight equal)
      have done := whole
      simp only [evalBound, ← sides, Res.bind_eq_ok] at done
      obtain ⟨lv, l_done, rv, r_done, compared⟩ := done
      obtain rfl : lv = rv := Except.ok.inj (l_done.symm.trans r_done)
      have truth := cmpValue_self compared
      cases op <;> simp only [simplifyCmp, equal, if_true]
      case eq | le | ge =>
        refine ⟨isNullValue true lv, by simp [evalBound, l_done, pure, Except.pure], ?_⟩
        rw [truth]
        cases null : valueIsNull lv <;> simp [isNullValue, truthOf, boolVal, null, cmpHolds]
      case ne | lt | gt =>
        refine ⟨boolVal kBool false, by simp [evalBound, constValue, boolVal], ?_⟩
        rw [truth]
        cases valueIsNull lv <;> simp [truthOf, boolVal, cmpHolds]

/-! ## Logic nodes -/

/-- Truth of a logic node from the truths of its sides. -/
def combine (op : LogicOp) (a b : Bool) : Bool :=
  match op with
  | .and => a && b
  | .or => a || b

/-- The operands of an operator that returned have a truth, and its own follows
from them. -/
theorem logicValue_truth {op : LogicOp} {lv rv v : Value} (done : logicValue op lv rv = .ok v) :
    ∃ a b, truthOf lv = .ok a ∧ truthOf rv = .ok b ∧ truthOf v = .ok (combine op a b) := by
  simp only [logicValue, Res.bind_eq_ok, logicOperand_eq_ok] at done
  obtain ⟨lb, l_box, rb, r_box, done⟩ := done
  refine ⟨lb.getD false, rb.getD false, ?_, ?_, ?_⟩
  · cases lb <;> simp [truthOf, l_box]
  · cases rb <;> simp [truthOf, r_box]
  · cases op <;> rcases lb with _ | _ | _ <;> rcases rb with _ | _ | _ <;>
      simp at done <;> obtain rfl := Res.pure_eq_ok.mp done <;> rfl

/-- Operands with a truth can be combined. -/
theorem logicValue_of_truth (op : LogicOp) {lv rv : Value} {a b : Bool}
    (l_truth : truthOf lv = .ok a) (r_truth : truthOf rv = .ok b) :
    ∃ v, logicValue op lv rv = .ok v ∧ truthOf v = .ok (combine op a b) := by
  have operand : ∀ {u : Value} {c : Bool}, truthOf u = .ok c → ∃ d, logicOperand u = .ok d := by
    intro u c truth
    cases box : u.box <;> simp [truthOf, box] at truth <;> simp [logicOperand, box]
  obtain ⟨lb, l_operand⟩ := operand l_truth
  obtain ⟨rb, r_operand⟩ := operand r_truth
  have returns : ∃ v, logicValue op lv rv = .ok v := by
    simp only [logicValue, l_operand, r_operand, Res.bind_ok]
    split_ifs <;> exact ⟨_, rfl⟩
  obtain ⟨v, done⟩ := returns
  obtain ⟨a', b', l_truth', r_truth', v_truth⟩ := logicValue_truth done
  obtain rfl : a = a' := Except.ok.inj (l_truth.symm.trans l_truth')
  obtain rfl : b = b' := Except.ok.inj (r_truth.symm.trans r_truth')
  exact ⟨v, done, v_truth⟩

private theorem truthOf_constBool {e : BoundExpr} {b : Bool} {row : Option Row} {v : Value}
    (found : constBool e = some b) (done : evalBound e row = .ok v) : truthOf v = .ok b := by
  simp [truthOf, constBool_value found done]

/-- A logic node over operands of known truth, simplified. -/
private theorem simplifyLogic_truth {op : LogicOp} {l r : BoundExpr} {row : Row} {lv rv : Value}
    {a b : Bool} (l_done : evalBound l (some row) = .ok lv) (r_done : evalBound r (some row) = .ok rv)
    (l_truth : truthOf lv = .ok a) (r_truth : truthOf rv = .ok b) :
    ∃ w, evalBound (simplifyLogic op l r) (some row) = .ok w ∧
      truthOf w = .ok (combine op a b) := by
  rw [simplifyLogic_eq]
  dsimp only
  split_ifs with dominated left right
  · refine ⟨boolVal kBool (op = .or), by simp [evalBound, constValue, boolVal], ?_⟩
    have either : a = decide (op = .or) ∨ b = decide (op = .or) := by
      rcases dominated with found | found
      · exact Or.inl (Except.ok.inj (l_truth.symm.trans (truthOf_constBool found l_done)))
      · exact Or.inr (Except.ok.inj (r_truth.symm.trans (truthOf_constBool found r_done)))
    have decided : combine op a b = decide (op = .or) := by
      rcases either with rfl | rfl <;> cases op <;> simp [combine]
    rw [decided]
    rfl
  · have found := constBool_neutral left fun found => dominated (Or.inl found)
    have a_eq := Except.ok.inj (l_truth.symm.trans (truthOf_constBool found l_done))
    refine ⟨rv, r_done, ?_⟩
    rw [r_truth, a_eq]
    cases op <;> simp [combine]
  · have found := constBool_neutral right fun found => dominated (Or.inr found)
    have b_eq := Except.ok.inj (r_truth.symm.trans (truthOf_constBool found r_done))
    refine ⟨lv, l_done, ?_⟩
    rw [l_truth, b_eq]
    cases op <;> simp [combine]
  · obtain ⟨w, done, w_truth⟩ := logicValue_of_truth op l_truth r_truth
    exact ⟨w, by simp [evalBound, l_done, r_done, done], w_truth⟩

/-! ## Folding in a weak position -/

/-- The operands of the AND and OR nodes at the root: the weak positions where
a comparison may end up. -/
def weakParts : BoundExpr → List BoundExpr
  | .logic _ left right => weakParts left ++ weakParts right
  | e => [e]

/-- No comparison the pass takes for a self comparison has sides that differ in
the scale of a cast or in the sign of a zero. -/
def SelfCmpExact (e : BoundExpr) : Prop :=
  ∀ s ∈ weakParts e, ∀ op l r, foldExpr false s = .ok (.cmp op l r) →
    exprEqual l r = true → sameDetails l r = true

/-- Outside of logic nodes, weak folding is strict folding and then perhaps the
elimination of a self comparison. -/
private theorem foldExpr_weak_part {s e' : BoundExpr} (not_logic : ∀ op l r, s ≠ .logic op l r)
    (folded : foldExpr true s = .ok e') :
    ∃ m, foldExpr false s = .ok m ∧
      (e' = m ∨ ∃ op l r, m = .cmp op l r ∧ e' = simplifyCmp op l r) := by
  cases s with
  | logic op l r => exact absurd rfl (not_logic op l r)
  | cmp op left right =>
      simp only [foldExpr, Res.bind_eq_ok] at folded ⊢
      obtain ⟨l, l_folded, r, r_folded, folded⟩ := folded
      simp only [l_folded, r_folded, Except.ok.injEq, exists_eq_left']
      by_cases consts : (isConst l && isConst r) = true
      · simp only [consts, if_true] at folded ⊢
        exact ⟨e', folded, Or.inl rfl⟩
      · simp only [consts] at folded ⊢
        by_cases null : (isNullConst l || isNullConst r) = true
        · simp only [null, if_true] at folded ⊢
          exact ⟨e', folded, Or.inl rfl⟩
        · simp only [null, if_true] at folded ⊢
          exact ⟨.cmp op l r, rfl, Or.inr ⟨op, l, r, rfl, (Res.pure_eq_ok.mp folded).symm⟩⟩
  | not operand =>
      simp only [foldExpr, Res.bind_eq_ok] at folded ⊢
      obtain ⟨x, x_folded, folded⟩ := folded
      simp only [x_folded, Except.ok.injEq, exists_eq_left']
      by_cases const : isConst x = true
      · simp only [const, if_true] at folded ⊢
        exact ⟨e', folded, Or.inl rfl⟩
      · simp only [const] at folded ⊢
        cases absorbed : simplifyNot x with
        | cmp op l r =>
            simp only [absorbed, if_true] at folded ⊢
            exact ⟨.cmp op l r, rfl, Or.inr ⟨op, l, r, rfl, (Res.pure_eq_ok.mp folded).symm⟩⟩
        | _ =>
            simp only [absorbed] at folded ⊢
            exact ⟨e', folded, Or.inl rfl⟩
  | _ =>
      simp only [foldExpr] at folded ⊢
      exact ⟨e', folded, Or.inl rfl⟩

/-- A part whose self comparison, if it comes out as one, is exact. -/
private theorem foldExpr_part_truth {cols : List TypeAttr} {row : Row} (row_of : RowOf cols row)
    {s e' : BoundExpr} {t : TypeAttr} (typed : Typed cols s t)
    (not_logic : ∀ op l r, s ≠ .logic op l r) (part : weakParts s = [s])
    (self_exact : SelfCmpExact s) (folded : foldExpr true s = .ok e') :
    SameTruth (evalBound s (some row)) (evalBound e' (some row)) := by
  obtain ⟨m, strict, outcome⟩ := foldExpr_weak_part not_logic folded
  have kept := (foldExpr_agrees row_of typed strict).sameTruth
  rcases outcome with rfl | ⟨op, l, r, rfl, rfl⟩
  · exact kept
  · obtain ⟨u, m_typed, -⟩ := foldExpr_typed false typed strict
    have mem : s ∈ weakParts s := part ▸ List.mem_singleton_self s
    exact kept.trans (simplifyCmp_sameTruth row m_typed (self_exact s mem op l r strict))

/-- A condition folded weakly holds of the same rows. -/
theorem foldExpr_sameTruth {cols : List TypeAttr} {row : Row} (row_of : RowOf cols row) :
    ∀ {e e' : BoundExpr} {t : TypeAttr}, Typed cols e t → SelfCmpExact e →
      foldExpr true e = .ok e' → SameTruth (evalBound e (some row)) (evalBound e' (some row))
  | .logic op left right, e', t, typed, self_exact, folded => by
      simp only [Typed] at typed
      obtain ⟨-, ⟨lt, l_typed, l_bool⟩, rt, r_typed, r_bool⟩ := typed
      simp only [SelfCmpExact, weakParts, List.mem_append] at self_exact
      simp only [foldExpr, Res.bind_eq_ok] at folded
      obtain ⟨l, l_folded, r, r_folded, folded⟩ := folded
      have l_truth := foldExpr_sameTruth row_of l_typed (fun s mem => self_exact s (Or.inl mem)) l_folded
      have r_truth := foldExpr_sameTruth row_of r_typed (fun s mem => self_exact s (Or.inr mem)) r_folded
      intro v done
      simp only [evalBound, Res.bind_eq_ok] at done
      obtain ⟨lv, l_done, rv, r_done, done⟩ := done
      obtain ⟨a, b, a_truth, b_truth, v_truth⟩ := logicValue_truth done
      obtain ⟨lw, l_done', lw_truth⟩ := l_truth lv l_done
      obtain ⟨rw', r_done', rw_truth⟩ := r_truth rv r_done
      rw [a_truth] at lw_truth
      rw [b_truth] at rw_truth
      rw [v_truth]
      split at folded
      · rename_i consts
        rw [Bool.and_eq_true] at consts
        obtain ⟨w, combined, w_truth⟩ := logicValue_of_truth op lw_truth rw_truth
        have node_done : evalConst (.logic op l r) = .ok w := by
          simp only [evalConst, evalBound, evalBound_isConst consts.1 none (some row),
            evalBound_isConst consts.2 none (some row), l_done', r_done', Res.bind_ok, combined]
        simp only [node_done, Functor.map, Except.map, Except.ok.injEq] at folded
        subst folded
        exact ⟨w, by simp [evalBound, constValue_valid (logicValue_typed combined).1], w_truth⟩
      · obtain rfl := Res.pure_eq_ok.mp folded
        exact simplifyLogic_truth l_done' r_done' lw_truth rw_truth
  | .const .., _, _, typed, self_exact, folded =>
      foldExpr_part_truth row_of typed (by simp) rfl self_exact folded
  | .colRef .., _, _, typed, self_exact, folded =>
      foldExpr_part_truth row_of typed (by simp) rfl self_exact folded
  | .arith .., _, _, typed, self_exact, folded =>
      foldExpr_part_truth row_of typed (by simp) rfl self_exact folded
  | .neg .., _, _, typed, self_exact, folded =>
      foldExpr_part_truth row_of typed (by simp) rfl self_exact folded
  | .cmp .., _, _, typed, self_exact, folded =>
      foldExpr_part_truth row_of typed (by simp) rfl self_exact folded
  | .not .., _, _, typed, self_exact, folded =>
      foldExpr_part_truth row_of typed (by simp) rfl self_exact folded
  | .isNull .., _, _, typed, self_exact, folded =>
      foldExpr_part_truth row_of typed (by simp) rfl self_exact folded
  | .funcCall .., _, _, typed, self_exact, folded =>
      foldExpr_part_truth row_of typed (by simp) rfl self_exact folded
  | .cast .., _, _, typed, self_exact, folded =>
      foldExpr_part_truth row_of typed (by simp) rfl self_exact folded

/-! ## Bound trees -/

/-- On a row on which a bound tree evaluates: strict folding keeps its value,
weak folding keeps its truth when the self comparisons it eliminates are exact,
and a bound tree that structural equality accepts in its place evaluates to the
same value unless the two differ in the scale of a cast or the sign of a zero. -/
theorem foldExpr_preserves {rowDesc : Option RowDesc} {cols : List TypeAttr}
    (desc_cols : ∀ desc ∈ rowDesc, desc.colTypes = cols) (seeds : ∀ t ∈ cols, t ∈ kTypeAttrs)
    {ast : SqlExpr} {e : BoundExpr} {t : TypeAttr} (bound : bindExpr rowDesc ast = .ok (e, t))
    {row : Row} (row_of : RowOf cols row) {v : Value} (evaluated : evalRow e row = .ok v) :
    (∀ e', foldExpr false e = .ok e' → ∃ w, evalRow e' row = .ok w ∧ SameValue v w) ∧
      (SelfCmpExact e → ∀ e', foldExpr true e = .ok e' →
        whereMatch e' row = whereMatch e row) ∧
      ∀ ast' e' t', bindExpr rowDesc ast' = .ok (e', t') → exprEqual e e' = true →
        sameDetails e e' = true → evalRow e' row = .ok v := by
  have typed := bindExpr_typed desc_cols seeds bound
  refine ⟨fun e' folded => ?_, fun self_exact e' folded => ?_, fun ast' e' t' bound' equal same => ?_⟩
  · exact foldExpr_agrees row_of typed folded v evaluated
  · obtain ⟨w, done, truth⟩ := foldExpr_sameTruth row_of typed self_exact folded v evaluated
    have e_done : evalBound e (some row) = .ok v := evaluated
    simp only [whereMatch, done, e_done, Res.bind_ok, truth]
  · have typed' := bindExpr_typed desc_cols seeds bound'
    rw [← evaluated]
    exact (exprEqual_sound (some row) (typed_strictCalls typed) (typed_strictCalls typed') equal
      same).symm

private theorem rowOf_singleton {t : TypeAttr} {v : Value} (typed : v.OfType t) :
    RowOf [t] { values := [v] } := by
  intro i u found
  cases i with
  | zero =>
      obtain rfl := Option.some.inj found
      exact ⟨v, rfl, typed⟩
  | succ i => simp at found

/-- `c0 + 1 = 2 AND c0 = c0` on an int column holds of 1 before and after it is
folded to `c0 + 1 = 2 AND c0 IS NOT NULL`. -/
theorem foldExpr_preserves_selfCmp :
    let rowDesc : RowDesc := buildRowDesc { cols := [{ name := "c0", type := kInt }] }
    let c0 : SqlExpr := .identifier "c0"
    let ast : SqlExpr :=
      .logic .and (.compare .eq (.binaryOp .add c0 (.int [49])) (.int [50])) (.compare .eq c0 c0)
    let row : Row := { values := [intVal kInt 1] }
    ∃ e l t, bindExpr (some rowDesc) ast = .ok (e, t) ∧
      foldExpr true e = .ok (.logic .and l (.isNull (.colRef 0 kInt) true)) ∧
      whereMatch (.logic .and l (.isNull (.colRef 0 kInt) true)) row = whereMatch e row ∧
      whereMatch e row = .ok true := by
  intro rowDesc c0 ast row
  let sum : BoundExpr :=
    .cmp .eq (.arith .add (.colRef 0 kInt) (.const (intVal kInt 1)) kInt)
      (.const (intVal kInt 2))
  let self : BoundExpr := .cmp .eq (.colRef 0 kInt) (.colRef 0 kInt)
  have bound : bindExpr (some rowDesc) ast = .ok (.logic .and sum self, kBool) := rfl
  have self_exact : SelfCmpExact (.logic .and sum self) := by
    intro s mem op l r folded equal
    rcases List.mem_cons.mp mem with rfl | mem
    · cases folded
      cases equal
    · obtain rfl := List.mem_singleton.mp mem
      cases folded
      rfl
  have one : (intVal kInt 1).OfType kInt := ⟨Or.inr ⟨by decide, rfl, trivial⟩, Or.inr rfl⟩
  have seeds : ∀ t ∈ rowDesc.colTypes, t ∈ kTypeAttrs := by decide
  have desc_cols : ∀ desc ∈ some rowDesc, desc.colTypes = rowDesc.colTypes := by
    rintro desc ⟨⟩
    rfl
  have evaluated : evalRow (.logic .and sum self) row = .ok (boolVal kBool true) := rfl
  obtain ⟨-, weak, -⟩ :=
    foldExpr_preserves desc_cols seeds bound (rowOf_singleton one) evaluated
  exact ⟨_, sum, _, bound, rfl, weak self_exact _ rfl, rfl⟩

/-- `CAST(c0 AS numeric(10,2)) = CAST(c0 AS numeric(10,0))` is false on 1.25, but
folds to a condition that is true there. -/
theorem foldExpr_cast_scale :
    let rowDesc : RowDesc := buildRowDesc { cols := [{ name := "c0", type := kNumeric }] }
    let castTo (scale : Int) : SqlExpr :=
      .cast (.identifier "c0") { type := "numeric", length := some 10, scale := some scale }
    let row : Row := { values := [numericVal kNumeric 125 2] }
    RowOf rowDesc.colTypes row ∧
      ∃ e e' t, bindExpr (some rowDesc) (.compare .eq (castTo 2) (castTo 0)) = .ok (e, t) ∧
        foldExpr true e = .ok e' ∧ evalRow e row = .ok (boolVal kBool false) ∧
        whereMatch e row = .ok false ∧ whereMatch e' row = .ok true := by
  intro rowDesc castTo row
  refine ⟨?_, _, _, _, rfl, rfl, ?_, ?_, ?_⟩
  · exact rowOf_singleton ⟨Or.inr ⟨by decide, rfl, trivial⟩, Or.inr rfl⟩
  · decide
  · decide
  · decide

end MySimpleDb.Planner
