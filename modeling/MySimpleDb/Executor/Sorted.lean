import MySimpleDb.Expr.Order
import MySimpleDb.Executor.OperatorRows

/-!
# Sorting

Key lists of static types are compared by a strict weak order whatever keys
descend, so the sort operator gives the rows of its child in key order.
-/

namespace MySimpleDb.Planner.PlanNode

open MySimpleDb.Lib MySimpleDb.Storage MySimpleDb.Analyzer MySimpleDb.Expr MySimpleDb.Catalog

/-! ## Key lists -/

/-- Keys of the given static types, or NULL. -/
abbrev KeysOf (ts : List TypeAttr) (keys : List Value) : Prop :=
  List.Forall₂ Value.OfType keys ts

/-- The comparison whose negative answers `key_less` reports. -/
def keysCmp : List BoundOrderItem → List Value → List Value → Res Int
  | o :: orders, l :: ls, r :: rs => do
      let c ← valueCmp l r
      let c := if o.desc then -c else c
      if c ≠ 0 then return c else keysCmp orders ls rs
  | _, _, _ => .ok 0

theorem keyLess_eq (orders : List BoundOrderItem) (ls rs : List Value) :
    keyLess orders ls rs = (keysCmp orders ls rs).map fun c => decide (c < 0) := by
  induction orders generalizing ls rs with
  | nil => simp [keyLess, keysCmp, Except.map]
  | cons o orders inductionHypothesis =>
      cases ls with
      | nil => simp [keyLess, keysCmp, Except.map]
      | cons l ls =>
          cases rs with
          | nil => simp [keyLess, keysCmp, Except.map]
          | cons r rs =>
              rw [keyLess, keysCmp]
              cases valueCmp l r with
              | error e => rfl
              | ok c =>
                  simp only [Res.bind_ok]
                  generalize (if o.desc = true then -c else c) = signed
                  by_cases differ : signed ≠ 0
                  · rw [if_pos differ, if_pos differ]
                    rfl
                  · rw [if_neg differ, if_neg differ]
                    exact inductionHypothesis ls rs

theorem keysCmp_total {orders : List BoundOrderItem} {ts : List TypeAttr}
    (length : orders.length = ts.length) : TotalOn (KeysOf ts) (keysCmp orders) := by
  induction orders generalizing ts with
  | nil =>
      obtain rfl : ts = [] := List.length_eq_zero_iff.mp length.symm
      apply TotalOn.of_rank fun _ => 0
      intro a b _ _
      exact ⟨0, rfl, by simp⟩
  | cons o orders inductionHypothesis =>
      obtain ⟨t, ts, rfl⟩ := List.exists_cons_of_length_eq_add_one length.symm
      have first : TotalOn (fun v => Value.OfType v t)
          fun l r => (valueCmp l r).map fun c => if o.desc then -c else c := by
        cases o.desc with
        | false =>
            have same : (fun l r => (valueCmp l r).map fun c => c) = valueCmp := by
              funext l r
              cases valueCmp l r <;> rfl
            simp only [Bool.false_eq_true, if_false, same]
            exact valueCmp_total t
        | true => exact (valueCmp_total t).reverse
      have rest := inductionHypothesis (Nat.succ.inj length)
      apply first.lex rest (f := fun ks => ks.headD nullVal) (g := List.tail)
      · intro ks typed
        cases typed
        assumption
      · intro ks typed
        cases typed
        assumption
      · intro ls rs ls_typed rs_typed
        cases ls_typed
        cases rs_typed
        rename_i l ls _ _ r rs _ _
        rw [keysCmp, List.headD_cons, List.headD_cons]
        cases valueCmp l r <;> rfl

/-- `key_less` is a strict weak order on key lists of static types. -/
theorem keyLess_strictWeak {orders : List BoundOrderItem} {ts : List TypeAttr}
    (length : orders.length = ts.length) : StrictWeakOn (KeysOf ts) (keyLess orders) :=
  (keysCmp_total length).strictWeak fun _ _ => keyLess_eq orders _ _

/-! ## Insertion -/

/-- The second row does not have to stand before the first. -/
def InOrder (orders : List BoundOrderItem) (p q : RowKeys) : Prop :=
  keyLess orders q.2 p.2 = .ok false

variable {orders : List BoundOrderItem} {ts : List TypeAttr}

theorem insertSorted_ordered (order : StrictWeakOn (KeysOf ts) (keyLess orders)) {r : RowKeys}
    {rows : List RowKeys} (r_typed : KeysOf ts r.2) (typed : ∀ p ∈ rows, KeysOf ts p.2)
    (ordered : rows.Pairwise (InOrder orders)) :
    ∃ out, insertSorted orders r rows = .ok out ∧ out.Perm (r :: rows) ∧
      out.Pairwise (InOrder orders) := by
  induction rows with
  | nil => exact ⟨[r], rfl, List.Perm.refl _, List.pairwise_singleton _ _⟩
  | cons p rows inductionHypothesis =>
      have p_typed := typed p List.mem_cons_self
      have rows_typed : ∀ q ∈ rows, KeysOf ts q.2 := fun q mem => typed q (List.mem_cons_of_mem _ mem)
      obtain ⟨p_before, rows_ordered⟩ := List.pairwise_cons.mp ordered
      obtain ⟨less, less_eq⟩ := order.returns r_typed p_typed
      cases less with
      | true =>
          -- the row stands before all of them, since the first one does
          refine ⟨r :: p :: rows, by rw [insertSorted, less_eq]; rfl, List.Perm.refl _, ?_⟩
          have not_after : InOrder orders r p := by
            obtain ⟨back, back_eq⟩ := order.returns p_typed r_typed
            cases back with
            | false => exact back_eq
            | true =>
                have loop := order.trans r_typed p_typed r_typed less_eq back_eq
                rw [order.irrefl r_typed] at loop
                cases loop
          apply List.Pairwise.cons
          · intro q mem
            rcases List.mem_cons.mp mem with rfl | mem
            · exact not_after
            · exact order.not_after_trans r_typed p_typed (rows_typed q mem) not_after
                (p_before q mem)
          · exact ordered
      | false =>
          obtain ⟨out, out_eq, perm, out_ordered⟩ := inductionHypothesis rows_typed rows_ordered
          refine ⟨p :: out, ?_, ?_, ?_⟩
          · rw [insertSorted, less_eq]
            simp only [Res.bind_ok, Bool.false_eq_true, if_false, out_eq]
            rfl
          · exact (perm.cons p).trans (List.Perm.swap r p rows)
          · apply List.Pairwise.cons
            · intro q mem
              rcases List.mem_cons.mp (perm.mem_iff.mp mem) with rfl | mem
              · exact less_eq
              · exact p_before q mem
            · exact out_ordered

/-- Sorting gives the rows back, every pair in key order. -/
theorem sortRows_ordered (order : StrictWeakOn (KeysOf ts) (keyLess orders)) {rows : List RowKeys}
    (typed : ∀ p ∈ rows, KeysOf ts p.2) :
    ∃ out, sortRows orders rows = .ok out ∧ out.Perm rows ∧ out.Pairwise (InOrder orders) := by
  have step : ∀ (rest sorted : List RowKeys), (∀ p ∈ rest, KeysOf ts p.2) →
      (∀ p ∈ sorted, KeysOf ts p.2) → sorted.Pairwise (InOrder orders) →
      ∃ out, rest.foldlM (fun sorted r => insertSorted orders r sorted) sorted = .ok out ∧
        out.Perm (rest ++ sorted) ∧ out.Pairwise (InOrder orders) := by
    intro rest
    induction rest with
    | nil =>
        intro sorted _ _ ordered
        exact ⟨sorted, rfl, List.Perm.refl _, ordered⟩
    | cons r rest inductionHypothesis =>
        intro sorted rest_typed sorted_typed ordered
        have r_typed := rest_typed r List.mem_cons_self
        obtain ⟨mid, mid_eq, mid_perm, mid_ordered⟩ :=
          insertSorted_ordered order r_typed sorted_typed ordered
        have mid_typed : ∀ p ∈ mid, KeysOf ts p.2 := by
          intro p mem
          rcases List.mem_cons.mp (mid_perm.mem_iff.mp mem) with rfl | mem
          · exact r_typed
          · exact sorted_typed p mem
        obtain ⟨out, out_eq, out_perm, out_ordered⟩ := inductionHypothesis mid
          (fun p mem => rest_typed p (List.mem_cons_of_mem _ mem)) mid_typed mid_ordered
        refine ⟨out, ?_, ?_, out_ordered⟩
        · rw [List.foldlM_cons, mid_eq]
          exact out_eq
        · exact (out_perm.trans (mid_perm.append_left rest)).trans List.perm_middle
  obtain ⟨out, out_eq, perm, ordered⟩ := step rows [] typed (by simp) List.Pairwise.nil
  rw [List.append_nil] at perm
  exact ⟨out, out_eq, perm, ordered⟩

/-! ## The operator -/

theorem rowKeys_fst {sortOnOutput : Bool} {rows : List Row} {keyed : List RowKeys}
    (keyed_eq : rows.mapM (rowKeys orders sortOnOutput) = .ok keyed) :
    keyed.map Prod.fst = rows := by
  induction rows generalizing keyed with
  | nil =>
      cases keyed_eq
      rfl
  | cons row rows inductionHypothesis =>
      rw [List.mapM_cons] at keyed_eq
      obtain ⟨first, first_eq, keyed_eq⟩ := Res.bind_eq_ok.mp keyed_eq
      obtain ⟨rest, rest_eq, keyed_eq⟩ := Res.bind_eq_ok.mp keyed_eq
      obtain ⟨keys, -, first_eq⟩ := Res.bind_eq_ok.mp first_eq
      cases first_eq
      cases keyed_eq
      rw [List.map_cons, inductionHypothesis rest_eq]

/-- Pulling the sort operator to its end gives the rows of its child, sorted. -/
theorem pullAll_sort {disk : DiskPages} {db : Db} {child : PlanNode} {sortOnOutput : Bool}
    {rows : List Row} {keyed : List RowKeys} (length : orders.length = ts.length)
    (child_rows : pullAll disk db child = .ok rows)
    (keyed_eq : rows.mapM (rowKeys orders sortOnOutput) = .ok keyed)
    (typed : ∀ p ∈ keyed, KeysOf ts p.2) :
    ∃ out : List RowKeys,
      pullAll disk db (.sort child orders sortOnOutput) = .ok (out.map Prod.fst) ∧
      out.Perm keyed ∧ out.Pairwise (InOrder orders) := by
  obtain ⟨s, created, collected⟩ := Res.bind_eq_ok.mp child_rows
  obtain ⟨out, sorted_eq, perm, ordered⟩ := sortRows_ordered (keyLess_strictWeak length) typed
  refine ⟨out, ?_, perm, ordered⟩
  have few : (out.map Prod.fst).length < child.turns db := by
    rw [List.length_map, perm.length_eq, mapM_length keyed_eq]
    exact Pull.length_lt_of_collect collected
  have opens : opened disk db (.sort child orders sortOnOutput) = .ok (out.map Prod.fst) := by
    rw [opened, created, Res.bind_ok, collected, Res.bind_ok, keyed_eq, Res.bind_ok, sorted_eq]
    rfl
  rw [pullAll, opens]
  exact (sort_yields disk db child orders sortOnOutput _).collect few

/-- Values are compared as the numbers they stand for, the comparison is a total
preorder on every static type with NULL as the largest element, and sorting by
any keys gives the rows back in key order. -/
theorem order_of_values :
    (∀ a b : Value, a.type.family = .num → b.type.family = .num →
      (a.box.rep = .int64 ∨ a.box.rep = .dec) → (b.box.rep = .int64 ∨ b.box.rep = .dec) →
      valueCmp a b = .ok (threeWay (boxNumber a.box) (boxNumber b.box))) ∧
    (∀ a b : DecimalVal, a.Bounded → b.Bounded →
      (decimalDigits a.unscaled.natAbs : Int) - a.scale =
        decimalDigits b.unscaled.natAbs - b.scale →
      a.unscaled.natAbs * 10 ^ (b.scale - a.scale) < 10 ^ 38) ∧
    (∀ t : TypeAttr, TotalOn (fun v => Value.OfType v t) valueCmp ∧
      ∀ a b : Value, a.box = .null → b.box ≠ .null →
        valueCmp a a = .ok 0 ∧ valueCmp a b = .ok 1 ∧ valueCmp b a = .ok (-1)) ∧
    (∀ (orders : List BoundOrderItem) (ts : List TypeAttr), orders.length = ts.length →
      StrictWeakOn (KeysOf ts) (keyLess orders)) ∧
    ∀ (disk : DiskPages) (db : Db) (child : PlanNode) (orders : List BoundOrderItem)
      (sortOnOutput : Bool) (ts : List TypeAttr) (rows : List Row) (keyed : List RowKeys),
      orders.length = ts.length → pullAll disk db child = .ok rows →
      rows.mapM (rowKeys orders sortOnOutput) = .ok keyed →
      (∀ p ∈ keyed, KeysOf ts p.2) →
      ∃ out : List RowKeys,
        pullAll disk db (.sort child orders sortOnOutput) = .ok (out.map Prod.fst) ∧
        (out.map Prod.fst).Perm rows ∧ out.Perm keyed ∧ out.Pairwise (InOrder orders) := by
  refine ⟨?_, ?_, ?_, ?_, ?_⟩
  · intro a b a_num b_num a_exact b_exact
    have present : ∀ v : Value, v.box.rep = .int64 ∨ v.box.rep = .dec → valueIsNull v = false := by
      rintro ⟨t, box⟩ exact
      cases box <;> simp [Box.rep, valueIsNull] at exact ⊢
    simp only [valueCmp, present a a_exact, present b b_exact, Bool.or_self, Bool.false_eq_true,
      if_false, a_num, b_num, if_true]
    exact numCmp_exact a_exact b_exact
  · intro a b a_bounded b_bounded level
    exact aligned_small a_bounded b_bounded level
  · intro t
    refine ⟨valueCmp_total t, ?_⟩
    intro a b a_null b_val
    have b_present : valueIsNull b = false := by
      rw [← Bool.not_eq_true, valueIsNull_iff]
      exact b_val
    simp [valueCmp, valueIsNull_iff.mpr a_null, b_present]
  · intro orders ts length
    exact keyLess_strictWeak length
  · intro disk db child orders sortOnOutput ts rows keyed length child_rows keyed_eq typed
    obtain ⟨out, out_eq, perm, ordered⟩ := pullAll_sort length child_rows keyed_eq typed
    refine ⟨out, out_eq, ?_, perm, ordered⟩
    rw [← rowKeys_fst keyed_eq]
    exact perm.map Prod.fst

/-- A numeric against an integer, and the order of a descending integer key. -/
theorem order_of_values_mixed :
    valueCmp (numericVal kNumeric 15 1) (intVal kBigint 2) =
        .ok (threeWay (DecimalVal.toRat ⟨15, 1⟩) ((2 : Int64).toInt : ℚ)) ∧
      StrictWeakOn (KeysOf [kInt]) (keyLess [{ expr := none, desc := true, outIdx := 0 }]) :=
  ⟨order_of_values.1 _ _ rfl rfl (Or.inr rfl) (Or.inl rfl),
    order_of_values.2.2.2.1 _ [kInt] rfl⟩

end MySimpleDb.Planner.PlanNode
