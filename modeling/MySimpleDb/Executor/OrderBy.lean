import MySimpleDb.Analyzer.BindSound
import MySimpleDb.Analyzer.Select
import MySimpleDb.Executor.Sorted
import MySimpleDb.Executor.UpdateRows
import MySimpleDb.Planner.Select

/-!
# The order of the rows of a SELECT

What the sort keys of a SELECT mean does not depend on where the plan sorts: a
position or the name of one output column is the value of that column, any other
expression is evaluated on the input row.
-/

namespace MySimpleDb.Executor

open MySimpleDb.Lib MySimpleDb.Storage MySimpleDb.Parser MySimpleDb.Analyzer MySimpleDb.Expr
open MySimpleDb.Catalog MySimpleDb.Planner MySimpleDb.Planner.PlanNode

/-! ## What a key means -/

/-- The output column that a position or a name used once denotes. -/
def outputColumn (projs : List ProjCol) : SqlExpr → Option ProjCol
  | .int text =>
      (fromCharsI64 text).bind fun pos =>
        if 1 ≤ pos.toInt then projs[(pos.toInt - 1).toNat]? else none
  | .identifier name =>
      match projs.filter fun p => p.name = name with
      | [p] => some p
      | _ => none
  | _ => none

/-- The value of a key on an input row. -/
def denotedKey (projs : List ProjCol) (rowDesc : RowDesc) (e : SqlExpr) (row : Row) : Res Value :=
  match outputColumn projs e with
  | some p => projectCol row p
  | none => do
      let (b, _) ← bindExpr (some rowDesc) e
      evalRow b row

/-- The values of all keys on an input row. -/
def keyTuple (projs : List ProjCol) (rowDesc : RowDesc) (items : List OrderItem) (row : Row) :
    Res (List Value) :=
  items.mapM fun item => denotedKey projs rowDesc item.expr row

/-- The first key that differs decides, the other way round where it is descending. -/
inductive Precedes : List Bool → List Value → List Value → Prop
  | first {desc : Bool} {descs : List Bool} {l r : Value} {ls rs : List Value} {c : Int}
      (compared : valueCmp l r = .ok c) (less : (if desc then -c else c) < 0) :
      Precedes (desc :: descs) (l :: ls) (r :: rs)
  | next {desc : Bool} {descs : List Bool} {l r : Value} {ls rs : List Value}
      (equal : valueCmp l r = .ok 0) (rest : Precedes descs ls rs) :
      Precedes (desc :: descs) (l :: ls) (r :: rs)

/-- The first row comes before the second by the keys. -/
def Before (projs : List ProjCol) (rowDesc : RowDesc) (items : List OrderItem) (p q : Row) :
    Prop :=
  ∃ ps qs, keyTuple projs rowDesc items p = .ok ps ∧ keyTuple projs rowDesc items q = .ok qs ∧
    Precedes (items.map OrderItem.desc) ps qs

theorem Precedes.append {descs descs' : List Bool} {ls rs ls' rs' : List Value}
    (precedes : Precedes descs ls rs) : Precedes (descs ++ descs') (ls ++ ls') (rs ++ rs') := by
  induction precedes with
  | first compared less => exact .first compared less
  | next equal rest inductionHypothesis => exact .next equal inductionHypothesis

theorem Precedes.keyLess {orders : List BoundOrderItem} {ls rs : List Value}
    (precedes : Precedes (orders.map BoundOrderItem.desc) ls rs) :
    keyLess orders ls rs = .ok true := by
  generalize same : orders.map BoundOrderItem.desc = descs at precedes
  induction precedes generalizing orders with
  | first compared less =>
      obtain ⟨o, rest, rfl, rfl, -⟩ := List.map_eq_cons_iff.mp same
      rename_i c
      have other : (if o.desc = true then -c else c) ≠ 0 := ne_of_lt less
      rw [PlanNode.keyLess, compared, Res.bind_ok]
      dsimp only
      rw [if_pos other]
      exact congrArg Except.ok (decide_eq_true less)
  | next equal rest inductionHypothesis =>
      obtain ⟨o, others, rfl, rfl, tail⟩ := List.map_eq_cons_iff.mp same
      rw [PlanNode.keyLess, equal, Res.bind_ok]
      dsimp only
      rw [if_neg (by split <;> simp)]
      exact inductionHypothesis tail

/-! ## Keys as they are bound -/

variable {pb : ProjBind} {rowDesc : RowDesc}

theorem outputColumn_identifier (name : String) :
    outputColumn pb.projs (.identifier name) = match outputsNamed pb name with
      | [(p, _)] => some p
      | _ => none := by
  have fst : pb.projs.filter (fun p => p.name = name) = (outputsNamed pb name).map Prod.fst := by
    have all := List.zipIdx_map_fst 0 pb.projs
    calc pb.projs.filter (fun p => p.name = name)
        = (pb.projs.zipIdx.map Prod.fst).filter (fun p => p.name = name) := by rw [all]
      _ = (outputsNamed pb name).map Prod.fst := List.filter_map
  rw [outputColumn, fst]
  rcases outputsNamed pb name with _ | ⟨⟨p, i⟩, _ | ⟨p', rest⟩⟩ <;> rfl

/-- A resolved key names the output column that the item denotes, or is the expression. -/
theorem resolveOrderKey_spec {item : OrderItem} {key : OrderKey}
    (resolved : resolveOrderKey item pb rowDesc = .ok key) :
    (∃ i p, key = .out i ∧ pb.projs[i]? = some p ∧ outputColumn pb.projs item.expr = some p) ∨
      ∃ b t, key = .row b ∧ outputColumn pb.projs item.expr = none ∧
        bindExpr (some rowDesc) item.expr = .ok (b, t) := by
  rcases item with ⟨e, desc⟩
  have byRow : (do
      let (b, _) ← bindExpr (some rowDesc) e
      pure (OrderKey.row b) : Res OrderKey) = .ok key → ∃ b t, key = .row b ∧
        bindExpr (some rowDesc) e = .ok (b, t) := by
    intro done
    obtain ⟨⟨b, t⟩, bound, same⟩ := Res.bind_eq_ok.mp done
    cases same
    exact ⟨b, t, rfl, bound⟩
  cases e with
  | int text =>
      rw [resolveOrderKey] at resolved
      dsimp only at resolved
      split at resolved
      · rename_i pos parsed
        split at resolved
        · exact absurd resolved dbRaise_ne_ok
        · rename_i inRange
          cases resolved
          have inside : (pos.toInt - 1).toNat < pb.projs.length := by omega
          refine Or.inl ⟨_, pb.projs[(pos.toInt - 1).toNat], rfl,
            List.getElem?_eq_getElem inside, ?_⟩
          have low : 1 ≤ pos.toInt := by omega
          rw [outputColumn, parsed, Option.bind_some, if_pos low,
            List.getElem?_eq_getElem inside]
      · exact absurd resolved dbRaise_ne_ok
  | identifier name =>
      rw [resolveOrderKey] at resolved
      dsimp only at resolved
      rw [outputColumn_identifier]
      split at resolved
      · rename_i p i named
        cases resolved
        have mem : (p, i) ∈ outputsNamed pb name := by
          rw [named]
          exact List.mem_singleton_self _
        have place := List.mem_zipIdx_iff_getElem?.mp (List.mem_of_mem_filter mem)
        exact Or.inl ⟨i, p, rfl, place, by rw [named]⟩
      · rename_i named
        obtain ⟨b, t, same, bound⟩ := byRow resolved
        exact Or.inr ⟨b, t, same, by rw [named], bound⟩
      · exact absurd resolved dbRaise_ne_ok
  | float text => exact absurd resolved dbRaise_ne_ok
  | decimal text => exact absurd resolved dbRaise_ne_ok
  | string value => exact absurd resolved dbRaise_ne_ok
  | null => exact absurd resolved dbRaise_ne_ok
  | bool value => exact absurd resolved dbRaise_ne_ok
  | _ =>
      obtain ⟨b, t, same, bound⟩ := byRow resolved
      exact Or.inr ⟨b, t, same, rfl, bound⟩

/-- The key that an item became, with the placement of the sort. -/
def BoundTo (pb : ProjBind) (rowDesc : RowDesc) (allOut : Bool) (item : OrderItem)
    (o : BoundOrderItem) : Prop :=
  ∃ key, resolveOrderKey item pb rowDesc = .ok key ∧ (allOut = true → key.isOut = true) ∧
    bindOrder pb rowDesc allOut item key = .ok o

theorem bindOrders_spec {items : List OrderItem} {orders : List BoundOrderItem} {allOut : Bool}
    (bound : bindOrders items pb rowDesc = .ok (orders, allOut)) :
    List.Forall₂ (BoundTo pb rowDesc allOut) items orders := by
  obtain ⟨keys, resolved, rest⟩ := Res.bind_eq_ok.mp bound
  obtain ⟨orders', mapped, same⟩ := Res.bind_eq_ok.mp rest
  cases same
  have out : ∀ key ∈ keys, keys.all OrderKey.isOut = true → key.isOut = true :=
    fun key mem all => List.all_eq_true.mp all key mem
  generalize keys.all OrderKey.isOut = allOut at mapped out ⊢
  rw [mapM_eq_ok_iff] at resolved mapped
  clear bound rest
  induction resolved generalizing orders with
  | nil =>
      cases mapped
      exact List.Forall₂.nil
  | @cons item key items keys first others inductionHypothesis =>
      rw [List.zip_cons_cons, List.forall₂_cons_left_iff] at mapped
      obtain ⟨o, orders', here, mapped, rfl⟩ := mapped
      refine List.Forall₂.cons ⟨key, first, out key List.mem_cons_self, here⟩ ?_
      exact inductionHypothesis mapped fun key mem => out key (List.mem_cons_of_mem _ mem)

theorem BoundTo.desc {allOut : Bool} {item : OrderItem} {o : BoundOrderItem}
    (bound : BoundTo pb rowDesc allOut item o) : o.desc = item.desc := by
  obtain ⟨key, -, -, made⟩ := bound
  cases key with
  | row e =>
      cases made
      rfl
  | out i =>
      rw [bindOrder] at made
      dsimp only at made
      split at made
      · cases made
        rfl
      · split at made
        · obtain ⟨⟨b, t⟩, -, same⟩ := Res.bind_eq_ok.mp made
          cases same
          rfl
        · split at made
          · cases made
          · split at made
            · cases made
              rfl
            · cases made

/-- A key of the output is the value its item denotes. -/
theorem BoundTo.key_out {item : OrderItem} {o : BoundOrderItem} {row out : Row}
    (bound : BoundTo pb rowDesc true item o) (projected : projectRow pb.projs row = .ok out) :
    sortKey true out o = denotedKey pb.projs rowDesc item.expr row := by
  obtain ⟨key, resolved, isOut, made⟩ := bound
  rcases resolveOrderKey_spec resolved with ⟨i, p, rfl, place, column⟩ | ⟨b, t, rfl, -, -⟩
  · cases made
    obtain ⟨values, mapped, same⟩ := Res.bind_eq_ok.mp projected
    cases same
    have inside := List.getElem?_eq_some_iff.mp place
    obtain ⟨v, at_i, value⟩ : ∃ v, values[i]? = some v ∧ projectCol row p = .ok v := by
      have all := mapM_eq_ok_iff.mp mapped
      have length := all.length_eq
      obtain ⟨below, rfl⟩ := inside
      exact ⟨values[i], List.getElem?_eq_getElem (by omega), all.get below (by omega)⟩
    rw [sortKey, denotedKey, column, if_pos rfl]
    dsimp only
    rw [at_i, value]
  · cases isOut rfl

/-- A key of the row is the value its item denotes. -/
theorem BoundTo.key_row {item : OrderItem} {o : BoundOrderItem} {row : Row}
    (bound : BoundTo pb rowDesc false item o) (aligned : pb.Aligned rowDesc)
    (fits : RowFits rowDesc.colTypes (some row)) :
    sortKey false row o = denotedKey pb.projs rowDesc item.expr row := by
  obtain ⟨key, resolved, -, made⟩ := bound
  rcases resolveOrderKey_spec resolved with ⟨i, p, rfl, place, column⟩ | ⟨b, t, rfl, column, e⟩
  · obtain ⟨below, rfl⟩ := List.getElem?_eq_some_iff.mp place
    have inSrc : i < pb.src.length := below.trans_eq aligned.length_eq
    have srcPlace := List.getElem?_eq_getElem inSrc
    have col : ColOf rowDesc pb.projs[i] pb.src[i] := aligned.get below inSrc
    rw [bindOrder, if_neg Bool.false_ne_true, srcPlace] at made
    rw [sortKey, if_neg Bool.false_ne_true, denotedKey, column]
    cases source : pb.src[i] with
    | some e =>
        rw [source] at made col
        obtain ⟨b, t, rebound, expr⟩ := col
        dsimp only at made
        rw [rebound] at made
        cases made
        unfold projectCol
        dsimp only
        rw [expr]
    | none =>
        rw [source] at made col
        obtain ⟨expr, inCols⟩ := col
        have typePlace := List.getElem?_eq_getElem inCols
        obtain ⟨r, v, same, at_col, -⟩ := fits _ _ typePlace
        cases same
        dsimp only at made
        rw [place] at made
        dsimp only at made
        rw [typePlace] at made
        cases made
        unfold projectCol
        dsimp only
        rw [expr]
        dsimp only
        rw [evalRow, evalBound, at_col]
  · cases made
    rw [sortKey, denotedKey, column, e, Res.bind_ok, if_neg Bool.false_ne_true]

/-! ## Static types of keys -/

/-- The values of a key on rows that fit are of this type. -/
def KeyType (pb : ProjBind) (rowDesc : RowDesc) (item : OrderItem) (t : TypeAttr) : Prop :=
  ∀ row v, RowFits rowDesc.colTypes (some row) →
    denotedKey pb.projs rowDesc item.expr row = .ok v → v.OfType t

theorem evalRow_ofType {e : SqlExpr} {b : BoundExpr} {t : TypeAttr} {row : Row} {v : Value}
    (bound : bindExpr (some rowDesc) e = .ok (b, t))
    (seeds : ∀ t ∈ rowDesc.colTypes, t ∈ kTypeAttrs)
    (fits : RowFits rowDesc.colTypes (some row)) (value : evalRow b row = .ok v) :
    v.OfType t := by
  have sound := bindExpr_sound bound seeds fits
  rw [evalRow] at value
  rw [value] at sound
  exact sound.1

theorem BoundTo.keyType {allOut : Bool} {item : OrderItem} {o : BoundOrderItem}
    (bound : BoundTo pb rowDesc allOut item o) (aligned : pb.Aligned rowDesc)
    (seeds : ∀ t ∈ rowDesc.colTypes, t ∈ kTypeAttrs) : ∃ t, KeyType pb rowDesc item t := by
  obtain ⟨key, resolved, -, -⟩ := bound
  rcases resolveOrderKey_spec resolved with ⟨i, p, rfl, place, column⟩ | ⟨b, t, rfl, column, e⟩
  · obtain ⟨below, rfl⟩ := List.getElem?_eq_some_iff.mp place
    have inSrc : i < pb.src.length := below.trans_eq aligned.length_eq
    have col : ColOf rowDesc pb.projs[i] pb.src[i] := aligned.get below inSrc
    cases source : pb.src[i] with
    | some e =>
        rw [source] at col
        obtain ⟨b, t, rebound, expr⟩ := col
        refine ⟨t, fun row v fits value => ?_⟩
        rw [denotedKey, column] at value
        dsimp only at value
        unfold projectCol at value
        rw [expr] at value
        exact evalRow_ofType rebound seeds fits value
    | none =>
        rw [source] at col
        obtain ⟨expr, inCols⟩ := col
        refine ⟨rowDesc.colTypes[pb.projs[i].colIdx], fun row v fits value => ?_⟩
        obtain ⟨r, v', same, at_col, fitting⟩ := fits _ _ (List.getElem?_eq_getElem inCols)
        cases same
        rw [denotedKey, column] at value
        dsimp only at value
        unfold projectCol at value
        rw [expr] at value
        dsimp only at value
        rw [at_col] at value
        cases value
        exact fitting.1
  · refine ⟨t, fun row v fits value => ?_⟩
    rw [denotedKey, column, e] at value
    exact evalRow_ofType e seeds fits value

theorem exists_forall₂ {α β : Type} {r : α → β → Prop} (xs : List α)
    (each : ∀ x ∈ xs, ∃ y, r x y) : ∃ ys, List.Forall₂ r xs ys := by
  induction xs with
  | nil => exact ⟨[], List.Forall₂.nil⟩
  | cons x xs inductionHypothesis =>
      obtain ⟨y, here⟩ := each x List.mem_cons_self
      obtain ⟨ys, others⟩ := inductionHypothesis fun x mem => each x (List.mem_cons_of_mem _ mem)
      exact ⟨y :: ys, List.Forall₂.cons here others⟩

/-! ## Rows and keys -/

theorem mapM_congr_forall₂ {α β γ : Type} {f : α → Res γ} {g : β → Res γ} {xs : List α}
    {ys : List β} (same : List.Forall₂ (fun x y => f x = g y) xs ys) : xs.mapM f = ys.mapM g := by
  induction same with
  | nil => rfl
  | cons here others inductionHypothesis =>
      rw [List.mapM_cons, List.mapM_cons, here, inductionHypothesis]

theorem pairwise_of_forall₂ {α β : Type} {r : α → β → Prop} {s : β → β → Prop} {t : α → α → Prop}
    {xs : List α} {ys : List β} (related : List.Forall₂ r xs ys) (ordered : ys.Pairwise s)
    (implies : ∀ {x x' y y'}, r x y → r x' y' → s y y' → t x x') : xs.Pairwise t := by
  rw [List.pairwise_iff_getElem] at ordered ⊢
  intro i j inside inside' less
  have length := related.length_eq
  exact implies (related.get inside (by omega)) (related.get inside' (by omega))
    (ordered i j (by omega) (by omega) less)

/-- The projection of every row and the value of every key are computed without an error. -/
structure Evaluates (projs : List ProjCol) (rowDesc : RowDesc) (items : List OrderItem)
    (rows : List Row) : Prop where
  projected : ∀ row ∈ rows, ∃ out, projectRow projs row = .ok out
  keys : ∀ row ∈ rows, ∀ item ∈ items, ∃ v, denotedKey projs rowDesc item.expr row = .ok v

theorem Evaluates.tuple {projs : List ProjCol} {items : List OrderItem} {rows : List Row}
    (evaluates : Evaluates projs rowDesc items rows) {row : Row} (mem : row ∈ rows) :
    ∃ ks, keyTuple projs rowDesc items row = .ok ks := by
  obtain ⟨ks, values⟩ := exists_forall₂ items (evaluates.keys row mem)
  exact ⟨ks, mapM_eq_ok_iff.mpr values⟩

/-- The plan gives the projections of the rows, in an order that no two keys contradict. -/
def Gives (disk : DiskPages) (db : Db) (plan : PlanNode) (projs : List ProjCol)
    (rowDesc : RowDesc) (items : List OrderItem) (rows : List Row) : Prop :=
  ∃ sorted out : List Row, sorted.Perm rows ∧
    sorted.Pairwise (fun p q => ¬ Before projs rowDesc items q p) ∧
    sorted.mapM (projectRow projs) = .ok out ∧ pullAll disk db plan = .ok out

/-- Keys of their types, in the order of the items. -/
theorem keyTuple_typed {items : List OrderItem} {ts : List TypeAttr}
    (types : List.Forall₂ (KeyType pb rowDesc) items ts) {row : Row} {ks : List Value}
    (fits : RowFits rowDesc.colTypes (some row))
    (tuple : keyTuple pb.projs rowDesc items row = .ok ks) : KeysOf ts ks := by
  rw [keyTuple, mapM_eq_ok_iff] at tuple
  induction types generalizing ks with
  | nil =>
      cases tuple
      exact List.Forall₂.nil
  | cons here others inductionHypothesis =>
      obtain ⟨v, ks', value, rest, rfl⟩ := List.forall₂_cons_left_iff.mp tuple
      exact List.Forall₂.cons (here row v fits value) (inductionHypothesis rest)

/-- Rows with their keys, sorted: the rows can be reordered alike. -/
theorem sorted_rows {items : List OrderItem} {orders : List BoundOrderItem} {rows : List Row}
    {keyed : List RowKeys} {ts : List TypeAttr} {r : Row → RowKeys → Prop}
    (descs : orders.map BoundOrderItem.desc = items.map OrderItem.desc)
    (related : List.Forall₂ r rows keyed)
    (tuple : ∀ {row k}, r row k → keyTuple pb.projs rowDesc items row = .ok k.2)
    (length : orders.length = ts.length) (typed : ∀ k ∈ keyed, KeysOf ts k.2) :
    ∃ sorted out, sortRows orders keyed = .ok out ∧ sorted.Perm rows ∧ List.Forall₂ r sorted out ∧
      sorted.Pairwise fun p q => ¬ Before pb.projs rowDesc items q p := by
  obtain ⟨out, sorted_eq, perm, ordered⟩ := sortRows_ordered (keyLess_strictWeak length) typed
  obtain ⟨sorted, together, perm'⟩ := List.perm_comp_forall₂ perm related.flip
  refine ⟨sorted, out, sorted_eq, perm', together.flip, ?_⟩
  apply pairwise_of_forall₂ together.flip ordered
  rintro p q k k' isKey isKey' inOrder ⟨qs, ps, tupleQ, tupleP, precedes⟩
  cases (tuple isKey).symm.trans tupleP
  cases (tuple isKey').symm.trans tupleQ
  rw [← descs] at precedes
  rw [InOrder, precedes.keyLess] at inOrder
  cases inOrder

/-! ## The two placements -/

theorem exists_of_mem_right {α β : Type} {r : α → β → Prop} {xs : List α} {ys : List β}
    (related : List.Forall₂ r xs ys) {y : β} (mem : y ∈ ys) : ∃ x, r x y := by
  obtain ⟨i, inside, rfl⟩ := List.getElem_of_mem mem
  exact ⟨_, related.get (related.length_eq ▸ inside) inside⟩

theorem bound_descs {allOut : Bool} {items : List OrderItem} {orders : List BoundOrderItem}
    (bound : List.Forall₂ (BoundTo pb rowDesc allOut) items orders) :
    orders.map BoundOrderItem.desc = items.map OrderItem.desc := by
  induction bound with
  | nil => rfl
  | cons here others inductionHypothesis =>
      rw [List.map_cons, List.map_cons, here.desc, inductionHypothesis]

section Placements

variable {disk : DiskPages} {db : Db} {child : PlanNode} {items : List OrderItem}
  {orders : List BoundOrderItem} {rows : List Row} {ts : List TypeAttr}

/-- Sorting the projected rows by output columns. -/
theorem gives_sort_project (ready : child.Ready db) (source : rowsOf disk db child = .ok rows)
    (fits : ∀ row ∈ rows, RowFits rowDesc.colTypes (some row))
    (evaluates : Evaluates pb.projs rowDesc items rows)
    (bound : List.Forall₂ (BoundTo pb rowDesc true) items orders)
    (types : List.Forall₂ (KeyType pb rowDesc) items ts) :
    Gives disk db (.sort (.project child pb.projs) orders true) pb.projs rowDesc items rows := by
  -- each row with its projection and its keys
  obtain ⟨keyed, related⟩ := exists_forall₂ rows
    (r := fun row (k : RowKeys) => row ∈ rows ∧ projectRow pb.projs row = .ok k.1 ∧
      keyTuple pb.projs rowDesc items row = .ok k.2) fun row mem => by
    obtain ⟨out, projected⟩ := evaluates.projected row mem
    obtain ⟨ks, tuple⟩ := evaluates.tuple mem
    exact ⟨(out, ks), mem, projected, tuple⟩
  have typed : ∀ k ∈ keyed, KeysOf ts k.2 := by
    intro k mem
    obtain ⟨row, inRows, -, tuple⟩ := exists_of_mem_right related mem
    exact keyTuple_typed types (fits row inRows) tuple
  have keys : (keyed.map Prod.fst).mapM (rowKeys orders true) = .ok keyed := by
    rw [mapM_eq_ok_iff, List.forall₂_map_left_iff, List.forall₂_same]
    intro k mem
    obtain ⟨row, -, projected, tuple⟩ := exists_of_mem_right related mem
    have same : orders.mapM (sortKey true k.1) = keyTuple pb.projs rowDesc items row :=
      mapM_congr_forall₂ (bound.flip.imp fun o item here => BoundTo.key_out here projected)
    rw [rowKeys, same, tuple]
    rfl
  have projections : rows.mapM (projectRow pb.projs) = .ok (keyed.map Prod.fst) := by
    rw [mapM_eq_ok_iff, List.forall₂_map_right_iff]
    exact related.imp fun row k here => here.2.1
  obtain ⟨sorted, out, sorted_eq, perm, together, ordered⟩ := sorted_rows (bound_descs bound)
    related (fun here => here.2.2) (bound.length_eq.symm.trans types.length_eq) typed
  refine ⟨sorted, out.map Prod.fst, perm, ordered, ?_, ?_⟩
  · rw [mapM_eq_ok_iff, List.forall₂_map_right_iff]
    exact together.imp fun row k here => here.2.1
  · rw [pullAll_iff (by exact ready), rowsOf, rowsOf, source, Res.bind_ok, projections, Res.bind_ok,
      keys, Res.bind_ok, sorted_eq]
    rfl

/-- Sorting the rows before they are projected. -/
theorem gives_project_sort (ready : child.Ready db) (source : rowsOf disk db child = .ok rows)
    (aligned : pb.Aligned rowDesc) (fits : ∀ row ∈ rows, RowFits rowDesc.colTypes (some row))
    (evaluates : Evaluates pb.projs rowDesc items rows)
    (bound : List.Forall₂ (BoundTo pb rowDesc false) items orders)
    (types : List.Forall₂ (KeyType pb rowDesc) items ts) :
    Gives disk db (.project (.sort child orders false) pb.projs) pb.projs rowDesc items rows := by
  -- each row with its keys
  obtain ⟨keyed, related⟩ := exists_forall₂ rows
    (r := fun row (k : RowKeys) => row ∈ rows ∧ row = k.1 ∧
      keyTuple pb.projs rowDesc items row = .ok k.2) fun row mem => by
    obtain ⟨ks, tuple⟩ := evaluates.tuple mem
    exact ⟨(row, ks), mem, rfl, tuple⟩
  have typed : ∀ k ∈ keyed, KeysOf ts k.2 := by
    intro k mem
    obtain ⟨row, inRows, -, tuple⟩ := exists_of_mem_right related mem
    exact keyTuple_typed types (fits row inRows) tuple
  have keys : rows.mapM (rowKeys orders false) = .ok keyed := by
    rw [mapM_eq_ok_iff]
    refine related.imp fun row k here => ?_
    obtain ⟨mem, first, tuple⟩ := here
    have same : orders.mapM (sortKey false row) = keyTuple pb.projs rowDesc items row :=
      mapM_congr_forall₂ (bound.flip.imp fun o item here =>
        BoundTo.key_row here aligned (fits row mem))
    rw [rowKeys, same, tuple, first]
    rfl
  obtain ⟨sorted, out, sorted_eq, perm, together, ordered⟩ := sorted_rows (bound_descs bound)
    related (fun here => here.2.2) (bound.length_eq.symm.trans types.length_eq) typed
  have sameRows : sorted = out.map Prod.fst := by
    rw [← List.forall₂_eq_eq_eq, List.forall₂_map_right_iff]
    exact together.imp fun row k here => here.2.1
  obtain ⟨outs, projections⟩ := exists_forall₂ sorted
    (r := fun row out => projectRow pb.projs row = .ok out)
    fun row mem => evaluates.projected row (perm.mem_iff.mp mem)
  rw [← mapM_eq_ok_iff] at projections
  refine ⟨sorted, outs, perm, ordered, projections, ?_⟩
  rw [pullAll_iff (by exact ready), rowsOf, rowsOf, source, Res.bind_ok, keys, Res.bind_ok,
    sorted_eq, Res.bind_ok]
  rw [sameRows] at projections
  exact projections

end Placements

/-! ## SELECT -/

/-- The columns a statement sees: those of its table, none without FROM. -/
def rowDescOf : Option TableMeta → RowDesc
  | some tbl => buildRowDesc tbl
  | none => ⟨[], []⟩

/-- A statement bound with its table, or without FROM. -/
def bindSelectOf : Option TableMeta → SelectStmt → Res BoundSelect
  | some tbl, ss => bindSelect tbl ss
  | none, ss => bindSelectNoFrom ss

/-- The plan of a bound statement over a source of rows. -/
def planOf (input : PlanNode) (b : BoundSelect) : PlanNode :=
  buildSelect input b.cond b.projs b.orders b.sortOnOutput

theorem bindSelectOf_spec {tbl : Option TableMeta} {ss : SelectStmt} {b : BoundSelect}
    (bound : bindSelectOf tbl ss = .ok b) :
    ∃ pb : ProjBind, pb.Aligned (rowDescOf tbl) ∧ b.projs = pb.projs ∧
      (ss.orders = [] ∧ b.orders = [] ∨
        ss.orders ≠ [] ∧ bindOrders ss.orders pb (rowDescOf tbl) = .ok (b.orders, b.sortOnOutput)) := by
  obtain ⟨projections, same, aligned⟩ : ∃ projections : List SelectItem → Res ProjBind,
      bindSelectOf tbl ss = bindSelectWith (rowDescOf tbl) projections ss ∧
        ∀ {items pb}, projections items = .ok pb → pb.Aligned (rowDescOf tbl) := by
    cases tbl with
    | some tbl => exact ⟨_, rfl, buildProjs_aligned⟩
    | none => exact ⟨_, rfl, buildProjsNoFrom_aligned⟩
  rw [same] at bound
  obtain ⟨cond, -, bound⟩ := Res.bind_eq_ok.mp bound
  obtain ⟨pb, built, bound⟩ := Res.bind_eq_ok.mp bound
  refine ⟨pb, aligned built, ?_⟩
  split at bound
  · rename_i none
    cases bound
    exact ⟨rfl, Or.inl ⟨List.isEmpty_iff.mp none, rfl⟩⟩
  · rename_i some
    obtain ⟨⟨orders, sortOnOutput⟩, keys, bound⟩ := Res.bind_eq_ok.mp bound
    cases bound
    exact ⟨rfl, Or.inr ⟨fun empty => some (List.isEmpty_iff.mpr empty), keys⟩⟩

theorem filtered_ready {db : Db} {input : PlanNode} (cond : Option BoundExpr)
    (ready : input.Ready db) : (filtered input cond).Ready db := by
  cases cond <;> exact ready

/-- The rows of a bound statement, in the order of its keys. -/
theorem gives_planOf {disk : DiskPages} {db : Db} {tbl : Option TableMeta} {ss : SelectStmt}
    {b : BoundSelect} {input : PlanNode} {rows : List Row} (bound : bindSelectOf tbl ss = .ok b)
    (seeds : ∀ t ∈ (rowDescOf tbl).colTypes, t ∈ kTypeAttrs) (ready : input.Ready db)
    (source : pullAll disk db (filtered input b.cond) = .ok rows)
    (fits : ∀ row ∈ rows, RowFits (rowDescOf tbl).colTypes (some row))
    (evaluates : Evaluates b.projs (rowDescOf tbl) ss.orders rows) :
    Gives disk db (planOf input b) b.projs (rowDescOf tbl) ss.orders rows := by
  have ready := filtered_ready b.cond ready
  rw [pullAll_iff ready] at source
  obtain ⟨pb, aligned, projs, ⟨none, unsorted⟩ | ⟨some, keys⟩⟩ := bindSelectOf_spec bound
  · -- no keys: the projection alone
    obtain ⟨outs, projections⟩ := exists_forall₂ rows evaluates.projected
    rw [← mapM_eq_ok_iff] at projections
    refine ⟨rows, outs, List.Perm.refl _, ?_, projections, ?_⟩
    · rw [none]
      refine List.pairwise_of_forall fun p q => ?_
      rintro ⟨ps, qs, -, -, precedes⟩
      cases precedes
    · rw [planOf, buildSelect, unsorted]
      change pullAll disk db (.project (filtered input b.cond) b.projs) = _
      rw [pullAll_iff (by exact ready), rowsOf, source, Res.bind_ok, projections]
  · have items := bindOrders_spec keys
    obtain ⟨ts, types⟩ := exists_forall₂ (r := KeyType pb (rowDescOf tbl)) ss.orders
      fun item mem => by
        obtain ⟨o, here⟩ := exists_of_mem_right items.flip mem
        exact BoundTo.keyType here aligned seeds
    have sorts : b.orders.isEmpty = false := by
      rw [List.isEmpty_eq_false_iff]
      intro empty
      rw [empty, List.forall₂_nil_right_iff] at items
      exact some items
    rw [projs] at evaluates ⊢
    rw [planOf, buildSelect, sorts, projs]
    cases placement : b.sortOnOutput with
    | true =>
        rw [placement] at items
        exact gives_sort_project ready source fits evaluates items types
    | false =>
        rw [placement] at items
        exact gives_project_sort ready source aligned fits evaluates items types

/-- More keys at the end keep what the first keys decide. -/
theorem Before.append {projs : List ProjCol} {items extra : List OrderItem} {p q : Row}
    (before : Before projs rowDesc items p q)
    (evaluates : ∀ row ∈ [p, q], ∀ item ∈ extra, ∃ v,
      denotedKey projs rowDesc item.expr row = .ok v) :
    Before projs rowDesc (items ++ extra) p q := by
  obtain ⟨ps, qs, tupleP, tupleQ, precedes⟩ := before
  have more : ∀ row ∈ [p, q], ∀ ks, keyTuple projs rowDesc items row = .ok ks →
      ∃ ks', keyTuple projs rowDesc (items ++ extra) row = .ok (ks ++ ks') := by
    intro row mem ks tuple
    obtain ⟨ks', values⟩ := exists_forall₂ extra (evaluates row mem)
    refine ⟨ks', mapM_eq_ok_iff.mpr ?_⟩
    exact List.rel_append (mapM_eq_ok_iff.mp tuple) values
  obtain ⟨ps', tupleP⟩ := more p (by simp) ps tupleP
  obtain ⟨qs', tupleQ⟩ := more q (by simp) qs tupleQ
  refine ⟨_, _, tupleP, tupleQ, ?_⟩
  rw [List.map_append]
  exact precedes.append

/-- The condition and the projection of a statement do not depend on its keys. -/
theorem bindSelectOf_same {tbl : Option TableMeta} {ss : SelectStmt} {b b' : BoundSelect}
    {orders : List OrderItem} (bound : bindSelectOf tbl ss = .ok b)
    (bound' : bindSelectOf tbl { ss with orders := orders } = .ok b') :
    b'.cond = b.cond ∧ b'.projs = b.projs := by
  have first : ∀ {ss : SelectStmt} {b projections},
      bindSelectWith (rowDescOf tbl) projections ss = .ok b →
        ss.cond.mapM (fun cond => bindWhere cond (rowDescOf tbl)) = .ok b.cond ∧
          ∃ pb, projections ss.items = .ok pb ∧ b.projs = pb.projs := by
    intro ss b projections bound
    obtain ⟨cond, where_, bound⟩ := Res.bind_eq_ok.mp bound
    obtain ⟨pb, built, bound⟩ := Res.bind_eq_ok.mp bound
    split at bound
    · cases bound
      exact ⟨where_, pb, built, rfl⟩
    · obtain ⟨keys, -, bound⟩ := Res.bind_eq_ok.mp bound
      cases bound
      exact ⟨where_, pb, built, rfl⟩
  have second : ∃ projections, ∀ ss : SelectStmt,
      bindSelectOf tbl ss = bindSelectWith (rowDescOf tbl) projections ss := by
    cases tbl <;> exact ⟨_, fun ss => rfl⟩
  obtain ⟨projections, same⟩ := second
  rw [same] at bound bound'
  obtain ⟨cond, pb, built, projs⟩ := first bound
  obtain ⟨cond', pb', built', projs'⟩ := first bound'
  cases built.symm.trans built'
  exact ⟨Except.ok.inj (cond'.symm.trans cond), projs'.trans projs.symm⟩

/-- The rows of a SELECT are the projections of its filtered rows in the order of its keys,
wherever the plan sorts, and a further key leaves the order of rows that differ on them. -/
theorem select_order_exact {disk : DiskPages} {db : Db} {tbl : Option TableMeta} {ss : SelectStmt}
    {b : BoundSelect} {input : PlanNode} {rows : List Row} (bound : bindSelectOf tbl ss = .ok b)
    (seeds : ∀ t ∈ (rowDescOf tbl).colTypes, t ∈ kTypeAttrs) (ready : input.Ready db)
    (source : pullAll disk db (filtered input b.cond) = .ok rows)
    (fits : ∀ row ∈ rows, RowFits (rowDescOf tbl).colTypes (some row))
    (evaluates : Evaluates b.projs (rowDescOf tbl) ss.orders rows) :
    Gives disk db (planOf input b) b.projs (rowDescOf tbl) ss.orders rows ∧
      ∀ extra b', bindSelectOf tbl { ss with orders := ss.orders ++ [extra] } = .ok b' →
        (∀ row ∈ rows, ∃ v, denotedKey b.projs (rowDescOf tbl) extra.expr row = .ok v) →
          Gives disk db (planOf input b') b.projs (rowDescOf tbl) ss.orders rows := by
  refine ⟨gives_planOf bound seeds ready source fits evaluates, ?_⟩
  intro extra b' bound' evaluated
  obtain ⟨cond, projs⟩ := bindSelectOf_same bound bound'
  have keys : ∀ row ∈ rows, ∀ item ∈ ss.orders ++ [extra], ∃ v,
      denotedKey b.projs (rowDescOf tbl) item.expr row = .ok v := by
    intro row mem item inItems
    rcases List.mem_append.mp inItems with old | new
    · exact evaluates.keys row mem item old
    · cases List.mem_singleton.mp new
      exact evaluated row mem
  rw [← cond] at source
  have gives := gives_planOf bound' seeds ready source fits (by
    rw [projs]
    exact ⟨evaluates.projected, keys⟩)
  rw [projs] at gives
  obtain ⟨sorted, out, perm, ordered, projections, pulled⟩ := gives
  refine ⟨sorted, out, perm, ?_, projections, pulled⟩
  -- what all keys leave in place, the first keys leave in place
  refine ordered.imp_of_mem fun {p q} inP inQ notBefore before => notBefore ?_
  apply before.append
  intro row mem item new
  cases List.mem_singleton.mp new
  refine evaluated row (perm.mem_iff.mp ?_)
  rcases List.mem_pair.mp mem with rfl | rfl
  · exact inQ
  · exact inP

/-- `SELECT c AS k FROM t ORDER BY k DESC`. -/
def pairSelect : SelectStmt where
  items := [.expr (.identifier "c") "k"]
  orders := [⟨.identifier "k", true⟩]

/-- The bound statement: the key is the output column. -/
def pairBound : BoundSelect where
  cond := none
  projs := [{ expr := some (.colRef 0 kInt), name := "k" }]
  orders := [{ desc := true, outIdx := 0, expr := none }]
  sortOnOutput := true

/-- The same statement with `c` as a further key: both keys are taken from the row. -/
def pairBoundRow : BoundSelect where
  cond := none
  projs := [{ expr := some (.colRef 0 kInt), name := "k" }]
  orders := [{ desc := true, expr := some (.colRef 0 kInt) },
    { desc := false, expr := some (.colRef 0 kInt) }]
  sortOnOutput := false

theorem select_order_exact_pair :
    Gives (fun _ => 2) pairDb (planOf (.seqScan pairTable) pairBoundRow) pairBound.projs
      (buildRowDesc pairTable) pairSelect.orders [pairRow 5 0, pairRow 7 2] := by
  have ready : (PlanNode.seqScan pairTable).Ready pairDb :=
    ⟨pairHeap, rfl, pairHeap_wellFormed⟩
  have rows : pullAll (fun _ => 2) pairDb (filtered (.seqScan pairTable) pairBound.cond) =
      .ok [pairRow 5 0, pairRow 7 2] := by
    rw [pullAll_iff (by exact ready)]
    decide +kernel
  have fit : ∀ n : Int64, int32Min ≤ n.toInt ∧ n.toInt ≤ int32Max → Fits (intVal kInt n) kInt :=
    fun n range => ⟨Value.OfType.mk (by decide) rfl trivial, intVal_inRange fun _ => range⟩
  have fits : ∀ row ∈ [pairRow 5 0, pairRow 7 2],
      RowFits (buildRowDesc pairTable).colTypes (some row) := by
    rintro row mem (_ | i) t place
    · cases place
      rcases List.mem_pair.mp mem with rfl | rfl
      · exact ⟨_, _, rfl, rfl, fit 5 (by decide)⟩
      · exact ⟨_, _, rfl, rfl, fit 7 (by decide)⟩
    · cases place
  have keys : ∀ row ∈ [pairRow 5 0, pairRow 7 2], ∀ e ∈ [SqlExpr.identifier "k", .identifier "c"],
      ∃ v, denotedKey pairBound.projs (buildRowDesc pairTable) e row = .ok v := by
    intro row mem e inKeys
    rcases List.mem_pair.mp mem with rfl | rfl <;>
      rcases List.mem_pair.mp inKeys with rfl | rfl <;>
        exact ⟨_, by rfl⟩
  have evaluates : Evaluates pairBound.projs (buildRowDesc pairTable) pairSelect.orders
      [pairRow 5 0, pairRow 7 2] := by
    refine ⟨fun row mem => ?_, fun row mem item inItems => ?_⟩
    · rcases List.mem_pair.mp mem with rfl | rfl
      · exact ⟨_, by rfl⟩
      · exact ⟨_, by rfl⟩
    · cases List.mem_singleton.mp inItems
      exact keys row mem _ List.mem_cons_self
  have bound : bindSelectOf (some pairTable) pairSelect = .ok pairBound := by rfl
  refine (select_order_exact bound (by decide) ready rows fits evaluates).2
    ⟨.identifier "c", false⟩ pairBoundRow (by rfl) fun row mem => ?_
  exact keys row mem _ (by simp)

end MySimpleDb.Executor
