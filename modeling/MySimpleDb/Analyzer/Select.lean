import Mathlib.Data.List.Forall2
import MySimpleDb.Analyzer.Bind

/-!
# Binding SELECT

Select lists become projection columns, and sort keys become output columns
where all of them name one, else expressions over the input row.
-/

namespace MySimpleDb.Analyzer

open MySimpleDb.Lib MySimpleDb.Storage MySimpleDb.Parser

/-! ## Projections -/

/-- The projection columns and, beside each, the expression it was written as; a star column
has none. -/
structure ProjBind where
  projs : List ProjCol := []
  src : List (Option SqlExpr) := []

def ProjBind.append (pb pb' : ProjBind) : ProjBind :=
  ⟨pb.projs ++ pb'.projs, pb.src ++ pb'.src⟩

/-- A column is named by its alias, else by the column it is, else by its text. -/
def bindProjItem (e : SqlExpr) (aliasName : String) (rowDesc : RowDesc) : Res ProjCol := do
  let (bound, _) ← bindExpr (some rowDesc) e
  let name :=
    if aliasName ≠ "" then aliasName
    else
      match e with
      | .identifier name => name
      | e => exprToString e
  pure { expr := some bound, name := name }

/-- The columns a star stands for. -/
def starProjs (tbl : TableMeta) : ProjBind where
  projs := tbl.cols.zipIdx.map fun (col, i) => { expr := none, name := col.name, colIdx := i }
  src := tbl.cols.map fun _ => none

def buildProjs (tbl : TableMeta) (rowDesc : RowDesc) : List SelectItem → Res ProjBind
  | [] => .ok {}
  | .star :: items => do
      let rest ← buildProjs tbl rowDesc items
      pure ((starProjs tbl).append rest)
  | .expr e aliasName :: items => do
      let p ← bindProjItem e aliasName rowDesc
      let rest ← buildProjs tbl rowDesc items
      pure (ProjBind.append ⟨[p], [some e]⟩ rest)

def buildProjsNoFrom (rowDesc : RowDesc) : List SelectItem → Res ProjBind
  | [] => .ok {}
  | .star :: _ => dbRaise .starNoFrom "无 FROM 的 SELECT 不允许 *"
  | .expr e aliasName :: items => do
      let p ← bindProjItem e aliasName rowDesc
      let rest ← buildProjsNoFrom rowDesc items
      pure (ProjBind.append ⟨[p], [some e]⟩ rest)

/-! ## Sort keys -/

/-- A sort key that names an output column, or an expression over the input row. -/
inductive OrderKey
  | out (outIdx : Nat)
  | row (expr : BoundExpr)

def OrderKey.isOut : OrderKey → Bool
  | .out _ => true
  | .row _ => false

/-- The output columns of a name, with their positions. -/
def outputsNamed (pb : ProjBind) (name : String) : List (ProjCol × Nat) :=
  pb.projs.zipIdx.filter fun (p, _) => p.name = name

def resolveOrderKey (item : OrderItem) (pb : ProjBind) (rowDesc : RowDesc) : Res OrderKey :=
  let byRow : Res OrderKey := do
    let (e, _) ← bindExpr (some rowDesc) item.expr
    pure (.row e)
  match item.expr with
  | .int text =>
      match fromCharsI64 text with
      | some pos =>
          if pos.toInt < 1 ∨ (pb.projs.length : Int) < pos.toInt then
            dbRaise .unknownColumn ("ORDER BY 序号不在输出列范围: " ++ textString text)
          else .ok (.out (pos.toInt - 1).toNat)
      | none => dbRaise .unknownColumn ("ORDER BY 序号不在输出列范围: " ++ textString text)
  | .identifier name =>
      match outputsNamed pb name with
      | [(_, i)] => .ok (.out i)
      | [] => byRow
      | _ => dbRaise .valueMismatch ("ORDER BY 输出列名歧义: " ++ name)
  | .float _ | .decimal _ | .string _ | .null | .bool _ =>
      dbRaise .valueMismatch "ORDER BY 不允许非整数常量"
  | _ => byRow

/-- The sort key of an item once all keys are resolved. -/
def bindOrder (pb : ProjBind) (rowDesc : RowDesc) (allOut : Bool) (item : OrderItem) (key : OrderKey) :
    Res BoundOrderItem :=
  match key with
  | .row e => .ok { desc := item.desc, expr := some e }
  | .out i =>
      if allOut then .ok { desc := item.desc, outIdx := i, expr := none }
      else
        match pb.src[i]? with
        | some (some e) => do
            let (bound, _) ← bindExpr (some rowDesc) e
            pure { desc := item.desc, expr := some bound }
        | _ =>
            match pb.projs[i]? with
            | none => .error (.crash "输出列下标越界")
            | some p =>
                match rowDesc.colTypes[p.colIdx]? with
                | some type => .ok { desc := item.desc, expr := some (.colRef p.colIdx type) }
                | none => .error (.crash "列类型下标越界")

/-- The sort keys, and whether they are taken from the output. -/
def bindOrders (items : List OrderItem) (pb : ProjBind) (rowDesc : RowDesc) :
    Res (List BoundOrderItem × Bool) := do
  let keys ← items.mapM fun item => resolveOrderKey item pb rowDesc
  let allOut := keys.all OrderKey.isOut
  let orders ← (items.zip keys).mapM fun (item, key) => bindOrder pb rowDesc allOut item key
  pure (orders, allOut)

/-! ## Statements -/

structure BoundSelect where
  cond : Option BoundExpr
  projs : List ProjCol
  orders : List BoundOrderItem := []
  sortOnOutput : Bool := false

/-- What SELECT with and without FROM have in common. -/
def bindSelectWith (rowDesc : RowDesc) (projections : List SelectItem → Res ProjBind)
    (ss : SelectStmt) : Res BoundSelect := do
  let cond ← ss.cond.mapM fun cond => bindWhere cond rowDesc
  let pb ← projections ss.items
  if ss.orders.isEmpty then pure { cond := cond, projs := pb.projs }
  else do
    let (orders, sortOnOutput) ← bindOrders ss.orders pb rowDesc
    pure { cond := cond, projs := pb.projs, orders := orders, sortOnOutput := sortOnOutput }

def bindSelect (tbl : TableMeta) (ss : SelectStmt) : Res BoundSelect :=
  bindSelectWith (buildRowDesc tbl) (buildProjs tbl (buildRowDesc tbl)) ss

/-- Without a table there is no column to resolve. -/
def bindSelectNoFrom (ss : SelectStmt) : Res BoundSelect :=
  bindSelectWith ⟨[], []⟩ (buildProjsNoFrom ⟨[], []⟩) ss

/-! ## Columns and their expressions -/

/-- A projection column beside the expression it was written as. -/
def ColOf (rowDesc : RowDesc) (p : ProjCol) : Option SqlExpr → Prop
  | some e => ∃ b t, bindExpr (some rowDesc) e = .ok (b, t) ∧ p.expr = some b
  | none => p.expr = none ∧ p.colIdx < rowDesc.colTypes.length

/-- Every projection column stands beside its expression. -/
def ProjBind.Aligned (rowDesc : RowDesc) (pb : ProjBind) : Prop :=
  List.Forall₂ (ColOf rowDesc) pb.projs pb.src

theorem bindProjItem_colOf {e : SqlExpr} {aliasName : String} {rowDesc : RowDesc} {p : ProjCol}
    (item : bindProjItem e aliasName rowDesc = .ok p) : ColOf rowDesc p (some e) := by
  obtain ⟨⟨b, t⟩, bound, same⟩ := Res.bind_eq_ok.mp item
  cases same
  exact ⟨b, t, bound, rfl⟩

theorem starProjs_aligned (tbl : TableMeta) : (starProjs tbl).Aligned (buildRowDesc tbl) := by
  rw [ProjBind.Aligned, List.forall₂_iff_get]
  have length : (starProjs tbl).projs.length = (starProjs tbl).src.length := by
    simp [starProjs]
  refine ⟨length, fun i left right => ?_⟩
  have inside : i < tbl.cols.length := by simpa [starProjs] using left
  simp [starProjs, ColOf, buildRowDesc, inside]

theorem ProjBind.Aligned.append {rowDesc : RowDesc} {pb pb' : ProjBind} (first : pb.Aligned rowDesc)
    (second : pb'.Aligned rowDesc) : (pb.append pb').Aligned rowDesc :=
  List.rel_append first second

theorem buildProjs_aligned {tbl : TableMeta} {items : List SelectItem} {pb : ProjBind}
    (built : buildProjs tbl (buildRowDesc tbl) items = .ok pb) :
    pb.Aligned (buildRowDesc tbl) := by
  induction items generalizing pb with
  | nil =>
      cases built
      exact List.Forall₂.nil
  | cons item items inductionHypothesis =>
      cases item with
      | star =>
          obtain ⟨rest, others, same⟩ := Res.bind_eq_ok.mp built
          cases same
          exact (starProjs_aligned tbl).append (inductionHypothesis others)
      | expr e aliasName =>
          obtain ⟨p, first, built⟩ := Res.bind_eq_ok.mp built
          obtain ⟨rest, others, same⟩ := Res.bind_eq_ok.mp built
          cases same
          exact List.Forall₂.cons (bindProjItem_colOf first) (inductionHypothesis others)

theorem buildProjsNoFrom_aligned {rowDesc : RowDesc} {items : List SelectItem} {pb : ProjBind}
    (built : buildProjsNoFrom rowDesc items = .ok pb) : pb.Aligned rowDesc := by
  induction items generalizing pb with
  | nil =>
      cases built
      exact List.Forall₂.nil
  | cons item items inductionHypothesis =>
      cases item with
      | star => exact absurd built dbRaise_ne_ok
      | expr e aliasName =>
          obtain ⟨p, first, built⟩ := Res.bind_eq_ok.mp built
          obtain ⟨rest, others, same⟩ := Res.bind_eq_ok.mp built
          cases same
          exact List.Forall₂.cons (bindProjItem_colOf first) (inductionHypothesis others)

end MySimpleDb.Analyzer
