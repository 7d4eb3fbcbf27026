import MySimpleDb.Executor.Operator

/-!
# Executing INSERT, DELETE and UPDATE

DELETE and UPDATE pull their child to the end before they change the first row.
-/

namespace MySimpleDb.Executor

open MySimpleDb.Storage MySimpleDb.Analyzer MySimpleDb.Expr MySimpleDb.Catalog MySimpleDb.Planner

/-- `coerce_col_value`: the value a column takes. -/
def coerceColValue (col : ColumnSpec) (v : Value) : Res Value :=
  if valueIsNull v then
    if col.notNull then dbRaise .valueMismatch ("NOT NULL 列不允许 NULL: " ++ col.name)
    else .ok v
  else if col.type.rep = .dec then
    if col.length = 0 then castValue v col.type .assignment
    else coerceNumeric v col.type col.length col.scale .assignment
  else castValue v col.type .assignment

/-! ## INSERT -/

/-- The values of a new row. -/
def insertValues : List ColumnSpec → List BoundExpr → Res (List Value)
  | col :: cols, e :: row => do
      let v ← coerceColValue col (← evalConst e)
      let rest ← insertValues cols row
      return v :: rest
  | [], _ :: _ => .error (.crash "inserted column out of range")
  | _, [] => .ok []

/-- The insertions, from row `i` on. -/
def insertLoop (disk : Nat → DiskPages) (table : TableMeta) :
    Nat → List (List BoundExpr) → Db → Res Db
  | _, [], db => .ok db
  | i, row :: rows, db => do
      let values ← insertValues table.cols row
      let (db, _) ← db.insert (disk i) table values
      insertLoop disk table (i + 1) rows db

/-- The number of rows inserted. -/
def runInsert (disk : Nat → DiskPages) (p : InsertPlan) (db : Db) : Res (Db × Nat) := do
  let db ← insertLoop disk p.table 0 p.rows db
  return (db, p.rows.length)

/-! ## DELETE -/

/-- The deletions, from row `i` on. -/
def deleteLoop (disk : Nat → DiskPages) : Nat → List RowRef → Db → Res (Db × Nat)
  | _, [], db => .ok (db, 0)
  | i, ref :: refs, db => do
      let (db, n) ← db.deleteByRef (disk i) ref
      let (db, deleted) ← deleteLoop disk (i + 1) refs db
      return (db, n + deleted)

/-- `run_delete_where`: the number of rows deleted. -/
def runDeleteWhere (disk : Nat → DiskPages) (dp : DeletePlan) (db : Db) : Res (Db × Nat) := do
  let rows ← dp.child.pullAll (disk 0) db
  deleteLoop disk 1 (rows.map Row.ref) db

/-! ## UPDATE -/

/-- One assignment, evaluated on the old row. -/
def assign (cols : List ColumnSpec) (old : Row) (vals : List Value) (a : BoundUpdateItem) :
    Res (List Value) :=
  match cols[a.colIdx]? with
  | none => .error (.crash "assigned column out of range")
  | some col => do
      let v ← coerceColValue col (← evalRow a.value old)
      return vals.set a.colIdx v

/-- The values of the new row. -/
def assignAll (cols : List ColumnSpec) (assigns : List BoundUpdateItem) (old : Row) :
    Res (List Value) :=
  assigns.foldlM (assign cols old) old.values

def rowUpdate (up : UpdatePlan) (old : Row) : Res RowUpdate := do
  return ⟨old.ref, ← assignAll up.table.cols up.assigns old⟩

/-- `run_update`: the number of rows updated. -/
def runUpdate (disk : Nat → DiskPages) (up : UpdatePlan) (db : Db) : Res (Db × Nat) := do
  let olds ← up.child.pullAll (disk 0) db
  let rows ← olds.mapM (rowUpdate up)
  db.updateRows (fun i => disk (i + 1)) up.table rows

end MySimpleDb.Executor
