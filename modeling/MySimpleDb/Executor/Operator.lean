import MySimpleDb.Catalog.Dml
import MySimpleDb.Expr.Eval
import MySimpleDb.Planner.Plan

/-!
# Operators

Each plan node has an operator that is opened and then pulled row by row.  What
an operator keeps between two calls is its state.
-/

namespace MySimpleDb.Planner.PlanNode

open MySimpleDb.Lib MySimpleDb.Storage MySimpleDb.Analyzer MySimpleDb.Expr MySimpleDb.Catalog

/-! ## States -/

/-- What the operator of a node keeps: the scanner, the index scanners from `pos`
on, whether the single row was given, or the sorted rows from `pos` on. -/
def State : PlanNode → Type
  | .seqScan _ => HeapFile.Scanner
  | .indexScan .. => List IndexScanner
  | .fetch _ child => child.State
  | .dummyScan => Bool
  | .empty => Unit
  | .filter child _ => child.State
  | .project child _ => child.State
  | .sort .. => List Row

/-- More rows than a scan of the files in `db` gives. -/
def turns (db : Db) : PlanNode → Nat
  | .seqScan table => ((db.heaps table.fileId).elim 0 fun h => h.live.length) + 1
  | .indexScan _ indexFid ranges =>
      ranges.length * ((db.indexes indexFid).elim 0 fun f => f.entries.length) + 1
  | .fetch _ child => child.turns db
  | .dummyScan => 2
  | .empty => 1
  | .filter child _ => child.turns db
  | .project child _ => child.turns db
  | .sort child .. => child.turns db

def stuck : Err := .crash "operator does not end"

/-! ## Single rows -/

/-- The row of an index entry: a location without values. -/
def entryRow (heapFid : Nat) (e : BTreeEntry) : Row where
  ref := ⟨⟨heapFid, e.pageNo.toNat⟩, e.slot.toNat⟩

/-- The next entry of an index scanner. -/
def nextEntry (db : Db) (indexFid : Nat) : Pull IndexScanner BTreeEntry Err := fun s => do
  let f ← db.index indexFid
  IndexScanner.next indexFid f s

/-- The row a location leads to; a dead one is passed over. -/
def fetchRow (db : Db) (disk : DiskPages) (cols : List ColumnSpec) (row : Row) :
    Res (Option Row) := do
  let h ← db.heap row.ref.page.fileId
  h.readRow (disk row.ref.page.fileId) row.ref cols

def filterRow (pred : BoundExpr) (row : Row) : Res (Option Row) := do
  return if ← whereMatch pred row then some row else none

def projectCol (row : Row) (p : ProjCol) : Res Value :=
  match p.expr with
  | some e => evalRow e row
  | none =>
      match row.values[p.colIdx]? with
      | some v => .ok v
      | none => .error (.crash "projected column out of range")

/-- The row keeps its location. -/
def projectRow (projs : List ProjCol) (row : Row) : Res Row := do
  return { row with values := ← projs.mapM (projectCol row) }

/-! ## Sorting -/

/-- A row with the values of its sort keys. -/
abbrev RowKeys : Type := Row × List Value

def sortKey (sortOnOutput : Bool) (row : Row) (o : BoundOrderItem) : Res Value :=
  if sortOnOutput then
    match row.values[o.outIdx]? with
    | some v => .ok v
    | none => .error (.crash "sort column out of range")
  else
    match o.expr with
    | some e => evalRow e row
    | none => .error (.crash "sort key without expression")

def rowKeys (orders : List BoundOrderItem) (sortOnOutput : Bool) (row : Row) : Res RowKeys := do
  return (row, ← orders.mapM (sortKey sortOnOutput row))

/-- Key by key; a descending key counts the other way. -/
def keyLess : List BoundOrderItem → List Value → List Value → Res Bool
  | o :: orders, l :: ls, r :: rs => do
      let c ← valueCmp l r
      let c := if o.desc then -c else c
      if c ≠ 0 then return c < 0 else keyLess orders ls rs
  | _, _, _ => .ok false

/-- Put a row behind the sorted ones that do not come after it. -/
def insertSorted (orders : List BoundOrderItem) (r : RowKeys) : List RowKeys → Res (List RowKeys)
  | [] => .ok [r]
  | r' :: rows => do
      if ← keyLess orders r.2 r'.2 then return r :: r' :: rows
      else return r' :: (← insertSorted orders r rows)

/-- `std::sort`, here by insertion. -/
def sortRows (orders : List BoundOrderItem) (rows : List RowKeys) : Res (List RowKeys) :=
  rows.foldlM (fun sorted r => insertSorted orders r sorted) []

/-! ## Operators -/

/-- The next row of an opened operator. -/
def next (disk : DiskPages) (db : Db) : (p : PlanNode) → Pull p.State Row Err
  | .seqScan table => fun s => do
      let h ← db.heap table.fileId
      HeapFile.Scanner.next table.fileId h table.cols s
  | .indexScan table indexFid _ =>
      -- the scanners one after another
      Pull.pass (Pull.series (nextEntry db indexFid)) fun e => .ok (entryRow table.fileId e)
  | .fetch table child => fun s =>
      Pull.sieve (next disk db child) (fetchRow db disk table.cols) stuck (child.turns db) s
  | .dummyScan => fun (done : Bool) =>
      if done then .ok (none, true) else .ok (some {}, true)
  | .empty => fun _ => .ok (none, ())
  | .filter child pred => fun s =>
      Pull.sieve (next disk db child) (filterRow pred) stuck (child.turns db) s
  | .project child projs => Pull.pass (next disk db child) (projectRow projs)
  | .sort _ _ _ => fun rows =>
      match rows with
      | [] => .ok (none, [])
      | row :: rows => .ok (some row, rows)

/-- `make_operator` and `open`. -/
def opened (disk : DiskPages) (db : Db) : (p : PlanNode) → Res p.State
  | .seqScan table => do
      let h ← db.heap table.fileId
      return HeapFile.Scanner.create h
  | .indexScan _ indexFid ranges =>
      ranges.mapM fun r => do
        let f ← db.index indexFid
        return IndexScanner.create f r.lo r.hi
  | .fetch _ child => opened disk db child
  | .dummyScan => .ok false
  | .empty => .ok ()
  | .filter child _ => opened disk db child
  | .project child _ => opened disk db child
  | .sort child orders sortOnOutput => do
      let s ← opened disk db child
      let rows ← Pull.collect (next disk db child) stuck (child.turns db) s
      let keyed ← rows.mapM (rowKeys orders sortOnOutput)
      return (← sortRows orders keyed).map Prod.fst

/-- All rows of a plan: its operator opened and pulled to the end. -/
def pullAll (disk : DiskPages) (db : Db) (p : PlanNode) : Res (List Row) := do
  let s ← opened disk db p
  Pull.collect (next disk db p) stuck (p.turns db) s

end MySimpleDb.Planner.PlanNode
