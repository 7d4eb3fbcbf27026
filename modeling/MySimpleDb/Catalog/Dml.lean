import MySimpleDb.Storage.HeapUpdate
import MySimpleDb.Storage.IndexFile

/-!
# Changing the rows of tables

The catalog's insertion, update and deletion of rows: each writes the heap file
of the table and, for a new row, an entry to every index of the table.  `disk`
says how many pages of a file are in the data directory when a row is handled.
-/

namespace MySimpleDb.Catalog

open MySimpleDb.Storage

/-- `db_index` row of one index of a table. -/
structure IndexEntry where
  name : String
  tableId : Nat
  colOrdinal : Nat
  fileId : Nat
deriving DecidableEq, Repr

/-- Table files and index files by file id, and the rows of `db_index`. -/
structure Db where
  heaps : Nat → Option HeapFile
  indexes : Nat → Option IndexFile
  indexRows : List IndexEntry

/-- New location and values of a row to update. -/
structure RowUpdate where
  ref : RowRef
  values : List Value
deriving DecidableEq

/-- Pages of each file on disk. -/
abbrev DiskPages : Type := Nat → Nat

namespace Db

def heap (db : Db) (fid : Nat) : Res HeapFile :=
  match db.heaps fid with
  | none => dbCritical "文件头页损坏"
  | some h => .ok h

/-- `tree_for`. -/
def index (db : Db) (fid : Nat) : Res IndexFile :=
  match db.indexes fid with
  | none => .error (.critical s!"B+树文件缺失: file={fid}")
  | some f => .ok f

def setHeap (db : Db) (fid : Nat) (h : HeapFile) : Db :=
  { db with heaps := Function.update db.heaps fid (some h) }

def setIndex (db : Db) (fid : Nat) (f : IndexFile) : Db :=
  { db with indexes := Function.update db.indexes fid (some f) }

/-- `table_indexes`. -/
def tableIndexes (db : Db) (tableId : Nat) : List IndexEntry :=
  db.indexRows.filter fun ent => ent.tableId = tableId

/-! ## Rows and their index entries -/

/-- The entries of a row in the indexes listed. -/
def indexInsert (table : TableMeta) (values : List Value) (ref : RowRef) :
    List IndexEntry → Db → Res Db
  | [], db => .ok db
  | ent :: ents, db =>
      match table.cols[ent.colOrdinal]?, values[ent.colOrdinal]? with
      | some col, some v => do
          let key ← encodeKey col.type v
          let f ← db.index ent.fileId
          indexInsert table values ref ents
            (db.setIndex ent.fileId (f.insert ⟨key, .ofNat ref.page.pageNo, .ofNat ref.slot⟩))
      | _, _ => dbCritical ("索引列序号越界: " ++ ent.name)

/-- `Engine::insert_row` and the entries of the new row. -/
def addRow (disk : DiskPages) (table : TableMeta) (values : List Value) (ents : List IndexEntry)
    (db : Db) : Res (Db × Nat × RowRef) := do
  let h ← db.heap table.fileId
  let (h, rid, ref) ← h.insertRow table.fileId (disk table.fileId) table.cols values
  let db ← indexInsert table values ref ents (db.setHeap table.fileId h)
  return (db, rid, ref)

/-- `Engine::delete_row`. -/
def deleteRow (disk : DiskPages) (ref : RowRef) (db : Db) : Res (Db × Nat) := do
  let h ← db.heap ref.page.fileId
  let (h, n) ← h.deleteRow (disk ref.page.fileId) ref
  return (db.setHeap ref.page.fileId h, n)

/-! ## The facade -/

/-- `Catalog::insert`: the row id. -/
def insert (disk : DiskPages) (table : TableMeta) (values : List Value) (db : Db) :
    Res (Db × Nat) := do
  let (db, rid, _) ← addRow disk table values (db.tableIndexes table.tableId) db
  return (db, rid)

/-- `Catalog::delete_by_ref`: the number of rows deleted. -/
def deleteByRef (disk : DiskPages) (ref : RowRef) (db : Db) : Res (Db × Nat) :=
  if ref.page = invalidPage then dbRaise .internal "删除引用缺少页位置"
  else if (db.heaps ref.page.fileId).isNone then
    dbRaise .tableNotFound s!"删除引用指向不存在的表文件: fid={ref.page.fileId}"
  else deleteRow disk ref db

/-- One turn of `update_rows`. -/
def updateRow (disk : DiskPages) (table : TableMeta) (ents : List IndexEntry) (r : RowUpdate)
    (db : Db) : Res Db :=
  if r.ref.page.fileId ≠ table.fileId then
    dbRaise .internal s!"更新引用与目标表文件不符: fid={r.ref.page.fileId}"
  else do
    let (db, n) ← deleteRow disk r.ref db
    if n = 0 then dbRaise .internal "更新引用指向已删行"
    else
      let (db, _, _) ← addRow disk table r.values ents db
      return db

/-- The loop of `update_rows`, from row `i` on. -/
def updateLoop (disk : Nat → DiskPages) (table : TableMeta) (ents : List IndexEntry) :
    Nat → List RowUpdate → Db → Res Db
  | _, [], db => .ok db
  | i, r :: rows, db => do
      let db ← updateRow (disk i) table ents r db
      updateLoop disk table ents (i + 1) rows db

/-- `Catalog::update_rows`: the number of rows updated. -/
def updateRows (disk : Nat → DiskPages) (table : TableMeta) (rows : List RowUpdate) (db : Db) :
    Res (Db × Nat) := do
  let db ← updateLoop disk table (db.tableIndexes table.tableId) 0 rows db
  return (db, rows.length)

/-- `Catalog::delete_all`: the number of rows that were live. -/
def deleteAll (disk : DiskPages) (table : TableMeta) (db : Db) : Res (Db × Nat) := do
  let h ← db.heap table.fileId
  let (h, n) ← h.deleteAllRows table.fileId (disk table.fileId)
  return (db.setHeap table.fileId h, n)

end Db

end MySimpleDb.Catalog
