import MySimpleDb.Storage.BTree
import MySimpleDb.Storage.PatchExact

/-!
# Transactions of the storage engine

Begin, commit, rollback and checkpoint, the files that are created and dropped in a
transaction, and the start of a process on what an earlier one left.
-/

namespace MySimpleDb.Storage

open MySimpleDb.Lib

namespace Engine

/-! ## The active transaction -/

/-- `check_txn`; the file id 0 names no file. -/
def checkTxn (fid : Nat) : EngineM Unit := do
  let e ← get
  match e.txn with
  | none => throw (.raise .internal "持久化原语须在活动事务内调用")
  | some txn =>
      if fid ∈ txn.pendingDrops then
        throw (.raise .internal s!"同事务内已登记删除的文件禁止再修改: fid={fid}")

def beginTxn : EngineM Unit := do
  let e ← get
  if e.txn.isSome then throw (.raise .internal "已有活动事务")
  else set { e with
    wal := { e.wal with nextTxnId := e.wal.nextTxnId + 1 }
    txn := some { txnId := e.wal.nextTxnId } }

def noTxn : Err := .raise .internal "无活动事务"

def logCommit (txn : TxnContext) (e : Engine) : Engine :=
  if txn.wrote then { e with wal := (e.wal.append (.commit txn.txnId)).sync } else e

/-- The `Commit` record is on disk before any file is unlinked. -/
def commitTxn : EngineM Unit := do
  let e ← get
  match e.txn with
  | none => throw noTxn
  | some txn => do
      modify (logCommit txn)
      txn.pendingDrops.forM fun fid => onFiles (FileManager.removeTableFile fid)
      modify fun e => { e with txn := none }

def logAbort (txn : TxnContext) (e : Engine) : Engine :=
  if txn.wrote then { e with wal := e.wal.append (.abort txn.txnId) } else e

/-- The undo entries are restored, the last one first, and so are the tail pages. -/
def rollbackTxn : EngineM Unit := do
  let e ← get
  match e.txn with
  | none => throw noTxn
  | some txn => do
      restoreAll txn.undo
      modify fun e => { e with
        tailPages := txn.tailUndo.reverse.foldl
          (fun tails u => Function.update tails u.fid u.old) e.tailPages }
      modify (logAbort txn)
      modify fun e => { e with txn := none }

/-! ## Files -/

def initTable (fid : Nat) : PoolM Unit := do
  let pid0 : PageId := ⟨fid, 0⟩
  PoolM.createTableFile fid
  PoolM.allocate pid0
  PoolM.poke pid0 (initPage magicFileHeader .fileHeader)
  PoolM.markDirty pid0
  PoolM.unpin pid0
  PoolM.flush pid0

def initTableFile (fid : Nat) : EngineM Unit := do
  checkTxn fid
  PoolM.run (initTable fid)

def initIndexFile (fid : Nat) : EngineM Unit := do
  checkTxn fid
  modify fun e => { e with trees := Function.update e.trees fid none }
  PoolM.run (do
    BTree.create fid
    PoolM.flush ⟨fid, 1⟩)

def logDrop (fid : Nat) (txn : TxnContext) (e : Engine) : Engine :=
  { e with
    wal := e.wal.append (.dropFile txn.txnId fid)
    txn := some { txn with wrote := true } }

/-- The file stays until the transaction commits. -/
def dropFile (fid : Nat) : EngineM Unit := do
  checkTxn 0
  modify fun e => e.txn.elim e fun txn => logDrop fid txn e
  BufferPool.dropTable fid
  modify fun e => { e with txn := e.txn.map fun txn =>
    { txn with pendingDrops := txn.pendingDrops ++ [fid] } }

def removeTableFile (fid : Nat) : EngineM Unit := do
  dropFile fid
  modify fun e => { e with tailPages := Function.update e.tailPages fid none }

def removeIndexFile (fid : Nat) : EngineM Unit := do
  dropFile fid
  modify fun e => { e with trees := Function.update e.trees fid none }

/-! ## Indexes -/

/-- A tree that is not tracked is opened first. -/
def treeFor (fid : Nat) : EngineM Unit := do
  let e ← get
  if e.trees fid = none then PoolM.run (BTree.openFile fid)

/-- The entry of a row. -/
def indexEntry (key : IndexKey) (ref : RowRef) : BTreeEntry :=
  ⟨key, .ofNat ref.page.pageNo, .ofNat ref.slot⟩

def indexInsert (fid : Nat) (key : IndexKey) (ref : RowRef) : EngineM Unit := do
  checkTxn fid
  treeFor fid
  PoolM.run (BTree.insert fid (indexEntry key ref))

/-! ## Checkpoints -/

/-- The log is on disk before the data files are, and is emptied after them. -/
def checkpoint : EngineM Unit := do
  let e ← get
  if e.txn.isSome then throw (.raise .internal "检查点不能在活动事务内执行")
  else do
    BufferPool.flushAll
    modify fun e => { e with wal := e.wal.sync }
    modify fun e => { e with files := e.files.flushAll }
    modify fun e => { e with wal := e.wal.reset }

def close : EngineM Unit := do
  checkpoint
  modify fun e => { e with files := { e.files with fds := fun _ => false } }

end Engine

/-! ## Processes -/

/-- Operation, transaction and payload of a record. -/
def LogRecord.fields (r : LogRecord) : UInt8 × Nat × Bytes :=
  ((r.inFile 0).op, (r.inFile 0).txn, (r.inFile 0).payload)

/-- What a process leaves that ends without a checkpoint: the files, and a log that may
have bytes of a record at its end that was not completed. -/
def leftBy (files : FileManager) (records : List LogRecord) (lsn : Nat) (torn : Bytes) :
    Directory where
  files := { files with fds := fun _ => false }
  wal :=
    { bytes := (appendAll (records.map LogRecord.fields) { nextLsn := lsn }).bytes ++ torn }

/-- `Engine::open` in a new process. -/
def Directory.openEngine (frames : Nat) (chunks : Nat → Nat) (dir : Directory) :
    Except Err Engine :=
  match (recover chunks).exit dir with
  | (.ok _, dir') => .ok { files := dir'.files, frames := List.replicate frames {} }
  | (.error err, _) => .error err

end MySimpleDb.Storage
