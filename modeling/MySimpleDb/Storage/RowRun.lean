import MySimpleDb.Storage.RowsOnEngine

/-!
# Runs of statements on table files

Transactions of insertions, deletions and reads on any number of table files, with
commits, rollbacks, checkpoints and kills in any order.  What each statement answers is
compared with heap files of which one version is worked on and one is committed.
-/

namespace MySimpleDb.Storage

open MySimpleDb.Lib Attempt Engine

/-! ## The store -/

/-- Heap files by file id, as the transaction sees them and as they were committed, and the
files that the transaction changed.  After a rollback of changes the log is not mended until
a checkpoint. -/
structure RowStore where
  working : Nat → Option HeapFile := fun _ => none
  committed : Nat → Option HeapFile := fun _ => none
  changed : List Nat := []
  mended : Bool := true

/-- Statements on table files. -/
inductive RowOp
  | create (fid : Nat)
  | insert (fid : Nat) (cols : List ColumnSpec) (values : List Value)
  | delete (ref : RowRef)
  | deleteAll (fid : Nat)
  | read (ref : RowRef) (cols : List ColumnSpec)
  | readAll (fid : Nat) (cols : List ColumnSpec)
  | count (fid : Nat)
  | scan (fid : Nat) (cols : List ColumnSpec) (calls : Nat)

inductive RowAnswer
  | created
  | inserted (rid : Nat) (ref : RowRef)
  | counted (n : Nat)
  | row (row? : Option Row)
  | values (rows : List (List Value))
  | scanned (rows : List (Option Row))

/-- The statement on the engine. -/
def RowOp.run : RowOp → EngineM RowAnswer
  | .create fid => do
      initTableFile fid
      return .created
  | .insert fid cols values => do
      let (rid, ref) ← insertRow fid cols values
      return .inserted rid ref
  | .delete ref => return .counted (← deleteRow ref)
  | .deleteAll fid => return .counted (← deleteAllRows fid)
  | .read ref cols => return .row (← readRow ref cols)
  | .readAll fid cols => return .values (← readRows fid cols)
  | .count fid => return .counted (← rowCount fid)
  | .scan fid cols calls => return .scanned (← PoolM.run (RowScanner.scan fid cols calls))

namespace RowStore

def noTable : Err := .crash "no such table file"

def table (st : RowStore) (fid : Nat) : Res HeapFile :=
  match st.working fid with
  | none => .error noTable
  | some h => .ok h

def setTable (st : RowStore) (fid : Nat) (h : HeapFile) : RowStore :=
  { st with working := Function.update st.working fid (some h), changed := fid :: st.changed }

/-- The statement on heap files, with `pageCount` pages of its file on disk. -/
def apply (pageCount : Nat) (st : RowStore) : RowOp → Res (RowStore × RowAnswer)
  | .create fid => .ok (st.setTable fid {}, .created)
  | .insert fid cols values => do
      let (h, rid, ref) ← HeapFile.insertRow fid pageCount (← st.table fid) cols values
      return (st.setTable fid h, .inserted rid ref)
  | .delete ref => do
      let (h, n) ← HeapFile.deleteRow pageCount (← st.table ref.page.fileId) ref
      return (st.setTable ref.page.fileId h, .counted n)
  | .deleteAll fid => do
      let (h, n) ← HeapFile.deleteAllRows fid pageCount (← st.table fid)
      return (st.setTable fid h, .counted n)
  | .read ref cols => do
      let row? ← HeapFile.readRow pageCount (← st.table ref.page.fileId) ref cols
      return (st, .row row?)
  | .readAll fid cols => do
      let rows ← (← st.table fid).readRows cols
      return (st, .values rows)
  | .count fid => do
      return (st, .counted (← st.table fid).rowCount)
  | .scan fid cols calls => do
      let rows ← (← st.table fid).live.mapM (HeapFile.Scanner.rowAt fid cols)
      return (st, .scanned ((List.range calls).map fun i => rows[i]?))

def commit (st : RowStore) : RowStore :=
  { st with committed := st.working, changed := [] }

def rollback (st : RowStore) (wrote : Bool) : RowStore :=
  { st with working := st.committed, changed := [], mended := st.mended && !wrote }

def checkpoint (st : RowStore) : RowStore :=
  { st with mended := true }

/-- What a new process finds. -/
def restarted (tables : Nat → Option HeapFile) : RowStore where
  working := tables
  committed := tables

/-- The store has a version of the file. -/
def Has (st : RowStore) (fid : Nat) : Prop :=
  st.working fid ≠ none ∨ st.committed fid ≠ none

/-- The answer and the next store are those of heap files, for some number of pages on disk. -/
def Answers (st : RowStore) (op : RowOp) (r : Except Err RowAnswer) (st' : RowStore) : Prop :=
  ∃ pageCount, match st.apply pageCount op with
    | .ok (next, answer) => r = .ok answer ∧ st' = next
    | .error err => r = .error err ∧ st' = st

end RowStore

/-! ## Runs -/

/-- No page of the file has a number near the end of those that fit in a page header. -/
def Engine.HasRoom (e : Engine) (fid : Nat) : Prop :=
  e.files.pageCount fid + 2 ≤ 2 ^ 32 ∧
    ∀ i, (e.frame i).valid = true → (e.frame i).page.fileId = fid →
      (e.frame i).page.pageNo + 2 < 2 ^ 32

/-- What callers of the engine keep to: tables that exist, references to pages of their chains,
and columns that their rows decode with. -/
def RowOp.Legal (e : Engine) (st : RowStore) (op : RowOp) : Prop :=
  e.txn.isSome = true ∧ match op with
    | .create fid => (fid ≠ 0 ∧ fid < 2 ^ 64) ∧ e.NoFile fid
    | .insert fid _ _ => (∃ h, st.working fid = some h) ∧ e.HasRoom fid
    | .delete ref => ∃ h, st.working ref.page.fileId = some h ∧
        HoldsRows.OnChain ref.page.fileId h ref
    | .deleteAll fid => ∃ h, st.working fid = some h
    | .read ref cols => (∃ h, st.working ref.page.fileId = some h ∧
        HoldsRows.OnChain ref.page.fileId h ref) ∧ ∃ out, st.apply 0 (.read ref cols) = .ok out
    | op => ∃ out, st.apply 0 op = .ok out

/-- Calls that are made in a transaction, and files and trees looked at in between. -/
inductive Engine.Works (allowed : PoolCall → Prop) (e : Engine) : Engine → Prop
  | refl : Works allowed e e
  | call {e₁ : Engine} (first : Works allowed e e₁) {c : PoolCall} (fine : allowed c)
      (orderly : e₁.Orderly c) : Works allowed e ((Engine.call c).exit e₁).2
  | look {e₁ : Engine} (first : Works allowed e e₁) (pid : PageId) :
      Works allowed e ((onFiles (FileManager.readPage pid)).exit e₁).2
  | trees {e₁ : Engine} (first : Works allowed e e₁) (trees : Nat → Option BTree) :
      Works allowed e { e₁ with trees := trees }

/-- Calls that change no page of the tables of a store. -/
def RowStore.Spared (st : RowStore) : PoolCall → Prop
  | .createTableFile fid => ¬ st.Has fid
  | .poke pid _ => ¬ st.Has pid.fileId
  | .markDirty pid => ¬ st.Has pid.fileId
  | _ => True

/-- States of an engine beside the heap files, after any steps from the first start on an
empty directory. -/
inductive RowsReached : Engine → RowStore → Prop
  | start {frames : Nat} (enough : 2 ≤ frames) :
      RowsReached { frames := List.replicate frames {} } {}
  | begin {e : Engine} {st : RowStore} (reached : RowsReached e st) (idle : e.txn = none)
      (few : e.wal.nextTxnId < 2 ^ 64) : RowsReached (beginTxn.exit e).2 st
  | statement {e : Engine} {st st' : RowStore} (reached : RowsReached e st) {op : RowOp}
      (legal : op.Legal e st) (answers : st.Answers op (op.run.exit e).1 st') :
      RowsReached (op.run.exit e).2 st'
  /-- Work on other files, such as indexes. -/
  | elsewhere {e e₁ : Engine} {st : RowStore} (reached : RowsReached e st)
      (works : e.Works st.Spared e₁) (unpinned : ∀ pid, e₁.pinCount pid = 0)
      (logged : BufferPool.AllLogged e₁) : RowsReached e₁ st
  | commit {e : Engine} {st : RowStore} (reached : RowsReached e st) (active : e.txn.isSome = true) :
      RowsReached (commitTxn.exit e).2 st.commit
  /-- Tails of tables that were changed are to be known from before. -/
  | rollback {e : Engine} {st : RowStore} (reached : RowsReached e st) {txn : TxnContext}
      (active : e.txn = some txn)
      (known : ∀ fid ∈ st.changed, st.committed fid ≠ none → e.tailsBefore fid ≠ none) :
      RowsReached (rollbackTxn.exit e).2 (st.rollback txn.wrote)
  | checkpoint {e : Engine} {st : RowStore} (reached : RowsReached e st) (idle : e.txn = none) :
      RowsReached (Engine.checkpoint.exit e).2 st.checkpoint
  /-- The process is killed at any point of a transaction, whatever was called in it, unless
  its `Commit` record is written. -/
  | kill {e e₁ e₂ : Engine} {st : RowStore} (reached : RowsReached e st)
      (works : e.Works (fun _ => True) e₁) (mended : st.mended = true) {point : KillPoint}
      (early : ∀ count, point ≠ .committing count) (known : e₁.KillAt point) {lsn : Nat}
      (lsn_lt : lsn < 2 ^ 64) {torn : Bytes} (unreadable : parseRecord torn = none)
      {chunks : Nat → Nat} {frames : Nat} (enough : 2 ≤ frames)
      (opened : (leftBy (e₁.filesAt point) (e₁.recordsAt point) lsn torn).openEngine frames chunks =
        .ok e₂) :
      RowsReached e₂ (.restarted st.committed)
  /-- The process is killed in a commit behind the `Commit` record. -/
  | killCommitting {e e₂ : Engine} {st : RowStore} (reached : RowsReached e st)
      (active : e.txn.isSome = true) (mended : st.mended = true) {count lsn : Nat}
      (lsn_lt : lsn < 2 ^ 64) {torn : Bytes} (unreadable : parseRecord torn = none)
      {chunks : Nat → Nat} {frames : Nat} (enough : 2 ≤ frames)
      (opened : (leftBy (e.filesAt (.committing count)) (e.recordsAt (.committing count)) lsn
        torn).openEngine frames chunks = .ok e₂) :
      RowsReached e₂ (.restarted st.working)

end MySimpleDb.Storage
