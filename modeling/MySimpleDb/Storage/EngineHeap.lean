import MySimpleDb.Storage.EngineTxn
import MySimpleDb.Storage.HeapSlots

/-!
# Table files on the engine

Rows of a table file through the buffer pool: the header page counts row ids and
names the first data page, data pages are chained by their `next_page`, and the last
one is remembered by the engine or else found on disk.  Turns of loops are bounded by
`scanBound`, more than a file has pages and rows.
-/

namespace MySimpleDb.Storage

open MySimpleDb.Lib

def fileNextRowid (p : Page) : Nat := p.num pageHeaderSize 8

def setFileNextRowid (p : Page) (v : Nat) : Page := p.setNum pageHeaderSize 8 v

/-- The slots of a page that are not dead. -/
def liveSlots (p : Page) : List Nat :=
  (List.range p.slotCount).filter fun i => !slotTombstone p i

/-- Endless loops over the pages of a file. -/
def endlessChain : Err := .crash "page chain does not end"

/-! ## Pages of a table file -/

namespace TableFile

/-- The row id that `insert_row` takes from the header page. -/
def takeRowid (fid : Nat) : PoolM Nat := do
  let pid0 : PageId := ⟨fid, 0⟩
  PoolM.read pid0 magicFileHeader
  let h ← PoolM.peek pid0
  let rid := (fileNextRowid h + 1) % 2 ^ 64
  PoolM.poke pid0 (setFileNextRowid h rid).seal
  PoolM.markDirty pid0
  PoolM.unpin pid0
  return rid

/-- The first data page is page 1. -/
def linkHeaderToFirstDataPage (fid : Nat) : PoolM Nat := do
  let pid0 : PageId := ⟨fid, 0⟩
  PoolM.read pid0 magicFileHeader
  let newNo := 1
  PoolM.allocate ⟨fid, newNo⟩
  PoolM.poke ⟨fid, newNo⟩ (initPage magicHeap .heap)
  PoolM.markDirty ⟨fid, newNo⟩
  PoolM.unpin ⟨fid, newNo⟩
  let h ← PoolM.peek pid0
  PoolM.poke pid0 (h.setNextPage newNo).seal
  PoolM.markDirty pid0
  PoolM.unpin pid0
  return newNo

/-- A page put behind the full page `tail`, which is pinned. -/
def extend (fid tail : Nat) : PoolM Nat := do
  let count ← PoolM.pageCount fid
  let newNo := max count ((tail + 1) % 2 ^ 32)
  PoolM.allocate ⟨fid, newNo⟩
  PoolM.poke ⟨fid, newNo⟩ (initPage magicHeap .heap)
  PoolM.markDirty ⟨fid, newNo⟩
  PoolM.unpin ⟨fid, newNo⟩
  let pg ← PoolM.peek ⟨fid, tail⟩
  PoolM.poke ⟨fid, tail⟩ (pg.setNextPage newNo).seal
  PoolM.markDirty ⟨fid, tail⟩
  PoolM.unpin ⟨fid, tail⟩
  return newNo

/-- The loop of `insert_row`: page and slot of the record. -/
def insertLoop (fid : Nat) (rec : Bytes) : Nat → Nat → PoolM (Nat × Nat)
  | 0, _ => Prog.raise heapStuck
  | fuel + 1, tail => do
      let pid : PageId := ⟨fid, tail⟩
      PoolM.read pid magicHeap
      let pg ← PoolM.peek pid
      match heapAppend pg rec with
      | some (pg, slot) =>
          PoolM.poke pid pg
          PoolM.markDirty pid
          PoolM.unpin pid
          return (tail, slot)
      | none =>
          let newNo ← extend fid tail
          insertLoop fid rec fuel newNo

/-- `delete_row` behind its checks. -/
def deleteSlot (ref : RowRef) : PoolM Nat := do
  PoolM.read ref.page magicHeap
  let pg ← PoolM.peek ref.page
  if pg.slotCount ≤ ref.slot ∨ slotTombstone pg ref.slot then
    PoolM.unpin ref.page
    return 0
  else
    PoolM.poke ref.page (heapDelete pg ref.slot)
    PoolM.markDirty ref.page
    PoolM.unpin ref.page
    return 1

/-- `read_row` behind its checks. -/
def readSlot (ref : RowRef) (cols : List ColumnSpec) : PoolM (Option Row) := do
  PoolM.read ref.page magicHeap
  let pg ← PoolM.peek ref.page
  if pg.slotCount ≤ ref.slot ∨ slotTombstone pg ref.slot then
    PoolM.unpin ref.page
    return none
  else
    match ← Prog.lift (decodeRow cols (pg.record ref.slot)) with
    | none =>
        PoolM.unpin ref.page
        Prog.raise HeapFile.damaged
    | some values =>
        PoolM.unpin ref.page
        return some { ref := ref, values := values }

/-! ### The chain -/

section Walk

variable {α : Type} (visit : PageId → Page → Res (List α))

/-- What `visit` gives of the pages of the chain from page `no` on. -/
def walkFrom (fid : Nat) : Nat → Nat → PoolM (List α)
  | 0, _ => Prog.raise endlessChain
  | fuel + 1, no =>
      if no = 0 then return []
      else do
        let pid : PageId := ⟨fid, no⟩
        PoolM.read pid magicHeap
        let pg ← PoolM.peek pid
        let here ← Prog.lift (visit pid pg)
        PoolM.unpin pid
        let rest ← walkFrom fid fuel pg.nextPage
        return here ++ rest

/-- The chain from the header page on. -/
def walk (fid : Nat) : PoolM (List α) := do
  PoolM.read ⟨fid, 0⟩ magicFileHeader
  let h ← PoolM.peek ⟨fid, 0⟩
  let no := h.nextPage
  PoolM.unpin ⟨fid, 0⟩
  walkFrom visit fid scanBound no

end Walk

/-- The live slots of a page. -/
def refsOf (pid : PageId) (pg : Page) : Res (List RowRef) :=
  .ok ((liveSlots pg).map fun i => ⟨pid, i⟩)

/-- The rows of a page; each must decode. -/
def valuesOf (cols : List ColumnSpec) (_ : PageId) (pg : Page) : Res (List (List Value)) :=
  (liveSlots pg).mapM fun i => HeapFile.decodeRecord cols (pg.record i)

end TableFile

/-! ## Scans -/

/-- `Scanner`: the page it holds is pinned. -/
structure RowScanner where
  fileId : Nat
  cols : List ColumnSpec
  nextPageNo : Nat
  cur : Option Nat := none
  slot : Nat := 0
  isDone : Bool := false

namespace RowScanner

def create (fid : Nat) (cols : List ColumnSpec) : PoolM RowScanner := do
  PoolM.read ⟨fid, 0⟩ magicFileHeader
  let h ← PoolM.peek ⟨fid, 0⟩
  PoolM.unpin ⟨fid, 0⟩
  return { fileId := fid, cols := cols, nextPageNo := h.nextPage }

/-- Give up the page that is held. -/
def release (scan : RowScanner) : PoolM Unit :=
  match scan.cur with
  | some no => PoolM.unpin ⟨scan.fileId, no⟩
  | none => pure ()

def close (scan : RowScanner) : PoolM RowScanner := do
  scan.release
  return { scan with cur := none, isDone := true }

def advancePage (scan : RowScanner) : PoolM RowScanner := do
  scan.release
  if scan.nextPageNo = 0 then
    return { scan with cur := none, isDone := true }
  else
    let pid : PageId := ⟨scan.fileId, scan.nextPageNo⟩
    PoolM.read pid magicHeap
    let pg ← PoolM.peek pid
    return { scan with cur := some scan.nextPageNo, slot := 0, nextPageNo := pg.nextPage }

/-- The first slot from `slot` on that is not dead. -/
def liveFrom (pg : Page) (slot : Nat) : Option Nat :=
  (List.range' slot (pg.slotCount - slot)).find? fun i => !slotTombstone pg i

/-- The loop of `next` over pages. -/
def nextLoop : Nat → RowScanner → PoolM (Option Row × RowScanner)
  | 0, _ => Prog.raise endlessChain
  | fuel + 1, scan => do
      match scan.cur with
      | none =>
          let scan ← scan.advancePage
          if scan.isDone then return (none, scan)
          else nextLoop fuel scan
      | some no =>
          let pid : PageId := ⟨scan.fileId, no⟩
          let pg ← PoolM.peek pid
          match liveFrom pg scan.slot with
          | some i =>
              let values ← Prog.lift (HeapFile.decodeRecord scan.cols (pg.record i))
              return (some { ref := ⟨pid, i⟩, values := values }, { scan with slot := i + 1 })
          | none =>
              let scan ← scan.advancePage
              if scan.isDone then return (none, scan)
              else nextLoop fuel scan

/-- The next live row, or none at the end of the chain. -/
def next (scan : RowScanner) : PoolM (Option Row × RowScanner) :=
  if scan.isDone then return (none, scan)
  else nextLoop scanBound scan

/-- What `calls` calls of `next` give. -/
def nexts : Nat → RowScanner → PoolM (List (Option Row) × RowScanner)
  | 0, scan => return ([], scan)
  | calls + 1, scan => do
      let (row?, scan) ← scan.next
      let (rows, scan) ← nexts calls scan
      return (row? :: rows, scan)

/-- A scan of a table file from its creation to its end. -/
def scan (fid : Nat) (cols : List ColumnSpec) (calls : Nat) : PoolM (List (Option Row)) := do
  let scan ← create fid cols
  let (rows, scan) ← nexts calls scan
  let _ ← scan.close
  return rows

end RowScanner

/-! ## Rows -/

namespace Engine

/-- The highest page from `tail` down that is not zero on disk, 0 without one. -/
def diskTailFrom (fid : Nat) : Nat → EngineM Nat
  | 0 => return 0
  | tail + 1 => do
      let buf ← onFiles (FileManager.readPage ⟨fid, tail + 1⟩)
      if pageAllZero buf then diskTailFrom fid tail else return tail + 1

def diskTailPage (fid : Nat) : EngineM Nat := do
  diskTailFrom fid ((← get).files.pageCount fid - 1)

/-- Where `insert_row` begins to look for room. -/
def tailPage (fid : Nat) : EngineM Nat := do
  match (← get).tailPages fid with
  | some tail => return tail
  | none => diskTailPage fid

/-- The page that took a record is the tail, and a rollback knows the one before. -/
def trackTail (fid tail : Nat) (e : Engine) : Engine :=
  { e with
    tailPages := Function.update e.tailPages fid (some tail)
    txn := e.txn.map fun txn =>
      { txn with tailUndo := txn.tailUndo ++ [⟨fid, e.tailPages fid⟩] } }

/-- `insert_row`: the row id and the location of the new row. -/
def insertRow (fid : Nat) (cols : List ColumnSpec) (values : List Value) :
    EngineM (Nat × RowRef) := do
  checkTxn fid
  match ← (MonadExcept.ofExcept (encodeRow cols values) : EngineM _) with
  | none => throw (.raise .valueMismatch "值与列类型不匹配")
  | some rec =>
      if maxRecordLen < rec.length then throw (.raise .recordTooLong "记录超长")
      else
        let rid ← PoolM.run (TableFile.takeRowid fid)
        let tail ← tailPage fid
        let tail ← if tail = 0 then PoolM.run (TableFile.linkHeaderToFirstDataPage fid)
          else pure tail
        let (no, slot) ← PoolM.run (TableFile.insertLoop fid rec scanBound tail)
        modify (trackTail fid no)
        return (rid, ⟨⟨fid, no⟩, slot⟩)

def checkRowRef (ref : RowRef) : EngineM Unit := do
  if ref.page = invalidPage then throw (.raise .internal "行引用缺少页位置")
  else if ref.page.pageNo = 0 then throw (.raise .internal "行引用指向文件头页")
  else
    let e ← get
    let maxNo := e.files.pageCount ref.page.fileId - 1
    let maxNo := max maxNo ((e.tailPages ref.page.fileId).getD 0)
    if maxNo < ref.page.pageNo then
      throw (.raise .internal
        s!"行引用页号越界: fid={ref.page.fileId} page_no={ref.page.pageNo}")

/-- `none` for a dead slot or one beyond the count. -/
def readRow (ref : RowRef) (cols : List ColumnSpec) : EngineM (Option Row) := do
  checkRowRef ref
  PoolM.run (TableFile.readSlot ref cols)

/-- The number of rows deleted. -/
def deleteRow (ref : RowRef) : EngineM Nat := do
  checkTxn ref.page.fileId
  checkRowRef ref
  PoolM.run (TableFile.deleteSlot ref)

/-- The number of rows that were live. -/
def deleteAllRows (fid : Nat) : EngineM Nat := do
  checkTxn fid
  let refs ← PoolM.run (TableFile.walk TableFile.refsOf fid)
  refs.forM fun ref => do
    let _ ← deleteRow ref
  return refs.length

def readRows (fid : Nat) (cols : List ColumnSpec) : EngineM (List (List Value)) :=
  PoolM.run (TableFile.walk (TableFile.valuesOf cols) fid)

def rowCount (fid : Nat) : EngineM Nat := do
  let refs ← PoolM.run (TableFile.walk TableFile.refsOf fid)
  return refs.length

end Engine

/-! ## Filling an index -/

namespace RowScanner

/-- The loop of `build_index` with `n` entries made so far. -/
def indexLoop (indexFid ordinal : Nat) (col : ColumnSpec) : Nat → Nat → RowScanner → PoolM Nat
  | 0, _, _ => Prog.raise endlessChain
  | fuel + 1, n, scan => do
      match ← scan.next with
      | (none, scan) =>
          let _ ← scan.close
          return n
      | (some row, scan) =>
          let key ← Prog.lift (encodeKey col.type (row.values.getD ordinal nullVal))
          BTree.insert indexFid (Engine.indexEntry key row.ref)
          indexLoop indexFid ordinal col fuel (n + 1) scan

end RowScanner

/-- The entries of all rows of a table; their number. -/
def Engine.buildIndex (tableFid : Nat) (cols : List ColumnSpec) (ordinal indexFid : Nat) :
    EngineM Nat := do
  checkTxn indexFid
  match cols[ordinal]? with
  | none => throw (.raise .internal s!"索引列序号越界: {ordinal}")
  | some col => do
      treeFor indexFid
      PoolM.run do
        let scan ← RowScanner.create tableFid cols
        RowScanner.indexLoop indexFid ordinal col scanBound 0 scan

end MySimpleDb.Storage
