import MySimpleDb.Lib.Interval
import MySimpleDb.Storage.BTreePage
import MySimpleDb.Storage.PoolView

/-!
# Index trees

Creation, opening and insertion of the trees that hold secondary indexes, and
range scans over their leaves.  Recursion over pages is bounded by
`recursionBound`, more levels than a file has page numbers, and the turns of a
scan by `scanBound`, more than a file has entries and leaves.
-/

namespace MySimpleDb.Storage

open MySimpleDb.Lib

/-- Root page number kept in page 0. -/
def fileRoot (p : Page) : Nat := p.num pageHeaderSize 4

def setFileRoot (p : Page) (v : Nat) : Page := p.setNum pageHeaderSize 4 v

def recursionBound : Nat := 2 ^ 32

def scanBound : Nat := 2 ^ 64

def badTreePage (pid : PageId) (type : Nat) : Err :=
  .critical s!"B+树页类型损坏: file={pid.fileId} page={pid.pageNo} type={type}"

def badScanPage (pid : PageId) : Err :=
  .critical s!"B+树页类型损坏: file={pid.fileId} page={pid.pageNo}"

/-- A split of a subtree: the separator to move up and the new right page. -/
structure BTreeSplit where
  sep : BTreeEntry
  right : Nat

namespace BTree

/-- A new tree file: the header page and an empty leaf as root. -/
def create (fid : Nat) : PoolM Unit := do
  let pid0 : PageId := ⟨fid, 0⟩
  let root : PageId := ⟨fid, 1⟩
  PoolM.createTableFile fid
  PoolM.allocate pid0
  PoolM.poke pid0 (initPage magicFileHeader .fileHeader)
  PoolM.allocate root
  PoolM.poke root (initPage magicBTreeLeaf .btreeLeaf)
  let h0 ← PoolM.peek pid0
  PoolM.poke pid0 (setFileRoot h0 1).seal
  PoolM.markDirty pid0
  PoolM.unpin pid0
  PoolM.flush pid0
  PoolM.markDirty root
  PoolM.unpin root
  PoolM.setTree fid ⟨1, 2⟩

/-- Open an existing tree file. -/
def openFile (fid : Nat) : PoolM Unit := do
  let pid0 : PageId := ⟨fid, 0⟩
  if ← PoolM.tableFileExists fid then
    PoolM.read pid0 magicFileHeader
    let h0 ← PoolM.peek pid0
    let root := fileRoot h0
    PoolM.unpin pid0
    if root = 0 then
      Prog.raise (.critical s!"B+树根页号无效: file={fid}")
    else
      let count ← PoolM.pageCount fid
      PoolM.setTree fid ⟨root, max count (root + 1)⟩
  else
    Prog.raise (.critical s!"B+树文件缺失: file={fid}")

/-- Allocate the next page of the file, pinned. -/
def newPage (fid : Nat) : PoolM Nat := do
  let count ← PoolM.pageCount fid
  let t ← PoolM.tree fid
  let no := max count t.nextPageHint
  PoolM.allocate ⟨fid, no⟩
  PoolM.setTree fid { t with nextPageHint := (no + 1) % 2 ^ 32 }
  return no

/-- Pin a tree page and check its type. -/
def readTree (pid : PageId) : PoolM Unit := do
  PoolM.read pid magicBTreeLeaf
  let pg ← PoolM.peek pid
  if treePageType pg.pageType then
    return ()
  else
    PoolM.unpin pid
    Prog.raise (badTreePage pid pg.pageType)

def setRoot (fid no : Nat) : PoolM Unit := do
  let pid0 : PageId := ⟨fid, 0⟩
  PoolM.read pid0 magicFileHeader
  let h0 ← PoolM.peek pid0
  PoolM.poke pid0 (setFileRoot h0 no).seal
  PoolM.markDirty pid0
  PoolM.unpin pid0
  let t ← PoolM.tree fid
  PoolM.setTree fid { t with rootPage := no }

/-! ## Insertion -/

/-- The leaf branch of `insert_rec`: insert where there is room, or else halve
the entries over this page and a new one. -/
def insertLeaf (pid : PageId) (e : BTreeEntry) : PoolM (Option BTreeSplit) := do
  let pg ← PoolM.peek pid
  let n := pg.slotCount
  let pos := leafLowerBound pg e
  if slotSize + btreeCellSize ≤ freeSpace pg then
    PoolM.poke pid (leafInsertAt pg pos e).seal
    PoolM.markDirty pid
    PoolM.unpin pid
    return none
  else
    let entries := ((List.range n).map (leafEntry pg)).insertIdx pos e
    let cnt := entries.length
    let mid := cnt / 2
    let oldNext := pg.nextPage
    let sep := entries.getD mid {}
    let rno ← newPage pid.fileId
    PoolM.poke ⟨pid.fileId, rno⟩ ((leafBuild entries mid cnt).setNextPage oldNext).seal
    PoolM.markDirty ⟨pid.fileId, rno⟩
    PoolM.unpin ⟨pid.fileId, rno⟩
    PoolM.poke pid ((leafBuild entries 0 mid).setNextPage rno).seal
    PoolM.markDirty pid
    PoolM.unpin pid
    return some ⟨sep, rno⟩

/-- The end of the node branch of `insert_rec`: put a split of child `j` into
this page, or else halve the children over this page and a new one. -/
def insertNode (pid : PageId) (j : Nat) (r : BTreeSplit) : PoolM (Option BTreeSplit) := do
  let pg ← PoolM.peek pid
  let n := pg.slotCount
  if btreeCellSize + 4 ≤ freeSpace pg then
    PoolM.poke pid (nodeInsertAt pg j r.sep r.right).seal
    PoolM.markDirty pid
    PoolM.unpin pid
    return none
  else
    let seps := (List.range j).map (nodeSep pg) ++ r.sep ::
      (List.range' j (n - j)).map (nodeSep pg)
    let children := (List.range (j + 1)).map (nodeChild pg) ++ r.right ::
      (List.range' (j + 1) (n - j)).map (nodeChild pg)
    let cnt := seps.length
    let mid := cnt / 2
    let sep := seps.getD mid {}
    let rno ← newPage pid.fileId
    PoolM.poke ⟨pid.fileId, rno⟩ (nodeBuild seps children (mid + 1) cnt).seal
    PoolM.markDirty ⟨pid.fileId, rno⟩
    PoolM.unpin ⟨pid.fileId, rno⟩
    PoolM.poke pid (nodeBuild seps children 0 mid).seal
    PoolM.markDirty pid
    PoolM.unpin pid
    return some ⟨sep, rno⟩

def insertRec (fid : Nat) (e : BTreeEntry) : Nat → Nat → PoolM (Option BTreeSplit)
  | 0, _ => Prog.raise (.crash "stack overflow")
  | fuel + 1, pageNo => do
      let pid : PageId := ⟨fid, pageNo⟩
      readTree pid
      let pg ← PoolM.peek pid
      if pg.pageType = PageType.btreeLeaf.code then
        insertLeaf pid e
      else
        let j := nodeChildIndex pg e
        match ← insertRec fid e fuel (nodeChild pg j) with
        | none =>
            PoolM.unpin pid
            return none
        | some r => insertNode pid j r

def insert (fid : Nat) (e : BTreeEntry) : PoolM Unit := do
  let t ← PoolM.tree fid
  match ← insertRec fid e recursionBound t.rootPage with
  | none => return ()
  | some r =>
      let t ← PoolM.tree fid
      let no ← newPage fid
      PoolM.poke ⟨fid, no⟩ (nodeBuild [r.sep] [t.rootPage, r.right] 0 1).seal
      PoolM.markDirty ⟨fid, no⟩
      PoolM.unpin ⟨fid, no⟩
      setRoot fid no

end BTree

/-! ## Range scans -/

/-- State of a scan; the current leaf is pinned. -/
structure BTreeScanner where
  fileId : Nat
  loBound : Option (Bound IndexKey)
  hiBound : Option (Bound IndexKey)
  cur : Option Nat
  nextNo : Nat
  slotIdx : Nat
  isDone : Bool := false

namespace BTreeScanner

/-- Go down to the leaf that the scan starts in; the page `no` is pinned. -/
def descend (fid : Nat) (probe : Option BTreeEntry) : Nat → Nat → PoolM Nat
  | 0, _ => Prog.raise (.crash "scan does not end")
  | fuel + 1, no => do
      let pid : PageId := ⟨fid, no⟩
      let pg ← PoolM.peek pid
      if pg.pageType = PageType.btreeInternal.code then
        let child := probe.elim 0 (nodeChildIndex pg)
        let next := nodeChild pg child
        PoolM.unpin pid
        PoolM.read ⟨fid, next⟩ magicBTreeLeaf
        descend fid probe fuel next
      else
        return no

/-- Position a scan at its lower bound. -/
def create (fid : Nat) (lo hi : Option (Bound IndexKey)) : PoolM BTreeScanner := do
  let probe : Option BTreeEntry := lo.map fun b => { key := b.key }
  let t ← PoolM.tree fid
  PoolM.read ⟨fid, t.rootPage⟩ magicBTreeLeaf
  let no ← descend fid probe recursionBound t.rootPage
  let pg ← PoolM.peek ⟨fid, no⟩
  if pg.pageType = PageType.btreeLeaf.code then
    return { fileId := fid, loBound := lo, hiBound := hi, cur := some no,
             nextNo := pg.nextPage, slotIdx := probe.elim 0 (leafLowerBound pg) }
  else
    PoolM.unpin ⟨fid, no⟩
    Prog.raise (badScanPage ⟨fid, no⟩)

def close (scan : BTreeScanner) : PoolM BTreeScanner := do
  match scan.cur with
  | some no => PoolM.unpin ⟨scan.fileId, no⟩
  | none => pure ()
  return { scan with cur := none, isDone := true }

/-- `key` has passed the upper bound. -/
def beyond (hi : Option (Bound IndexKey)) (key : IndexKey) : Bool :=
  match hi with
  | none => false
  | some b => if b.inclusive then keyCmp key b.key > 0 else keyCmp key b.key ≥ 0

/-- `key` is the key of an open lower bound. -/
def skipped (lo : Option (Bound IndexKey)) (key : IndexKey) : Bool :=
  match lo with
  | none => false
  | some b => !b.inclusive && keyCmp key b.key = 0

/-- Leaving the keys of an open lower bound drops it. -/
def passLower (lo : Option (Bound IndexKey)) : Option (Bound IndexKey) :=
  lo.filter fun b => b.inclusive

/-- The loop of `next`. -/
def nextLoop : Nat → BTreeScanner → PoolM (Option BTreeEntry × BTreeScanner)
  | 0, _ => Prog.raise (.crash "scan does not end")
  | fuel + 1, scan => do
      match scan.cur with
      | none =>
          if scan.nextNo = 0 then
            return (none, { scan with isDone := true })
          else
            let pid : PageId := ⟨scan.fileId, scan.nextNo⟩
            PoolM.read pid magicBTreeLeaf
            let pg ← PoolM.peek pid
            if pg.pageType = PageType.btreeLeaf.code then
              nextLoop fuel
                { scan with cur := some scan.nextNo, nextNo := pg.nextPage, slotIdx := 0 }
            else
              PoolM.unpin pid
              Prog.raise (badScanPage pid)
      | some no =>
          let pg ← PoolM.peek ⟨scan.fileId, no⟩
          if scan.slotIdx < pg.slotCount then
            let e := leafEntry pg scan.slotIdx
            if beyond scan.hiBound e.key then
              return (none, { scan with isDone := true })
            else if skipped scan.loBound e.key then
              nextLoop fuel { scan with slotIdx := scan.slotIdx + 1 }
            else
              return (some e,
                { scan with loBound := passLower scan.loBound, slotIdx := scan.slotIdx + 1 })
          else
            PoolM.unpin ⟨scan.fileId, no⟩
            nextLoop fuel { scan with cur := none }

/-- The next entry of the scan, or none at its end. -/
def next (scan : BTreeScanner) : PoolM (Option BTreeEntry × BTreeScanner) :=
  if scan.isDone then return (none, scan)
  else nextLoop scanBound scan

end BTreeScanner

end MySimpleDb.Storage
