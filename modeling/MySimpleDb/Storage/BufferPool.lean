import MySimpleDb.Lib.Attempt
import MySimpleDb.Storage.PoolView
import MySimpleDb.Storage.Wal

/-!
# The buffer pool

Frames that cache pages, chosen for eviction by a clock.  A page changed in a
frame is logged by `mark_dirty` as patches against the frame's baseline, and
written to its data file when the frame is evicted or flushed.  The pool works on
the state of the engine: its files, its log and its transaction.
-/

namespace MySimpleDb.Storage

open MySimpleDb.Lib

/-! ## State -/

/-- A frame of the pool. -/
structure PageFrame where
  page : PageId := invalidPage
  valid : Bool := false
  dirty : Bool := false
  ref : Bool := false
  pin : Nat := 0
  data : Page := Block.zero
  before : Page := Block.zero

/-- The before-half of a patch, to be restored by a rollback. -/
structure UndoEntry where
  pid : PageId
  off : Nat
  before : List UInt8

/-- What `tail_pages_` had for a file. -/
structure TailUndo where
  fid : Nat
  old : Option Nat

/-- The active transaction. -/
structure TxnContext where
  txnId : Nat
  wrote : Bool := false
  undo : List UndoEntry := []
  tailUndo : List TailUndo := []
  pendingDrops : List Nat := []

/-- The storage engine. -/
structure Engine where
  files : FileManager := {}
  wal : Wal := {}
  frames : List PageFrame
  /-- The frame of each cached page. -/
  pageTable : List (PageId × Nat) := []
  clockHand : Nat := 0
  tailPages : Nat → Option Nat := fun _ => none
  trees : Nat → Option BTree := fun _ => none
  txn : Option TxnContext := none

/-- Code of the engine. -/
abbrev EngineM : Type → Type := Attempt Engine Err

namespace Engine

def frame (e : Engine) (idx : Nat) : PageFrame :=
  e.frames.getD idx {}

def setFrame (e : Engine) (idx : Nat) (f : PageFrame) : Engine :=
  { e with frames := e.frames.set idx f }

@[simp]
theorem length_setFrame (e : Engine) (idx : Nat) (f : PageFrame) :
    (e.setFrame idx f).frames.length = e.frames.length :=
  List.length_set

theorem frame_setFrame {e : Engine} {idx : Nat} (inRange : idx < e.frames.length)
    (f : PageFrame) : (e.setFrame idx f).frame idx = f := by
  simp [frame, setFrame, inRange]

theorem frame_setFrame_of_ne {e : Engine} {idx other : Nat} (apart : other ≠ idx)
    (f : PageFrame) : (e.setFrame idx f).frame other = e.frame other := by
  simp [frame, setFrame, List.getElem?_set_ne (Ne.symm apart)]

/-- `page_table_.find`. -/
def find (e : Engine) (pid : PageId) : Option Nat :=
  e.pageTable.lookup pid

/-- `page_table_.emplace`: an entry that is there stays. -/
def emplace (e : Engine) (pid : PageId) (idx : Nat) : Engine :=
  if (e.find pid).isSome then e else { e with pageTable := (pid, idx) :: e.pageTable }

/-- `page_table_.erase`. -/
def erase (e : Engine) (pid : PageId) : Engine :=
  { e with pageTable := e.pageTable.filter fun entry => entry.1 ≠ pid }

/-- Code on the data files. -/
def onFiles {α : Type} (x : FileM α) : EngineM α :=
  Attempt.onPart (fun e => e.files) (fun files e => { e with files := files }) x

end Engine

/-! ## Differences of pages -/

/-- The `w`-th 8-byte word differs. -/
def differs (before data : Page) (w : Nat) : Bool :=
  before.read (8 * w) 8 ≠ data.read (8 * w) 8

/-- The inner loop of `log_page_diff`: the end of a region, and the word to go on
with. -/
def regionEnd (differs : Nat → Bool) (words : Nat) : Nat → Nat → Nat → Nat × Nat
  | 0, hi, w => (hi, w)
  | turns + 1, hi, w =>
      if w < words ∧ w ≤ hi then
        regionEnd differs words turns (if differs w then w + 1 else hi) (w + 1)
      else (hi, w)

/-- The regions of differing words from word `w` on. -/
def diffRegions (differs : Nat → Bool) (words : Nat) : Nat → Nat → List (Nat × Nat)
  | 0, _ => []
  | turns + 1, w =>
      if w < words then
        if differs w then
          let (hi, w') := regionEnd differs words words (w + 1) (w + 1)
          (w, hi) :: diffRegions differs words turns w'
        else diffRegions differs words turns (w + 1)
      else []

def pageWords : Nat := pageSize / 8

/-- Offsets and lengths of the differences of a page. -/
def pageDiff (before data : Page) : List (Nat × Nat) :=
  (diffRegions (differs before data) pageWords pageWords 0).map fun (lo, hi) =>
    (8 * lo, 8 * (hi - lo))

/-! ## Operations -/

def unloggedChange : Err := .crash "脏页存在未记 WAL 的修改"

/-- Bytes of a page that no frame holds any more. -/
def strayPage : Err := .crash "page is not in the pool"

namespace BufferPool

open Engine

def writeBack (idx : Nat) : EngineM Unit := do
  let e ← get
  let f := e.frame idx
  if f.valid ∧ f.dirty then
    if f.before ≠ f.data then throw unloggedChange
    onFiles (FileManager.writePage f.page f.data e.wal.records.length)
    modify fun e => e.setFrame idx { f with dirty := false }

/-- The patches against the baseline, and the undo entries of the transaction. -/
def logPageDiff (txn : TxnContext) (idx : Nat) (e : Engine) : Engine :=
  let f := e.frame idx
  let diff := pageDiff f.before f.data
  { e.setFrame idx { f with before := f.data, dirty := true } with
    wal := { e.wal with
      records := e.wal.records ++ diff.map fun (off, len) =>
        .pagePatch txn.txnId f.page off (f.data.read off len) (f.before.read off len) }
    txn := some { txn with
      wrote := txn.wrote || !diff.isEmpty
      undo := txn.undo ++ diff.map fun (off, len) => ⟨f.page, off, f.before.read off len⟩ } }

/-- The clock from the hand on: pinned frames are passed, and so are, once, those
used since the last turn. -/
def evictLoop : Nat → Nat → EngineM Nat
  | 0, _ => throw PoolView.noFrame
  | turns + 1, i => do
      let e ← get
      let idx := (e.clockHand + i) % e.frames.length
      let f := e.frame idx
      if 0 < f.pin then evictLoop turns (i + 1)
      else if f.valid ∧ f.ref then
        set (e.setFrame idx { f with ref := false })
        evictLoop turns (i + 1)
      else
        writeBack idx
        modify fun e => { (if f.valid then e.erase f.page else e).setFrame idx
          { e.frame idx with valid := false } with
          clockHand := (idx + 1) % e.frames.length }
        return idx

def evict : EngineM Nat := do
  let e ← get
  evictLoop (2 * e.frames.length) 0

/-- A page in the pool; the frame returned is what the caller's pointer names.
The frame is taken and registered before the page is read into it. -/
def read (pid : PageId) (magic : Nat) : EngineM Nat := do
  let e ← get
  match e.find pid with
  | some idx =>
      set (e.setFrame idx { e.frame idx with ref := true, pin := (e.frame idx).pin + 1 })
      return idx
  | none =>
      let idx ← evict
      modify fun e =>
        (e.setFrame idx { page := pid, valid := true, ref := true, pin := 1 }).emplace pid idx
      let data ← onFiles (FileManager.readPage pid)
      modify fun e => e.setFrame idx { e.frame idx with data := data }
      if pageValid data magic then
        modify fun e => e.setFrame idx { e.frame idx with before := data }
        return idx
      else
        modify fun e => (e.erase pid).setFrame idx {}
        throw (PoolView.badPage pid magic)

def allocate (pid : PageId) : EngineM Nat := do
  let e ← get
  match e.find pid with
  | some idx =>
      set (e.setFrame idx { e.frame idx with pin := (e.frame idx).pin + 1 })
      return idx
  | none =>
      let idx ← evict
      modify fun e =>
        (e.setFrame idx { page := pid, valid := true, dirty := true, ref := true, pin := 1 }).emplace
          pid idx
      return idx

/-- `frame_index`: the frame a pointer names, if it holds a page. -/
def frameIndex (e : Engine) (idx : Nat) : Option Nat :=
  if idx < e.frames.length ∧ (e.frame idx).valid then some idx else none

def unpin (idx : Nat) : EngineM Unit := do
  let e ← get
  match frameIndex e idx with
  | some idx => set (e.setFrame idx { e.frame idx with pin := (e.frame idx).pin - 1 })
  | none => throw (.raise .internal "unpin 未命中的页")

def markDirty (idx : Nat) : EngineM Unit := do
  let e ← get
  match frameIndex e idx, e.txn with
  | none, _ => throw (.raise .internal "mark_dirty 未命中的页")
  | _, none => throw (.raise .internal "页修改须在活动事务内")
  | some idx, some txn => set (logPageDiff txn idx e)

/-- Bytes a caller puts into the frame its pointer names. -/
def poke (idx : Nat) (p : Page) : EngineM Unit :=
  modify fun e => e.setFrame idx { e.frame idx with data := p }

def flush (pid : PageId) : EngineM Unit := do
  let e ← get
  match e.find pid with
  | some idx => writeBack idx
  | none => return ()

def flushAll : EngineM Unit := do
  let e ← get
  (List.range e.frames.length).forM writeBack

/-- The pages of a file are written back and taken out of their frames. -/
def dropTable (fid : Nat) : EngineM Unit := do
  let e ← get
  e.pageTable.forM fun (pid, idx) => do
    if pid.fileId = fid then
      writeBack idx
      modify fun e => (e.setFrame idx {}).erase pid

/-- Bytes put back by a rollback, in the frame or else on disk. -/
def restoreRegion (pid : PageId) (off : Nat) (before : List UInt8) : EngineM Unit := do
  let e ← get
  match e.find pid with
  | some idx =>
      let f := e.frame idx
      set (e.setFrame idx { f with
        data := f.data.write off before, before := f.before.write off before, dirty := true })
  | none =>
      let data ← onFiles (FileManager.readPage pid)
      onFiles (FileManager.writePage pid (data.write off before) e.wal.records.length)

def invalidateAll (e : Engine) : Engine :=
  { e with frames := e.frames.map fun _ => {}, pageTable := [], clockHand := 0 }

end BufferPool

/-! ## Code over the pool -/

namespace Engine

/-- The frame the pointer of a pinned page names. -/
def pointer (pid : PageId) : EngineM Nat := do
  let e ← get
  match e.find pid with
  | some idx => return idx
  | none => throw strayPage

/-- A call of code over the pool. -/
def call : (c : PoolCall) → EngineM c.Result
  | .createTableFile fid => onFiles (FileManager.createTableFile fid)
  | .tableFileExists fid => do return (← get).files.tableFileExists fid
  | .pageCount fid => do return (← get).files.pageCount fid
  | .allocate pid => do let _ ← BufferPool.allocate pid
  | .read pid magic => do let _ ← BufferPool.read pid magic
  | .peek pid => do
      let idx ← pointer pid
      return ((← get).frame idx).data
  | .poke pid p => do BufferPool.poke (← pointer pid) p
  | .markDirty pid => do BufferPool.markDirty (← pointer pid)
  | .unpin pid => do BufferPool.unpin (← pointer pid)
  | .flush pid => BufferPool.flush pid
  | .tree fid => do return ((← get).trees fid).getD {}
  | .setTree fid t => modify fun e => { e with trees := Function.update e.trees fid (some t) }

end Engine

/-- Code over the pool run by the engine. -/
def PoolM.run {α : Type} : PoolM α → EngineM α
  | .done r => ExceptT.mk fun e => (r, e)
  | .call c next => ExceptT.mk fun e =>
      let (r, e) := (Engine.call c).exit e
      (PoolM.run (next r)).exit e

end MySimpleDb.Storage
