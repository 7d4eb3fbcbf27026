import MySimpleDb.Storage.CrashRecovery
import MySimpleDb.Storage.PoolFlush

/-!
# Runs of the engine with kills

Transactions of calls to the pool, drops of files, commits, rollbacks and checkpoints
in any order, and a process that is killed at any point and started anew.  What the
engine holds is compared with a store of two contents, of which one is replaced at a
commit and the other is all that a killed process loses.
-/

namespace MySimpleDb.Storage

open MySimpleDb.Lib UndoRedo Attempt

/-! ## The store -/

/-- What a transaction works on, what a restart finds, and the files that are to go with the
commit.  After a rollback of changes the log is not mended until a checkpoint. -/
structure TxnStore where
  working : PageId → Page := fun _ => Block.zero
  committed : PageId → Page := fun _ => Block.zero
  drops : List Nat := []
  mended : Bool := true

namespace TxnStore

/-- The contents without the files that go. -/
def ended (st : TxnStore) : PageId → Page := fun pid =>
  if pid.fileId ∈ st.drops then Block.zero else st.working pid

def call (st : TxnStore) : PoolCall → TxnStore
  | .poke pid p => { st with working := Function.update st.working pid p }
  | _ => st

def drop (st : TxnStore) (fid : Nat) : TxnStore :=
  { st with drops := st.drops ++ [fid] }

def commit (st : TxnStore) : TxnStore :=
  { st with working := st.ended, committed := st.ended, drops := [] }

def rollback (st : TxnStore) (wrote : Bool) : TxnStore :=
  { st with working := st.committed, drops := [], mended := st.mended && !wrote }

def checkpoint (st : TxnStore) : TxnStore :=
  { st with mended := true }

def restarted (contents : PageId → Page) : TxnStore where
  working := contents
  committed := contents

end TxnStore

/-! ## Kills -/

/-- Where a process is killed: between two calls, in `mark_dirty` with some of its records
written, or in `commit_txn` with the `Commit` record written and some files unlinked. -/
inductive KillPoint
  | between
  | logging (pid : PageId) (count : Nat)
  | committing (count : Nat)

namespace Engine

/-- What `mark_dirty` of a page has to log. -/
def pending (e : Engine) (pid : PageId) : List LogRecord :=
  match e.find pid, e.txn with
  | some idx, some txn => diffRecords txn.txnId pid (e.frame idx).before (e.frame idx).data
  | _, _ => []

def recordsAt (e : Engine) : KillPoint → List LogRecord
  | .between => e.wal.records
  | .logging pid count => e.wal.records ++ (e.pending pid).take count
  | .committing _ => e.wal.records ++ e.txn.elim [] fun txn =>
      if txn.wrote then [.commit txn.txnId] else []

def filesAt (e : Engine) : KillPoint → FileManager
  | .committing count =>
      ((e.txn.elim [] TxnContext.pendingDrops).take count).foldl
        (fun files fid => files.unlinked fid) e.files
  | _ => e.files

end Engine

/-- What is found after a kill. -/
def TxnStore.keptAt (st : TxnStore) : KillPoint → PageId → Page
  | .committing _ => st.ended
  | _ => st.committed

/-! ## Runs -/

/-- File and page numbers as the log has room for. -/
def PageId.Numbered (pid : PageId) : Prop :=
  pid.fileId ≠ 0 ∧ pid.fileId < 2 ^ 64 ∧ pid.pageNo < 2 ^ 32

/-- The page may be changed: its file is not one that the transaction drops. -/
def Engine.Changeable (e : Engine) (pid : PageId) : Prop :=
  pid.Numbered ∧ ∀ txn, e.txn = some txn → pid.fileId ∉ txn.pendingDrops

/-- What callers of the pool keep to. -/
def Engine.Orderly (e : Engine) : PoolCall → Prop
  | .createTableFile fid => e.files.pageCount fid = 0
  | .allocate pid => e.find pid = none → e.files.pages pid = Block.zero
  | .read _ magic => magic ≠ 0
  | .poke pid _ => e.txn.isSome ∧ 0 < e.pinCount pid
  | .markDirty pid => e.Changeable pid
  | .unpin pid => 0 < e.pinCount pid ∧ (e.pinCount pid = 1 → e.baseline pid = e.content pid)
  | .flush pid => e.baseline pid = e.content pid
  | _ => True

/-- When the outcome of a kill is known. -/
def Engine.KillAt (e : Engine) : KillPoint → Prop
  | .between => True
  | .logging pid _ => e.Changeable pid
  | .committing _ => e.txn.isSome ∧ BufferPool.AllLogged e

/-- No page of a file that goes with the commit has been read again. -/
def Engine.DropsGone (e : Engine) : Prop :=
  ∀ txn, e.txn = some txn → ∀ fid ∈ txn.pendingDrops, ∀ no, e.find ⟨fid, no⟩ = none

def Engine.tracking (e : Engine) (trees : Nat → Option BTree) (tails : Nat → Option Nat)
    (tailUndo : List TailUndo) : Engine :=
  { e with
    trees := trees
    tailPages := tails
    txn := e.txn.map fun txn => { txn with tailUndo := tailUndo } }

/-- States of an engine beside the store, after any steps from the first start on an empty
directory. -/
inductive Reached : Engine → TxnStore → Prop
  | start (frames : Nat) : Reached { frames := List.replicate frames {} } {}
  | begin {e : Engine} {st : TxnStore} (reached : Reached e st) (idle : e.txn = none)
      (few : e.wal.nextTxnId < 2 ^ 64) : Reached (Engine.beginTxn.exit e).2 st
  | call {e : Engine} {st : TxnStore} (reached : Reached e st) {c : PoolCall}
      (orderly : e.Orderly c) : Reached ((Engine.call c).exit e).2 (st.call c)
  | drop {e : Engine} {st : TxnStore} (reached : Reached e st) {fid : Nat}
      (active : e.txn.isSome) (logged : BufferPool.AllLogged e) (numbered : fid ≠ 0 ∧ fid < 2 ^ 64)
      (unpinned : ∀ pid : PageId, pid.fileId = fid → e.pinCount pid = 0) :
      Reached ((Engine.dropFile fid).exit e).2 (st.drop fid)
  | commit {e : Engine} {st : TxnStore} (reached : Reached e st) (active : e.txn.isSome)
      (logged : BufferPool.AllLogged e) (gone : e.DropsGone) :
      Reached (Engine.commitTxn.exit e).2 st.commit
  | rollback {e : Engine} {st : TxnStore} (reached : Reached e st) {txn : TxnContext}
      (active : e.txn = some txn) (logged : BufferPool.AllLogged e) :
      Reached (Engine.rollbackTxn.exit e).2 (st.rollback txn.wrote)
  /-- Trees and tails that are kept beside the pages. -/
  | track {e : Engine} {st : TxnStore} (reached : Reached e st) (trees : Nat → Option BTree)
      (tails : Nat → Option Nat) (tailUndo : List TailUndo) :
      Reached (e.tracking trees tails tailUndo) st
  /-- A page that is read past the pool. -/
  | look {e : Engine} {st : TxnStore} (reached : Reached e st) (pid : PageId) :
      Reached ((Engine.onFiles (FileManager.readPage pid)).exit e).2 st
  | checkpoint {e : Engine} {st : TxnStore} (reached : Reached e st) (idle : e.txn = none) :
      Reached (Engine.checkpoint.exit e).2 st.checkpoint
  | kill {e e' : Engine} {st : TxnStore} (reached : Reached e st) (mended : st.mended = true)
      {point : KillPoint} (known : e.KillAt point) {lsn : Nat} (lsn_lt : lsn < 2 ^ 64)
      {torn : Bytes} (unreadable : parseRecord torn = none) {chunks : Nat → Nat} {frames : Nat}
      (opened : (leftBy (e.filesAt point) (e.recordsAt point) lsn torn).openEngine frames chunks =
        .ok e') :
      Reached e' (.restarted (st.keptAt point))

/-! ## The invariant -/

namespace LogRecord

def dropped? : LogRecord → Option Nat
  | .dropFile _ fid => some fid
  | _ => none

def undoEntry? : LogRecord → Option UndoEntry
  | .pagePatch _ pid off _ before => some ⟨pid, off, before⟩
  | _ => none

/-- A patch of a file that another record drops. -/
def PatchesDropped (drop patch : LogRecord) : Prop :=
  ∃ fid txn pid off after before, drop.dropped? = some fid ∧
    patch = .pagePatch txn pid off after before ∧ pid.fileId = fid

end LogRecord

/-- The records of the active transaction against the contents that it began with. -/
structure Recorded (committed : PageId → Page) (drops : List Nat) (txn? : Option TxnContext)
    (baseline : PageId → Page) (current : List LogRecord) : Prop where
  chained : Chained (current.filterMap LogRecord.patch?) (bytesOf committed)
  baseline : baseline = overlay current committed
  ordered : current.Pairwise fun drop patch => ¬ LogRecord.PatchesDropped drop patch
  dropped : drops = current.filterMap LogRecord.dropped?
  valid : ∀ r ∈ current, r.Valid ∧ r.Changes
  idle : txn? = none → current = []
  active : ∀ txn, txn? = some txn → (∀ r ∈ current, r.txn = txn.txnId) ∧
    txn.undo = current.filterMap LogRecord.undoEntry? ∧ txn.wrote = !current.isEmpty ∧
    txn.pendingDrops = drops ∧ txn.txnId < 2 ^ 64

/-- The records of the transactions before, as recovery needs them. -/
structure Mended (committed pages : PageId → Page) (earlier current : List LogRecord) :
    Prop where
  closed : ∀ r ∈ earlier, LogRecord.commit r.txn ∈ earlier
  unaborted : ∀ t, LogRecord.abort t ∉ earlier
  valid : ∀ r ∈ earlier, r.Valid
  restorable : ∃ base : PageId → Page,
    bytesOf committed = redoAll (earlier.filterMap LogRecord.change?) (bytesOf base) ∧
    ∀ l, ¬ Touched (earlier.filterMap LogRecord.change? ++ current.filterMap LogRecord.patch?) l →
      bytesOf pages l = bytesOf base l

/-- The invariant of runs. -/
structure Accounted (e : Engine) (st : TxnStore) (top : Nat → Nat) (earlier current : List LogRecord) :
    Prop where
  backed : e.Backed top
  free : ¬ e.files.Blocked
  working : e.content = st.working
  records : e.wal.records = earlier ++ current
  numbers : ∀ r ∈ earlier, r.txn < e.wal.nextTxnId
  number : ∀ txn, e.txn = some txn → txn.txnId < e.wal.nextTxnId ∧
    ∀ r ∈ earlier, r.txn ≠ txn.txnId
  below : ∀ txn pid off after before,
    LogRecord.pagePatch txn pid off after before ∈ earlier ++ current → pid.pageNo < top pid.fileId
  recorded : Recorded st.committed st.drops e.txn e.baseline current
  settled : e.txn = none → BufferPool.AllLogged e
  mended : st.mended = true → Mended st.committed e.files.pages earlier current

namespace Accounted

variable {e e' : Engine} {st : TxnStore} {top top' : Nat → Nat} {earlier current : List LogRecord}

theorem fine (holds : Accounted e st top earlier current) : e.files.Fine top :=
  ⟨holds.backed.sound, holds.free, holds.backed.sizes⟩

/-- A byte of a page that was logged is as before where no patch touches it. -/
theorem mended_of_written (holds : Accounted e st top earlier current) {pages : PageId → Page}
    (written : ∀ pid, pages pid = e.files.pages pid ∨ pages pid = e.baseline pid)
    (mended : st.mended = true) : Mended st.committed pages earlier current := by
  obtain ⟨closed, unaborted, valid, base, made, untouched⟩ := holds.mended mended
  refine ⟨closed, unaborted, valid, base, made, fun l uncovered => ?_⟩
  rcases written l.1 with same | logged
  · exact (congrArg (fun p : Page => p.get l.2) same).trans (untouched l uncovered)
  · have byte : bytesOf pages l = bytesOf e.baseline l :=
      congrArg (fun p : Page => p.get l.2) logged
    rw [touched_append, not_or] at uncovered
    rw [byte, holds.recorded.baseline, ← redoAll_patches, redoAll_of_uncovered uncovered.2, made,
      redoAll_of_uncovered uncovered.1]

/-- A step that moves contents only. -/
theorem moved (holds : Accounted e st top earlier current) (moved : Engine.Moved e e')
    (backed : e'.Backed top') (le : ∀ fid, top fid ≤ top' fid) :
    Accounted e' st top' earlier current where
  backed := backed
  free := by
    rintro ⟨fid, why⟩
    rw [moved.kept.refused, moved.kept.keeps] at why
    exact holds.free ⟨fid, why⟩
  working := (funext moved.content).trans holds.working
  records := by rw [moved.kept.wal, holds.records]
  numbers := by
    rw [moved.kept.wal]
    exact holds.numbers
  number := by
    rw [moved.kept.wal, moved.kept.txn]
    exact holds.number
  below txn pid off after before mem :=
    lt_of_lt_of_le (holds.below txn pid off after before mem) (le _)
  recorded := by
    rw [moved.kept.txn, funext moved.baseline]
    exact holds.recorded
  settled idle := by
    rw [moved.kept.txn] at idle
    exact (holds.settled idle).moved moved
  mended := holds.mended_of_written moved.kept.written

end Accounted

/-- The invariant, for some records and sizes of files. -/
def Durable (e : Engine) (st : TxnStore) : Prop :=
  ∃ top earlier current, Accounted e st top earlier current

section Calls

open Engine BufferPool

variable {e e' : Engine} {st : TxnStore} {pid : PageId} {idx fid : Nat} {top top' : Nat → Nat}
  {earlier current : List LogRecord}

theorem Accounted.durable (holds : Accounted e st top earlier current) : Durable e st :=
  ⟨top, earlier, current, holds⟩

/-! ## Calls to the pool -/

/-- The invariant is kept, whether the call returns or raises. -/
abbrev KeepsDurable (c : PoolCall) (e : Engine) (st : TxnStore) : Prop :=
  Ends (Engine.call c) e (fun _ e' => Durable e' (st.call c)) fun _ e' => Durable e' (st.call c)

theorem Accounted.createTableFile (holds : Accounted e st top earlier current)
    (empty : e.files.pageCount fid = 0) : KeepsDurable (.createTableFile fid) e st := by
  simp only [KeepsDurable, Engine.call, onFiles, ends_onPart, FileManager.createTableFile,
    ends_bind, ends_modify]
  have opening : ∀ files : FileManager, (files = e.files ∨ files = e.files.opened fid) →
      Durable { e with files := files.truncated fid } st := by
    intro files opened
    obtain ⟨moved, backed⟩ := opened_moved holds.backed opened
    have still_empty : files.pageCount fid = 0 := by
      rcases opened with rfl | rfl
      · exact empty
      · exact (FileManager.pageCount_opened fid).trans empty
    obtain ⟨moved', backed'⟩ := truncated_moved backed still_empty
    exact (holds.moved (moved.trans moved') backed' (le_raised _ _)).durable
  apply FileManager.fdFor_ends.mono
  · rintro - files (⟨-, rfl⟩ | ⟨-, rfl⟩)
    · exact opening _ (.inl rfl)
    · exact opening _ (.inr rfl)
  · rintro err files ⟨rfl, -, -⟩
    exact holds.durable

theorem Accounted.allocate (holds : Accounted e st top earlier current)
    (zero : e.find pid = none → e.files.pages pid = Block.zero) :
    KeepsDurable (.allocate pid) e st := by
  simp only [KeepsDurable, Engine.call, ends_bind, ends_pure]
  apply (allocate_moved holds.backed).mono
  · rintro idx e' ⟨-, kept, backed, -, moved | ⟨absent, content, baseline⟩⟩
    · exact (holds.moved moved backed (le_raised _ _)).durable
    · have moved : Moved e e' := by
        refine ⟨kept, congrFun ?_, congrFun ?_⟩
        · rw [content, ← zero absent, ← content_of_absent absent, Function.update_eq_self]
        · rw [baseline, ← zero absent, ← baseline_of_absent absent, Function.update_eq_self]
      exact (holds.moved moved backed (le_raised _ _)).durable
  · rintro err e' ⟨-, -, -, moved, backed, -⟩
    exact (holds.moved moved backed fun _ => le_rfl).durable

theorem Accounted.read (holds : Accounted e st top earlier current) {magic : Nat} (magic_ne : magic ≠ 0) :
    KeepsDurable (.read pid magic) e st := by
  simp only [KeepsDurable, Engine.call, ends_bind, ends_pure]
  apply (read_moved holds.backed magic_ne).mono
  · rintro idx e' ⟨-, moved, backed, -⟩
    exact (holds.moved moved backed fun _ => le_rfl).durable
  · rintro err e' ⟨moved, backed, -, -⟩
    exact (holds.moved moved backed fun _ => le_rfl).durable

theorem Accounted.peek (holds : Accounted e st top earlier current) : KeepsDurable (.peek pid) e st := by
  simp only [KeepsDurable, Engine.call, ends_bind, ends_get, ends_pure]
  apply pointer_ends.mono
  · rintro idx _ ⟨rfl, -⟩
    exact holds.durable
  · rintro err _ ⟨rfl, -⟩
    exact holds.durable

/-- New bytes in a pinned frame are what the transaction works on; they are not logged yet. -/
theorem Accounted.poke (holds : Accounted e st top earlier current) {p : Page} (active : e.txn.isSome)
    (pinned : 0 < e.pinCount pid) : KeepsDurable (.poke pid p) e st := by
  simp only [KeepsDurable, Engine.call, ends_bind, BufferPool.poke, ends_modify]
  have cached : e.find pid ≠ none := fun absent =>
    Nat.lt_irrefl 0 (pinCount_of_absent absent ▸ pinned)
  apply pointer_ends.mono
  · rintro idx _ ⟨rfl, found⟩
    obtain ⟨-, valid, page⟩ := (holds.backed.tidy.indexed.find_iff pid idx).mp found
    rw [pinCount_of_find found] at pinned
    obtain ⟨backed, kept, content, baseline, -⟩ := held_backed
      (f := { e.frame idx with data := p }) holds.backed found page valid
      (fun none => absurd none (Nat.pos_iff_ne_zero.mp pinned))
      (fun clean => page ▸ holds.backed.clean idx valid clean)
    refine ⟨top, earlier, current, ⟨backed, holds.free, ?_, holds.records, holds.numbers,
      holds.number, holds.below, ?_, ?_, holds.mended⟩⟩
    · rw [content, holds.working]
      rfl
    · have same : (e.setFrame idx { e.frame idx with data := p }).baseline = e.baseline := by
        rw [baseline, ← baseline_of_find found, Function.update_eq_self]
      rw [same]
      exact holds.recorded
    · intro idle
      have idle : e.txn = none := idle
      rw [idle] at active
      cases active
  · rintro err _ ⟨rfl, absent⟩
    exact absurd absent cached

theorem not_patchesDropped_diff {txn : Nat} {before data : Page} :
    ∀ r ∈ diffRecords txn pid before data, ∀ r', ¬ LogRecord.PatchesDropped r r' := by
  rintro r mem r' ⟨fid, -, -, -, -, -, dropped, -, -⟩
  obtain ⟨region, -, rfl⟩ := List.mem_map.mp mem
  cases dropped

/-- Patches of a page that may be changed, after the records that there are. -/
theorem Recorded.extend {txn : TxnContext} {committed baseline : PageId → Page} {drops : List Nat}
    {before data : Page} (recorded : Recorded committed drops (some txn) baseline current) (same : baseline pid = before)
    (numbered : pid.Numbered) (changeable : pid.fileId ∉ txn.pendingDrops)
    {some_of : List LogRecord} (first : some_of <+: diffRecords txn.txnId pid before data) :
    Chained ((current ++ some_of).filterMap LogRecord.patch?) (bytesOf committed) ∧
      ((current ++ some_of).Pairwise fun drop patch => ¬ LogRecord.PatchesDropped drop patch) ∧
      (∀ r ∈ current ++ some_of, r.Valid ∧ r.Changes ∧ r.txn = txn.txnId) := by
  obtain ⟨own, -, -, pending, txn_lt⟩ := recorded.active txn rfl
  have among := first.subset
  refine ⟨?_, ?_, ?_⟩
  · rw [List.filterMap_append, chained_append]
    refine ⟨recorded.chained, ?_⟩
    rw [redoAll_patches, ← recorded.baseline]
    obtain ⟨others, whole⟩ := first
    have chained := chained_diff txn.txnId data same
    rw [← whole, List.filterMap_append, chained_append] at chained
    exact chained.1
  · rw [List.pairwise_append]
    refine ⟨recorded.ordered, ?_, ?_⟩
    · apply List.pairwise_iff_forall_sublist.mpr
      intro r r' both
      exact not_patchesDropped_diff r (among (both.subset List.mem_cons_self)) r'
    · rintro drop drop_mem patch patch_mem ⟨fid, t, pid', off, after, bytes, dropped, rfl, file⟩
      obtain ⟨region, -, patch_eq⟩ := List.mem_map.mp (among patch_mem)
      cases patch_eq
      apply changeable
      rw [pending, recorded.dropped, file]
      exact List.mem_filterMap.mpr ⟨drop, drop_mem, dropped⟩
  · intro r mem
    rcases List.mem_append.mp mem with mem | mem
    · exact ⟨(recorded.valid r mem).1, (recorded.valid r mem).2, own r mem⟩
    · have valid := diff_valid txn_lt numbered.1 numbered.2.1 numbered.2.2 r (among mem)
      obtain ⟨region, -, rfl⟩ := List.mem_map.mp (among mem)
      exact ⟨valid, trivial, rfl⟩

/-- `mark_dirty` logs the difference against the baseline. -/
theorem Accounted.logPageDiff (holds : Accounted e st top earlier current) {txn : TxnContext}
    (active : e.txn = some txn) (changeable : e.Changeable pid) (found : e.find pid = some idx) :
    Durable (logPageDiff txn idx e) st := by
  obtain ⟨inRange, valid, page⟩ := (holds.backed.tidy.indexed.find_iff pid idx).mp found
  obtain ⟨backed, content, baseline, -⟩ := logPageDiff_moved txn holds.backed found
  have recorded := holds.recorded
  rw [active] at recorded
  obtain ⟨-, undo, wrote, pending, txn_lt⟩ := recorded.active txn rfl
  have before : e.baseline pid = (e.frame idx).before := baseline_of_find found
  have logged : (BufferPool.logPageDiff txn idx e).wal.records =
      earlier ++ (current ++ diffRecords txn.txnId pid (e.frame idx).before (e.frame idx).data) := by
    rw [← List.append_assoc, ← holds.records, ← page]
    rfl
  obtain ⟨chained, ordered, all_valid⟩ := recorded.extend before changeable.1
    (changeable.2 txn active)
    (List.prefix_refl (diffRecords txn.txnId pid (e.frame idx).before (e.frame idx).data))
  refine ⟨top, earlier, _, ⟨backed, holds.free, content.trans holds.working, logged,
    holds.numbers, ?_, ?_, ⟨chained, ?_, ordered, ?_, ?_, ?_, ?_⟩, ?_, ?_⟩⟩
  · intro txn' active'
    obtain rfl := Option.some.inj active'
    exact holds.number txn active
  · intro t pid' off after bytes mem
    rw [← List.append_assoc] at mem
    rcases List.mem_append.mp mem with mem | mem
    · exact holds.below t pid' off after bytes mem
    · obtain ⟨region, -, patch_eq⟩ := List.mem_map.mp mem
      cases patch_eq
      rw [← page]
      exact holds.backed.cached idx valid
  · rw [baseline, overlay_append, ← recorded.baseline, overlay_diff _ before,
      content_of_find found]
  · have none_dropped : (diffRecords txn.txnId pid (e.frame idx).before
        (e.frame idx).data).filterMap LogRecord.dropped? = [] := by
      apply List.filterMap_eq_nil_iff.mpr
      intro r mem
      obtain ⟨region, -, rfl⟩ := List.mem_map.mp mem
      rfl
    rw [List.filterMap_append, none_dropped, List.append_nil]
    exact recorded.dropped
  · exact fun r mem => ⟨(all_valid r mem).1, (all_valid r mem).2.1⟩
  · intro idle
    cases idle
  · intro txn' active'
    obtain rfl := Option.some.inj active'
    refine ⟨fun r mem => (all_valid r mem).2.2, ?_, ?_, pending, txn_lt⟩
    · have entries : (diffRecords txn.txnId pid (e.frame idx).before
          (e.frame idx).data).filterMap LogRecord.undoEntry? =
          (pageDiff (e.frame idx).before (e.frame idx).data).map fun region =>
            (⟨pid, region.1, (e.frame idx).before.read region.1 region.2⟩ : UndoEntry) := by
        rw [diffRecords, List.filterMap_map, ← List.filterMap_eq_map]
        rfl
      rw [List.filterMap_append, ← undo, entries, ← page]
    · change (txn.wrote || !(pageDiff (e.frame idx).before (e.frame idx).data).isEmpty) = _
      rw [wrote, diffRecords]
      cases current <;> simp
  · intro idle
    cases idle
  · intro mended
    obtain ⟨closed, unaborted, earlier_valid, base, made, untouched⟩ := holds.mended mended
    refine ⟨closed, unaborted, earlier_valid, base, made, fun l uncovered => ?_⟩
    apply untouched
    intro touched
    apply uncovered
    rw [List.filterMap_append, ← List.append_assoc, touched_append]
    exact .inl touched

theorem Accounted.markDirty (holds : Accounted e st top earlier current) (changeable : e.Changeable pid) :
    KeepsDurable (.markDirty pid) e st := by
  simp only [KeepsDurable, Engine.call, ends_bind]
  apply pointer_ends.mono
  · rintro idx _ ⟨rfl, found⟩
    obtain ⟨inRange, valid, -⟩ := (holds.backed.tidy.indexed.find_iff pid idx).mp found
    have index : frameIndex e idx = some idx := if_pos ⟨inRange, valid⟩
    simp only [BufferPool.markDirty, ends_bind, ends_get, index]
    cases active : e.txn with
    | none => exact holds.durable
    | some txn => exact holds.logPageDiff active changeable found
  · rintro err _ ⟨rfl, -⟩
    exact holds.durable

theorem Accounted.unpin (holds : Accounted e st top earlier current) (pinned : 0 < e.pinCount pid)
    (logged : e.pinCount pid = 1 → e.baseline pid = e.content pid) :
    KeepsDurable (.unpin pid) e st := by
  simp only [KeepsDurable, Engine.call, ends_bind]
  apply pointer_ends.mono
  · rintro idx _ ⟨rfl, found⟩
    obtain ⟨inRange, valid, page⟩ := (holds.backed.tidy.indexed.find_iff pid idx).mp found
    have index : frameIndex e idx = some idx := if_pos ⟨inRange, valid⟩
    simp only [BufferPool.unpin, ends_bind, ends_get, index]
    rw [pinCount_of_find found] at pinned logged
    obtain ⟨backed, kept, content, baseline, -⟩ := held_backed
      (f := { e.frame idx with pin := (e.frame idx).pin - 1 }) holds.backed found page valid
      (fun none => by
        have last := logged (by dsimp only at none; omega)
        rw [baseline_of_find found, content_of_find found] at last
        exact last)
      (fun clean => page ▸ holds.backed.clean idx valid clean)
    have moved : Moved e (e.setFrame idx { e.frame idx with pin := (e.frame idx).pin - 1 }) := by
      refine ⟨kept, congrFun ?_, congrFun ?_⟩
      · rw [content, ← content_of_find found, Function.update_eq_self]
      · rw [baseline, ← baseline_of_find found, Function.update_eq_self]
    exact (holds.moved moved backed fun _ => le_rfl).durable
  · rintro err _ ⟨rfl, -⟩
    exact holds.durable

theorem Accounted.flush (holds : Accounted e st top earlier current)
    (logged : e.baseline pid = e.content pid) : KeepsDurable (.flush pid) e st := by
  simp only [KeepsDurable, Engine.call, BufferPool.flush, ends_bind, ends_get]
  cases found : e.find pid with
  | none => exact holds.durable
  | some idx =>
      rw [baseline_of_find found, content_of_find found] at logged
      apply (writeBack_moved holds.backed fun _ _ => logged).mono
      · rintro - e' ⟨⟨moved, backed, -⟩, -⟩
        exact (holds.moved moved backed fun _ => le_rfl).durable
      · exact fun _ _ never => never.elim

theorem Accounted.setTree (holds : Accounted e st top earlier current) {t : BTree} :
    KeepsDurable (.setTree fid t) e st :=
  ⟨top, earlier, current, ⟨holds.backed.congr rfl rfl rfl, holds.free, holds.working,
    holds.records, holds.numbers, holds.number, holds.below, holds.recorded, holds.settled,
    holds.mended⟩⟩

theorem Durable.call (durable : Durable e st) {c : PoolCall} (orderly : e.Orderly c) :
    KeepsDurable c e st := by
  obtain ⟨top, earlier, current, holds⟩ := durable
  cases c with
  | createTableFile fid => exact holds.createTableFile orderly
  | tableFileExists fid => exact holds.durable
  | pageCount fid => exact holds.durable
  | allocate pid => exact holds.allocate orderly
  | read pid magic => exact holds.read orderly
  | peek pid => exact holds.peek
  | poke pid p => exact holds.poke orderly.1 orderly.2
  | markDirty pid => exact holds.markDirty orderly
  | unpin pid => exact holds.unpin orderly.1 orderly.2
  | flush pid => exact holds.flush orderly
  | tree fid => exact holds.durable
  | setTree fid t => exact holds.setTree

end Calls

end MySimpleDb.Storage
