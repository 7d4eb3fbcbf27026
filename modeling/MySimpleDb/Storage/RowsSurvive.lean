import MySimpleDb.Storage.RowStatements

/-!
# Rows survive

What the ends of transactions, checkpoints and kills leave of table files, and that in every
run each statement is answered as by the heap files, whatever was committed, rolled back or
lost before.
-/

namespace MySimpleDb.Storage

open MySimpleDb.Lib Attempt Engine

variable {fid : Nat} {e e' e₁ : Engine} {st st' : RowStore} {ts ts' : TxnStore} {h : HeapFile}
  {top : Nat → Nat} {txn : TxnContext}

/-! ## Between transactions -/

namespace RowsHold

/-- Nothing is changed and nothing is to be undone. -/
theorem settled {tables : Nat → Option HeapFile} (reached : Reached e ts)
    (enough : 2 ≤ e.frames.length) (none_dropped : ts.drops = [])
    (unpinned : ∀ pid, e.pinCount pid = 0) (logged : BufferPool.AllLogged e)
    (no_undo : e.undo = []) (no_tailUndo : e.tailUndo = []) (working : TablesAt e.content tables)
    (committed : TablesAt ts.committed tables)
    (tails : ∀ fid n, e.tailPages fid = some n → ∃ h, tables fid = some h ∧ n = h.tail)
    (onDisk : ∀ fid h, tables fid = some h → e.tailPages fid = none → TailOnDisk e fid h.tail) :
    RowsHold e ⟨tables, tables, [], ts.mended⟩ ts := by
  have before : e.tailsBefore = e.tailPages := by rw [tailsBefore, no_tailUndo]; rfl
  refine ⟨reached, enough, none_dropped, rfl, unpinned, logged, fun _ => rfl, working, committed,
    tails, onDisk, before ▸ tails, fun fid _ => ⟨rfl, congrFun before fid⟩, ?_⟩
  rw [no_undo]
  exact fun u mem => absurd mem List.not_mem_nil

/-- The committed tables are in what a restart finds. -/
theorem store_eq (holds : RowsHold e st ts) (idle : st.changed = []) :
    st = ⟨st.working, st.working, [], ts.mended⟩ := by
  have same : st.committed = st.working := by
    funext fid
    exact (holds.unchanged fid (by rw [idle]; exact List.not_mem_nil)).1.symm
  obtain ⟨working, committed, changed, mended⟩ := st
  obtain rfl : committed = working := same
  obtain rfl : changed = [] := idle
  rw [holds.mended]

theorem begin (holds : RowsHold e st ts) (idle : e.txn = none) (few : e.wal.nextTxnId < 2 ^ 64) :
    (beginTxn.exit e).1 = .ok () ∧ RowsHold (beginTxn.exit e).2 st ts := by
  have exited := beginTxn_exit idle
  have reached := holds.reached.begin idle few
  rw [exited] at reached ⊢
  have store := holds.store_eq (holds.idle idle)
  have same : st.committed = st.working := congrArg RowStore.committed store
  rw [store]
  refine ⟨rfl, settled reached holds.enough holds.none_dropped holds.unpinned holds.logged rfl rfl
    holds.working (same ▸ holds.committed) holds.tails fun fid h table untracked => ?_⟩
  have on_disk := holds.onDisk fid h table untracked
  exact ⟨on_disk.beyond, on_disk.there⟩

theorem pending (holds : RowsHold e st ts) (active : e.txn = some txn) : txn.pendingDrops = [] :=
  (holds.reached.pending active).trans holds.none_dropped

theorem commit (holds : RowsHold e st ts) (active : e.txn.isSome = true) :
    (commitTxn.exit e).1 = .ok () ∧ RowsHold (commitTxn.exit e).2 st.commit ts.commit := by
  obtain ⟨txn, active'⟩ := Option.isSome_iff_exists.mp active
  have pending := holds.pending active'
  obtain ⟨wal, logs, -, -⟩ := logCommit_parts (e := e) txn
  have ends : Ends commitTxn e (fun _ e' => e' = { e with wal := wal, txn := none })
      fun _ _ => False := by
    simp only [commitTxn, ends_bind, ends_get, active', ends_modify]
    rw [logs, pending]
    exact rfl
  obtain ⟨_, _, exited, rfl⟩ := ends.exits
  have reached := holds.reached.commit active holds.logged fun txn' active'' fid mem => by
    rw [holds.pending active''] at mem
    cases mem
  rw [exited] at reached ⊢
  have ended : ts.ended = e.content := by
    obtain ⟨top, earlier, current, accounted⟩ := holds.reached.durable
    unfold TxnStore.ended
    rw [holds.none_dropped, accounted.working]
    simp
  have store : st.commit = ⟨st.working, st.working, [], ts.commit.mended⟩ := by
    rw [RowStore.commit, ← holds.mended]
    rfl
  rw [store]
  refine ⟨rfl, settled reached holds.enough rfl holds.unpinned holds.logged rfl rfl holds.working
    ?_ holds.tails fun fid h table untracked => ?_⟩
  · change TablesAt ts.ended _
    rw [ended]
    exact holds.working
  · have on_disk := holds.onDisk fid h table untracked
    exact ⟨on_disk.beyond, on_disk.there⟩

end RowsHold

/-! ## Rollback -/

/-- Undo entries are restored in their pages alone. -/
theorem restoreAll_aside {undo : List UndoEntry} (backed : e.Backed top)
    (below : ∀ u ∈ undo, u.pid.pageNo < top u.pid.fileId) :
    Ends (restoreAll undo) e (fun _ e' => e'.frames.length = e.frames.length ∧
      e'.pinCount = e.pinCount ∧ e'.tailPages = e.tailPages ∧
      ∀ pid, (∀ u ∈ undo, u.pid ≠ pid) →
        e'.files.pages pid = e.files.pages pid ∧ e'.baseline pid = e.baseline pid)
      fun _ _ => False := by
  unfold restoreAll
  have below : ∀ u ∈ undo.reverse, u.pid.pageNo < top u.pid.fileId :=
    fun u mem => below u (List.mem_reverse.mp mem)
  have within : ∀ pid, (∀ u ∈ undo, u.pid ≠ pid) ↔ ∀ u ∈ undo.reverse, u.pid ≠ pid := by
    simp
  simp only [within]
  generalize undo.reverse = entries at below
  induction entries generalizing e with
  | nil => exact ⟨rfl, rfl, rfl, fun _ _ => ⟨rfl, rfl⟩⟩
  | cons u entries inductionHypothesis =>
      change Ends (BufferPool.restoreRegion u.pid u.off u.before >>= fun _ => entries.forM _) e _ _
      rw [ends_bind]
      apply (BufferPool.restoreRegion_restored backed (below u List.mem_cons_self) u.off
        u.before).mono
      · rintro - e₁ restored
        apply (inductionHypothesis restored.backed fun u mem =>
          below u (List.mem_cons_of_mem _ mem)).mono
        · rintro - e₂ ⟨length, pins, tails, others⟩
          refine ⟨length.trans restored.length, pins.trans restored.pins,
            tails.trans restored.tails, fun pid apart => ?_⟩
          have first := (apart u List.mem_cons_self).symm
          obtain ⟨disk, baseline⟩ := others pid fun u mem => apart u (List.mem_cons_of_mem _ mem)
          refine ⟨disk.trans (restored.others pid first), baseline.trans ?_⟩
          rw [restored.baseline, Function.update_of_ne first]
        · exact fun _ _ never => never
      · exact fun _ _ never => never

namespace RowsHold

theorem rollback (holds : RowsHold e st ts) (active : e.txn = some txn)
    (known : ∀ fid ∈ st.changed, st.committed fid ≠ none → e.tailsBefore fid ≠ none) :
    (rollbackTxn.exit e).1 = .ok () ∧
      RowsHold (rollbackTxn.exit e).2 (st.rollback txn.wrote) (ts.rollback txn.wrote) := by
  obtain ⟨top, earlier, current, accounted⟩ := holds.reached.durable
  have below : ∀ u ∈ txn.undo, u.pid.pageNo < top u.pid.fileId := by
    intro u mem
    rw [(accounted.recorded.active txn active).2.1] at mem
    obtain ⟨r, r_mem, entry⟩ := List.mem_filterMap.mp mem
    cases r with
    | pagePatch t pid off after before =>
        cases entry
        exact accounted.below t pid off after before (List.mem_append_right _ r_mem)
    | dropFile t fid => cases entry
    | commit t => cases entry
    | abort t => cases entry
  have undo : e.undo = txn.undo := by rw [Engine.undo, active]; rfl
  have before : e.tailsBefore = txn.tailUndo.reverse.foldl
      (fun tails u => Function.update tails u.fid u.old) e.tailPages := by
    rw [tailsBefore, Engine.tailUndo, active]
    rfl
  have ends : Ends rollbackTxn e (fun _ e' => e'.txn = none ∧
      e'.frames.length = e.frames.length ∧ e'.pinCount = e.pinCount ∧
      e'.tailPages = e.tailsBefore ∧ ∀ pid, (∀ u ∈ e.undo, u.pid ≠ pid) →
        e'.files.pages pid = e.files.pages pid ∧ e'.baseline pid = e.baseline pid)
      fun _ _ => False := by
    simp only [rollbackTxn, ends_bind, ends_get, active, ends_modify]
    apply (restoreAll_aside accounted.backed below).mono
    · rintro - e₁ ⟨length, pins, tails, others⟩
      obtain ⟨wal, aborts, -, -⟩ := logAbort_parts (e := e₁) txn (txn.tailUndo.reverse.foldl
        (fun tails u => Function.update tails u.fid u.old) e₁.tailPages)
      rw [aborts, undo, before, ← tails]
      exact ⟨trivial, length, pins, rfl, others⟩
    · exact fun _ _ never => never
  obtain ⟨_, e', exited, idle, length, pins, tails, others⟩ := ends.exits
  have reached := holds.reached.rollback active holds.logged
  rw [exited] at reached ⊢
  obtain ⟨top', earlier', current', accounted'⟩ := reached.durable
  have content : e'.content = ts.committed := accounted'.working
  have logged := accounted'.settled idle
  have no_undo : e'.undo = [] := by rw [Engine.undo, idle]; rfl
  have no_tailUndo : e'.tailUndo = [] := by rw [Engine.tailUndo, idle]; rfl
  have store : st.rollback txn.wrote =
      ⟨st.committed, st.committed, [], (ts.rollback txn.wrote).mended⟩ := by
    rw [RowStore.rollback, ← holds.mended]
    rfl
  rw [store]
  refine ⟨rfl, settled reached (length ▸ holds.enough) rfl (pins ▸ holds.unpinned) logged no_undo
    no_tailUndo (content ▸ holds.committed) holds.committed (tails ▸ holds.before)
    fun fid h table untracked => ?_⟩
  -- a table whose tail is not known was not changed
  rw [tails] at untracked
  have unchanged : fid ∉ st.changed := fun changed =>
    known fid changed (by rw [table]; exact Option.some_ne_none h) untracked
  obtain ⟨same, tail_same⟩ := holds.unchanged fid unchanged
  have on_disk := holds.onDisk fid h (same.trans table) (tail_same.symm.trans untracked)
  have aside : ∀ no, e'.files.pages ⟨fid, no⟩ = e.files.pages ⟨fid, no⟩ ∧
      e'.baseline ⟨fid, no⟩ = e.baseline ⟨fid, no⟩ := by
    intro no
    refine others ⟨fid, no⟩ fun u mem here => unchanged ?_
    have changed := holds.undone u mem
    rw [here, table] at changed
    exact changed (Option.some_ne_none h)
  refine ⟨fun no above => ?_, fun some => ?_⟩
  · rw [(aside no).1, (aside no).2]
    exact on_disk.beyond no above
  · rw [(aside h.tail).1, (aside h.tail).2]
    exact on_disk.there some

/-! ## Checkpoints -/

theorem checkpoint (holds : RowsHold e st ts) (idle : e.txn = none) :
    (Engine.checkpoint.exit e).1 = .ok () ∧
      RowsHold (Engine.checkpoint.exit e).2 st.checkpoint ts.checkpoint := by
  obtain ⟨top, earlier, current, accounted⟩ := holds.reached.durable
  have ends : Ends Engine.checkpoint e (fun _ e' => e'.txn = none ∧
      e'.frames.length = e.frames.length ∧ e'.pinCount = e.pinCount ∧ e'.tailPages = e.tailPages ∧
      e'.content = e.content ∧ e'.baseline = e.baseline ∧ e'.files.pages = e'.baseline)
      fun _ _ => False := by
    simp only [Engine.checkpoint, ends_bind, ends_get, idle, Option.isSome_none,
      Bool.false_eq_true, if_false, ends_modify]
    apply (BufferPool.flushAll_moved accounted.backed holds.logged).mono
    · rintro - e₁ ⟨moved, backed₁, pins, clean⟩
      refine ⟨moved.kept.txn.trans idle, moved.kept.length, funext pins, moved.kept.tails,
        funext moved.content, funext moved.baseline, ?_⟩
      funext pid
      change e₁.files.pages pid = e₁.baseline pid
      cases found : e₁.find pid with
      | none => rw [baseline_of_absent found]
      | some i =>
          obtain ⟨-, valid, page⟩ := (backed₁.tidy.indexed.find_iff pid i).mp found
          rw [baseline_of_find found, ← page]
          exact backed₁.clean i valid (clean i valid)
    · exact fun _ _ never => never
  obtain ⟨_, e', exited, idle', length, pins, tails, content, baseline, written⟩ := ends.exits
  have reached := holds.reached.checkpoint idle
  rw [exited] at reached ⊢
  have logged : BufferPool.AllLogged e' := fun pid => by
    rw [baseline, content]
    exact holds.logged pid
  have no_undo : e'.undo = [] := by rw [Engine.undo, idle']; rfl
  have no_tailUndo : e'.tailUndo = [] := by rw [Engine.tailUndo, idle']; rfl
  have store := holds.store_eq (holds.idle idle)
  have same : st.committed = st.working := congrArg RowStore.committed store
  have after : st.checkpoint = ⟨st.working, st.working, [], ts.checkpoint.mended⟩ := by
    rw [store]
    rfl
  rw [after]
  refine ⟨rfl, settled reached (length ▸ holds.enough) holds.none_dropped
    (pins ▸ holds.unpinned) logged no_undo no_tailUndo (content ▸ holds.working)
    (same ▸ holds.committed) (tails ▸ holds.tails) fun fid h table _ => ?_⟩
  refine ((holds.working fid h table).2).tailOnDisk (fun no => ?_) fun no => ?_
  · rw [written, baseline]
    exact holds.logged ⟨fid, no⟩
  · rw [baseline]
    exact holds.logged ⟨fid, no⟩

/-! ## Kills -/

/-- A process that was just started on files that hold the tables. -/
theorem restart {files : FileManager} {frames : Nat} {tables : Nat → Option HeapFile}
    (reached : Reached { files, frames := List.replicate frames {} } ts) (enough : 2 ≤ frames)
    (none_dropped : ts.drops = []) (mended : ts.mended = true)
    (committed : ts.committed = files.pages) (tables_at : TablesAt files.pages tables) :
    RowsHold { files, frames := List.replicate frames {} } (.restarted tables) ts := by
  have store : RowStore.restarted tables = ⟨tables, tables, [], ts.mended⟩ := by
    rw [mended]
    rfl
  rw [store]
  refine settled reached (by rw [List.length_replicate]; exact enough) none_dropped
    (fun _ => rfl) (fun _ => rfl) rfl rfl tables_at (committed ▸ tables_at) nofun
    fun fid h table _ => ?_
  exact ((tables_at fid h table).2).tailOnDisk (fun _ => rfl) fun _ => rfl

theorem kill {point : KillPoint} {tables : Nat → Option HeapFile} {lsn frames : Nat}
    {torn : Bytes} {chunks : Nat → Nat} (reached : Reached e ts) (mended : ts.mended = true)
    (known : e.KillAt point) (lsn_lt : lsn < 2 ^ 64) (unreadable : parseRecord torn = none)
    (enough : 2 ≤ frames) (tables_at : TablesAt (ts.keptAt point) tables) :
    ∃ e₂, (leftBy (e.filesAt point) (e.recordsAt point) lsn torn).openEngine frames chunks =
        .ok e₂ ∧ ∃ ts₂, RowsHold e₂ (.restarted tables) ts₂ := by
  obtain ⟨e₂, opened, -, content⟩ :=
    reached.durable.restart mended known lsn_lt unreadable chunks frames
  have reached₂ := reached.kill mended known lsn_lt unreadable opened
  obtain ⟨files, rfl⟩ := openEngine_fresh opened
  have pages : files.pages = ts.keptAt point := content
  exact ⟨_, opened, _, restart reached₂ enough rfl rfl pages.symm (pages ▸ tables_at)⟩

end RowsHold

/-! ## Work in between -/

/-- Calls of a transaction commit nothing. -/
theorem Engine.Works.reached {allowed : PoolCall → Prop} (works : e.Works allowed e₁)
    (reached : Reached e ts) : ∃ ts₁, Reached e₁ ts₁ ∧ ts.SameCommitted ts₁ := by
  induction works with
  | refl => exact ⟨ts, reached, .refl ts⟩
  | @call e₁ first c fine orderly inductionHypothesis =>
      obtain ⟨ts₁, reached₁, same⟩ := inductionHypothesis
      exact ⟨ts₁.call c, reached₁.call orderly, same.trans (.call ts₁ c)⟩
  | look first pid inductionHypothesis =>
      obtain ⟨ts₁, reached₁, same⟩ := inductionHypothesis
      exact ⟨ts₁, reached₁.look pid, same⟩
  | @trees e₁ first trees inductionHypothesis =>
      obtain ⟨ts₁, reached₁, same⟩ := inductionHypothesis
      have tracked := reached₁.track trees e₁.tailPages e₁.tailUndo
      have engine : e₁.tracking trees e₁.tailPages e₁.tailUndo = { e₁ with trees := trees } := by
        unfold tracking Engine.tailUndo
        cases e₁.txn <;> rfl
      rw [engine] at tracked
      exact ⟨ts₁, tracked, same⟩

/-- What work on other files leaves of tables. -/
structure Beside (st : RowStore) (e e₁ : Engine) : Prop where
  length : e₁.frames.length = e.frames.length
  active : e₁.txn.isSome = e.txn.isSome
  tails : e₁.tailPages = e.tailPages
  tailUndo : e₁.tailUndo = e.tailUndo
  undo : ∀ u ∈ e₁.undo, u ∈ e.undo ∨ ¬ st.Has u.pid.fileId
  content : ∀ fid, st.Has fid → ∀ no, e₁.content ⟨fid, no⟩ = e.content ⟨fid, no⟩
  disk : ∀ {fid tail}, st.Has fid → TailOnDisk e fid tail → TailOnDisk e₁ fid tail

theorem Beside.call {c : PoolCall} (beside : Beside st e e₁) (reached : Reached e₁ ts)
    (orderly : e₁.Orderly c) (spared : st.Spared c) :
    Beside st e ((Engine.call c).exit e₁).2 := by
  obtain ⟨top, earlier, current, accounted⟩ := reached.durable
  have marks : Marks c e₁ ((Engine.call c).exit e₁).2 := by
    have ends := (call_marks accounted.backed orderly).state
    exact ends
  obtain ⟨top', earlier', current', accounted'⟩ := (reached.call orderly).durable
  refine ⟨marks.length.trans beside.length, marks.active.trans beside.active,
    marks.tails.trans beside.tails, marks.tailUndo.trans beside.tailUndo, fun u mem => ?_,
    fun fid has no => ?_, @fun fid _ has on_disk => ?_⟩
  · rcases marks.undo u mem with mem | rfl
    · exact beside.undo u mem
    · exact .inr spared
  · rw [← beside.content fid has no, accounted'.working, accounted.working]
    cases c with
    | poke pid p =>
        have apart : (⟨fid, no⟩ : PageId) ≠ pid := by
          rintro rfl
          exact spared has
        exact Function.update_of_ne apart ..
    | _ => rfl
  · refine (beside.disk has on_disk).marks marks
      (show Spares (fun pid _ => ¬ st.Has pid.fileId) fid _ from
        ⟨fun no p none => absurd has none, fun _ p none => absurd has none⟩) ?_
    rintro pid rfl
    exact spared

theorem Engine.Works.beside (works : e.Works st.Spared e₁) (reached : Reached e ts) :
    Beside st e e₁ := by
  induction works with
  | refl => exact ⟨rfl, rfl, rfl, rfl, fun _ => .inl, fun _ _ _ => rfl, fun _ on_disk => on_disk⟩
  | @call e₁ first c spared orderly inductionHypothesis =>
      obtain ⟨ts₁, reached₁, -⟩ := first.reached reached
      exact inductionHypothesis.call reached₁ orderly spared
  | @look e₁ first pid inductionHypothesis =>
      obtain ⟨ts₁, reached₁, -⟩ := first.reached reached
      obtain ⟨top, earlier, current, accounted⟩ := reached₁.durable
      obtain ⟨data, e₂, exited, -, moved, -⟩ := (readPage_moved accounted.backed).exits
      have marks : Marks (.pageCount 0) e₁ e₂ := moved.marks
      rw [exited]
      exact ⟨marks.length.trans inductionHypothesis.length,
        marks.active.trans inductionHypothesis.active,
        marks.tails.trans inductionHypothesis.tails,
        marks.tailUndo.trans inductionHypothesis.tailUndo,
        fun u mem => inductionHypothesis.undo u ((marks.undo u mem).resolve_right nofun),
        fun fid has no => (moved.content _).trans (inductionHypothesis.content fid has no),
        fun has on_disk => (inductionHypothesis.disk has on_disk).moved moved⟩
  | trees first trees inductionHypothesis =>
      obtain ⟨length, active, tails, tailUndo, undo, content, disk⟩ := inductionHypothesis
      exact ⟨length, active, tails, tailUndo, undo, content, fun has on_disk =>
        ⟨(disk has on_disk).beyond, (disk has on_disk).there⟩⟩

theorem RowsHold.elsewhere (holds : RowsHold e st ts) (works : e.Works st.Spared e₁)
    (unpinned : ∀ pid, e₁.pinCount pid = 0) (logged : BufferPool.AllLogged e₁) :
    ∃ ts₁, RowsHold e₁ st ts₁ := by
  obtain ⟨ts₁, reached₁, same⟩ := works.reached holds.reached
  have beside := works.beside holds.reached
  have before : e₁.tailsBefore = e.tailsBefore := by
    rw [tailsBefore, beside.tails, beside.tailUndo, tailsBefore]
  refine ⟨ts₁, reached₁, beside.length ▸ holds.enough, same.drops.trans holds.none_dropped,
    same.mended.trans holds.mended, unpinned, logged, fun idle => ?_, fun fid h table => ?_,
    same.committed ▸ holds.committed, beside.tails ▸ holds.tails, fun fid h table untracked => ?_,
    before ▸ holds.before, ?_, fun u mem known => ?_⟩
  · apply holds.idle
    rw [← Option.not_isSome_iff_eq_none, ← beside.active, idle]
    decide
  · obtain ⟨named, rows⟩ := holds.working fid h table
    exact ⟨named, rows.congr (beside.content fid (.inl (by rw [table]; exact Option.some_ne_none h)))⟩
  · rw [beside.tails] at untracked
    exact beside.disk (.inl (by rw [table]; exact Option.some_ne_none h))
      (holds.onDisk fid h table untracked)
  · rw [before, beside.tails]
    exact holds.unchanged
  · exact holds.undone u ((beside.undo u mem).resolve_right fun none => none (.inr known)) known

/-! ## Runs -/

/-- The invariant holds in every state of a run. -/
theorem RowsReached.holds (reached : RowsReached e st) : ∃ ts, RowsHold e st ts := by
  induction reached with
  | @start frames enough =>
      exact ⟨_, RowsHold.restart (.start frames) enough rfl rfl rfl nofun⟩
  | begin reached idle few inductionHypothesis =>
      obtain ⟨ts, holds⟩ := inductionHypothesis
      exact ⟨ts, (holds.begin idle few).2⟩
  | statement reached legal answers inductionHypothesis =>
      obtain ⟨ts, holds⟩ := inductionHypothesis
      obtain ⟨st', ts', -, unique, after⟩ := holds.statement legal
      rw [unique _ answers]
      exact ⟨ts', after⟩
  | elsewhere reached works unpinned logged inductionHypothesis =>
      obtain ⟨ts, holds⟩ := inductionHypothesis
      exact holds.elsewhere works unpinned logged
  | commit reached active inductionHypothesis =>
      obtain ⟨ts, holds⟩ := inductionHypothesis
      exact ⟨_, (holds.commit active).2⟩
  | rollback reached active known inductionHypothesis =>
      obtain ⟨ts, holds⟩ := inductionHypothesis
      exact ⟨_, (holds.rollback active known).2⟩
  | checkpoint reached idle inductionHypothesis =>
      obtain ⟨ts, holds⟩ := inductionHypothesis
      exact ⟨_, (holds.checkpoint idle).2⟩
  | @kill e e₁ e₂ st reached works mended point early known lsn lsn_lt torn unreadable chunks
      frames enough opened inductionHypothesis =>
      obtain ⟨ts, holds⟩ := inductionHypothesis
      obtain ⟨ts₁, reached₁, same⟩ := works.reached holds.reached
      have kept : ts₁.keptAt point = ts.committed := by
        cases point with
        | between => exact same.committed
        | logging pid count => exact same.committed
        | committing count => exact absurd rfl (early count)
      obtain ⟨e₃, opened', holds₃⟩ := RowsHold.kill reached₁ (same.mended.trans
        (holds.mended.trans mended)) known lsn_lt unreadable enough (kept ▸ holds.committed)
      obtain rfl := Except.ok.inj (opened.symm.trans opened')
      exact holds₃
  | @killCommitting e e₂ st reached active mended count lsn lsn_lt torn unreadable chunks frames
      enough opened inductionHypothesis =>
      obtain ⟨ts, holds⟩ := inductionHypothesis
      have kept : ts.keptAt (.committing count) = e.content := by
        obtain ⟨top, earlier, current, accounted⟩ := holds.reached.durable
        change ts.ended = _
        unfold TxnStore.ended
        rw [holds.none_dropped, accounted.working]
        simp
      obtain ⟨e₃, opened', holds₃⟩ := RowsHold.kill holds.reached
        (holds.mended.trans mended) (show e.KillAt (.committing count) from ⟨active, holds.logged⟩)
        lsn_lt unreadable enough
        (kept ▸ holds.working)
      obtain rfl := Except.ok.inj (opened.symm.trans opened')
      exact holds₃

theorem exit_pair {α : Type} {x : EngineM α} {r : Except Err α} (outcome : (x.exit e).1 = r) :
    x.exit e = (r, (x.exit e).2) := by
  rw [← outcome]

theorem createProgram_exit {e₀ e₁ e₂ e₃ : Engine} (started : beginTxn.exit e₀ = (.ok (), e₁))
    (made : (RowOp.create 3).run.exit e₁ = (.ok .created, e₂))
    (committed : commitTxn.exit e₂ = (.ok (), e₃)) :
    (do
      beginTxn
      let _ ← (RowOp.create 3).run
      commitTxn : EngineM Unit).exit e₀ = (.ok (), e₃) := by
  have ends : Ends (do
      beginTxn
      let _ ← (RowOp.create 3).run
      commitTxn : EngineM Unit) e₀ (fun _ e' => e' = e₃) fun _ _ => False := by
    simp only [ends_bind]
    apply Ends.of_exit started
    apply Ends.of_exit made
    exact Ends.of_exit committed rfl
  obtain ⟨_, _, exited, rfl⟩ := ends.exits
  exact exited

theorem countProgram_exit {e₀ : Engine} (started : (beginTxn.exit e₀).1 = .ok ())
    (counted : ((RowOp.count 3).run.exit (beginTxn.exit e₀).2).1 = .ok (.counted 0)) :
    ∃ e₃, (do
      beginTxn
      (RowOp.count 3).run : EngineM RowAnswer).exit e₀ = (.ok (.counted 0), e₃) := by
  have ends : Ends (do
      beginTxn
      (RowOp.count 3).run : EngineM RowAnswer) e₀ (fun a _ => a = .counted 0)
      fun _ _ => False := by
    simp only [ends_bind]
    apply Ends.of_exit (exit_pair started)
    exact Ends.of_exit (exit_pair counted) rfl
  obtain ⟨_, e₃, exited, rfl⟩ := ends.exits
  exact ⟨e₃, exited⟩

end MySimpleDb.Storage
