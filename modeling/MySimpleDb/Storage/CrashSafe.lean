import MySimpleDb.Storage.CrashRun

/-!
# Committed contents survive

Begin, drop, commit, rollback and checkpoint keep the invariant of runs, and so does a
process that is killed and started anew.  What a commit made is found after every
later kill, and nothing else is.
-/

namespace MySimpleDb.Storage

open MySimpleDb.Lib UndoRedo Attempt Engine BufferPool

variable {e e' : Engine} {st : TxnStore} {fid : Nat} {top : Nat → Nat}
  {earlier current : List LogRecord}

/-- Between transactions everything is committed and logged. -/
theorem durable_of_idle {contents : PageId → Page} {mended : Bool} (backed : e.Backed top)
    (free : ¬ e.files.Blocked) (idle : e.txn = none) (content : e.content = contents)
    (baseline : e.baseline = contents)
    (records : ∀ r ∈ e.wal.records, r.txn < e.wal.nextTxnId ∧
      ∀ txn pid off after before, r = .pagePatch txn pid off after before →
        pid.pageNo < top pid.fileId)
    (held : mended = true → Mended contents e.files.pages e.wal.records []) :
    Durable e ⟨contents, contents, [], mended⟩ := by
  refine ⟨top, e.wal.records, [], ⟨backed, free, content, (List.append_nil _).symm,
    fun r mem => (records r mem).1, ?_, ?_, ⟨trivial, baseline, .nil, rfl, ?_, fun _ => rfl, ?_⟩,
    fun _ pid => ?_, held⟩⟩
  · intro txn active
    rw [idle] at active
    cases active
  · intro txn pid off after before mem
    rw [List.append_nil] at mem
    exact (records _ mem).2 txn pid off after before rfl
  · rintro r ⟨⟩
  · intro txn active
    rw [idle] at active
    cases active
  · rw [baseline, content]

/-! ## Begin -/

theorem Durable.begin (durable : Durable e st) (idle : e.txn = none)
    (few : e.wal.nextTxnId < 2 ^ 64) :
    Ends beginTxn e (fun _ e' => Durable e' st) fun _ _ => False := by
  obtain ⟨top, earlier, current, holds⟩ := durable
  simp only [beginTxn, ends_bind, ends_get, idle]
  have recorded := holds.recorded
  obtain rfl := recorded.idle idle
  refine ⟨top, earlier, [], ⟨holds.backed.congr rfl rfl rfl, holds.free, holds.working,
    holds.records, ?_, ?_, holds.below, ⟨recorded.chained, recorded.baseline, recorded.ordered,
      recorded.dropped, recorded.valid, fun _ => rfl, ?_⟩, ?_, holds.mended⟩⟩
  · intro r mem
    exact Nat.lt_succ_of_lt (holds.numbers r mem)
  · intro txn active
    obtain rfl := Option.some.inj active
    exact ⟨Nat.lt_succ_self _, fun r mem => (holds.numbers r mem).ne⟩
  · intro txn active
    obtain rfl := Option.some.inj active
    refine ⟨?_, rfl, rfl, recorded.dropped.symm, few⟩
    rintro r ⟨⟩
  · intro none
    cases none

theorem Durable.track (durable : Durable e st) (trees : Nat → Option BTree)
    (tails : Nat → Option Nat) (tailUndo : List TailUndo) :
    Durable (e.tracking trees tails tailUndo) st := by
  obtain ⟨top, earlier, current, holds⟩ := durable
  have recorded := holds.recorded
  refine ⟨top, earlier, current, ⟨holds.backed.congr rfl rfl rfl, holds.free, holds.working,
    holds.records, holds.numbers, ?_, holds.below, ⟨recorded.chained, recorded.baseline,
      recorded.ordered, recorded.dropped, recorded.valid, ?_, ?_⟩, ?_, holds.mended⟩⟩
  · intro txn active
    obtain ⟨txn, found, rfl⟩ := Option.map_eq_some_iff.mp active
    exact holds.number txn found
  · exact fun idle => recorded.idle (Option.map_eq_none_iff.mp idle)
  · intro txn active
    obtain ⟨txn, found, rfl⟩ := Option.map_eq_some_iff.mp active
    exact recorded.active txn found
  · exact fun idle => holds.settled (Option.map_eq_none_iff.mp idle)

/-- A page on disk, read past the pool. -/
theorem readPage_moved (backed : e.Backed top) :
    Ends (onFiles (FileManager.readPage pid)) e
      (fun data e' => data = e.files.pages pid ∧ Moved e e' ∧ e'.Backed top ∧
        e'.pinCount = e.pinCount ∧ e'.files.pages = e.files.pages ∧
        e'.files.pageCount = e.files.pageCount)
      fun _ _ => False := by
  rw [onFiles, ends_onPart]
  apply (FileManager.readPage_loaded (backed.opens pid.fileId)).mono
  · rintro data files ⟨rfl, opened⟩
    obtain ⟨moved, backed'⟩ := opened_moved backed opened
    refine ⟨rfl, moved, backed', rfl, ?_, ?_⟩
    · rcases opened with rfl | rfl <;> rfl
    · rcases opened with rfl | rfl
      · rfl
      · exact funext FileManager.pageCount_opened
  · exact fun _ _ never => never

theorem Durable.look (durable : Durable e st) (pid : PageId) :
    Ends (onFiles (FileManager.readPage pid)) e (fun _ e' => Durable e' st) fun _ _ => False := by
  obtain ⟨top, earlier, current, holds⟩ := durable
  apply (readPage_moved holds.backed).mono
  · rintro data e' ⟨-, moved, backed, -⟩
    exact (holds.moved moved backed fun _ => le_rfl).durable
  · exact fun _ _ never => never

/-! ## Drop -/

/-- A drop is logged at once, and takes effect with the commit. -/
theorem Durable.drop (durable : Durable e st) (active : e.txn.isSome) (logged : AllLogged e)
    (numbered : fid ≠ 0 ∧ fid < 2 ^ 64)
    (unpinned : ∀ pid : PageId, pid.fileId = fid → e.pinCount pid = 0) :
    Ends (dropFile fid) e (fun _ e' => Durable e' (st.drop fid)) fun _ _ => False := by
  obtain ⟨top, earlier, current, holds⟩ := durable
  obtain ⟨txn, active⟩ := Option.isSome_iff_exists.mp active
  have recorded := holds.recorded
  rw [active] at recorded
  obtain ⟨own, undo, wrote, pending, txn_lt⟩ := recorded.active txn rfl
  have no_zero : 0 ∉ txn.pendingDrops := by
    rw [pending, recorded.dropped]
    intro mem
    obtain ⟨r, r_mem, dropped⟩ := List.mem_filterMap.mp mem
    have valid := (recorded.valid r r_mem).1
    cases r with
    | dropFile t fid =>
        cases dropped
        exact valid.2.1 rfl
    | pagePatch t pid off after before => cases dropped
    | commit t => cases dropped
    | abort t => cases dropped
  simp only [dropFile, checkTxn, ends_bind, ends_get, ends_modify]
  have logs : (e.txn.elim e fun txn => logDrop fid txn e) = logDrop fid txn e := by
    rw [active, Option.elim_some]
  rw [active]
  simp only [if_neg no_zero, ends_pure]
  rw [logs]
  have backed₁ : (logDrop fid txn e).Backed top := holds.backed.congr rfl rfl rfl
  apply (dropTable_moved backed₁ logged unpinned).mono
  · rintro - e₂ ⟨moved, backed₂, -⟩
    have txn₂ : e₂.txn = some { txn with wrote := true } := moved.kept.txn
    have records₂ : e₂.wal.records = earlier ++ (current ++ [.dropFile txn.txnId fid]) := by
      rw [moved.kept.wal, ← List.append_assoc, ← holds.records]
      rfl
    have baseline₂ : e₂.baseline = e.baseline := funext moved.baseline
    have patches : (current ++ [LogRecord.dropFile txn.txnId fid]).filterMap LogRecord.patch? =
        current.filterMap LogRecord.patch? := by
      rw [List.filterMap_append]
      exact List.append_nil _
    rw [txn₂]
    refine ⟨top, earlier, _, ⟨backed₂.congr rfl rfl rfl, ?_, ?_, records₂, ?_, ?_, ?_,
      ⟨?_, ?_, ?_, ?_, ?_, ?_, ?_⟩, ?_, ?_⟩⟩
    · rintro ⟨other, why⟩
      have why : e₂.files.refused other = true ∨ e₂.files.kept other = true := why
      rw [moved.kept.refused, moved.kept.keeps] at why
      exact holds.free ⟨other, why⟩
    · exact (funext moved.content).trans holds.working
    · change ∀ r ∈ earlier, r.txn < e₂.wal.nextTxnId
      rw [moved.kept.wal]
      exact holds.numbers
    · intro txn' active'
      obtain rfl := Option.some.inj active'
      change _ < e₂.wal.nextTxnId ∧ _
      rw [moved.kept.wal]
      exact holds.number txn active
    · intro t pid off after before mem
      apply holds.below t pid off after before
      rw [← List.append_assoc] at mem
      rcases List.mem_append.mp mem with mem | mem
      · exact mem
      · cases List.mem_singleton.mp mem
    · rw [patches]
      exact recorded.chained
    · change e₂.baseline = _
      rw [baseline₂, overlay_append]
      exact recorded.baseline
    · rw [List.pairwise_append]
      refine ⟨recorded.ordered, List.pairwise_singleton .., ?_⟩
      rintro drop - patch patch_mem ⟨fid', t, pid, off, after, bytes, -, patch_eq, -⟩
      rw [List.mem_singleton.mp patch_mem] at patch_eq
      cases patch_eq
    · rw [TxnStore.drop, List.filterMap_append, ← recorded.dropped]
      rfl
    · intro r mem
      rcases List.mem_append.mp mem with mem | mem
      · exact recorded.valid r mem
      · obtain rfl := List.mem_singleton.mp mem
        exact ⟨⟨txn_lt, numbered⟩, trivial⟩
    · intro none
      cases none
    · intro txn' active'
      obtain rfl := Option.some.inj active'
      refine ⟨?_, ?_, ?_, ?_, txn_lt⟩
      · intro r mem
        rcases List.mem_append.mp mem with mem | mem
        · exact own r mem
        · obtain rfl := List.mem_singleton.mp mem
          rfl
      · rw [List.filterMap_append]
        exact undo.trans (List.append_nil _).symm
      · simp
      · exact congrArg (· ++ [fid]) pending
    · intro none
      cases none
    · intro mended
      obtain ⟨closed, unaborted, valid, base, made, untouched⟩ :=
        holds.mended_of_written moved.kept.written mended
      refine ⟨closed, unaborted, valid, base, made, ?_⟩
      rw [patches]
      exact untouched
  · exact fun _ _ never => never

/-! ## Commit -/

/-- Bytes that are zero, and that later changes leave or set to zero. -/
theorem redoAll_zero {cs : List (Change Loc UInt8)} {m : Loc → UInt8} {l : Loc} (zero : m l = 0)
    (each : ∀ c ∈ cs, c.covers l → c.after l = 0) : redoAll cs m l = 0 := by
  induction cs generalizing m with
  | nil => exact zero
  | cons c cs inductionHypothesis =>
      rw [redoAll_cons]
      apply inductionHypothesis _ fun c mem => each c (List.mem_cons_of_mem _ mem)
      by_cases covers : c.covers l
      · rw [Change.redo_of_covers covers]
        exact each c List.mem_cons_self covers
      · rw [Change.redo_of_uncovered covers]
        exact zero

/-- Where no record drops the file, the changes of a byte are its patches. -/
theorem redoAll_undropped {records : List LogRecord} {m m' : Loc → UInt8} {l : Loc}
    (undropped : l.1.fileId ∉ records.filterMap LogRecord.dropped?) (same : m l = m' l) :
    redoAll (records.filterMap LogRecord.change?) m l =
      redoAll (records.filterMap LogRecord.patch?) m' l := by
  induction records generalizing m m' with
  | nil => exact same
  | cons r records inductionHypothesis =>
      have rest : l.1.fileId ∉ records.filterMap LogRecord.dropped? := by
        intro mem
        apply undropped
        rw [List.filterMap_cons]
        split
        · exact mem
        · exact List.mem_cons_of_mem _ mem
      cases r with
      | pagePatch txn pid off after before =>
          obtain ⟨c, change⟩ :
              ∃ c, (LogRecord.pagePatch txn pid off after before).patch? = some c := ⟨_, rfl⟩
          have change' : (LogRecord.pagePatch txn pid off after before).change? = some c := change
          rw [List.filterMap_cons, change', List.filterMap_cons, change, redoAll_cons, redoAll_cons]
          apply inductionHypothesis rest
          by_cases covers : c.covers l
          · rw [Change.redo_of_covers covers, Change.redo_of_covers covers]
          · rw [Change.redo_of_uncovered covers, Change.redo_of_uncovered covers]
            exact same
      | dropFile txn fid =>
          obtain ⟨c, change⟩ : ∃ c, (LogRecord.dropFile txn fid).change? = some c := ⟨_, rfl⟩
          have uncovered : ¬ c.covers l := by
            cases change
            intro own
            exact undropped (List.mem_filterMap.mpr ⟨_, List.mem_cons_self, congrArg some own.symm⟩)
          rw [List.filterMap_cons, change, redoAll_cons]
          apply inductionHypothesis rest
          rw [Change.redo_of_uncovered uncovered]
          exact same
      | commit txn => exact inductionHypothesis rest same
      | abort txn => exact inductionHypothesis rest same

/-- A record that covers a byte of a dropped file leaves zero, if it is no patch of it. -/
theorem after_zero {r : LogRecord} {c : Change Loc UInt8} {l : Loc} (change : r.change? = some c)
    (covers : c.covers l)
    (unpatched : ∀ txn off after before, r ≠ .pagePatch txn l.1 off after before) :
    c.after l = 0 := by
  cases r with
  | pagePatch txn pid off after before =>
      cases change
      obtain ⟨own, -, -⟩ := covers
      exact absurd (own ▸ rfl) (unpatched txn off after before)
  | dropFile txn fid =>
      cases change
      rfl
  | commit txn => cases change
  | abort txn => cases change

/-- The changes of a transaction, with the drops where they were logged, are its patches
and then the drops. -/
theorem Recorded.redo {committed baseline : PageId → Page} {drops : List Nat}
    {txn? : Option TxnContext} (recorded : Recorded committed drops txn? baseline current) :
    redoAll (current.filterMap LogRecord.change?) (bytesOf committed) =
      bytesOf fun pid => if pid.fileId ∈ drops then Block.zero else baseline pid := by
  funext l
  by_cases dropped : l.1.fileId ∈ drops
  · have at_l : bytesOf (fun pid => if pid.fileId ∈ drops then Block.zero else baseline pid) l = 0 := by
      simp only [bytesOf, if_pos dropped]
      exact Block.get_zero _
    rw [at_l]
    rw [recorded.dropped] at dropped
    obtain ⟨r, mem, drops_file⟩ := List.mem_filterMap.mp dropped
    obtain ⟨before, after, split⟩ := List.append_of_mem mem
    have ordered := recorded.ordered
    rw [split, List.pairwise_append] at ordered
    have unpatched := (List.pairwise_cons.mp ordered.2.1).1
    rw [split, List.filterMap_append, redoAll_append]
    have first : ∃ c, r.change? = some c ∧ c.covers l ∧ c.after l = 0 := by
      cases r with
      | dropFile txn fid =>
          cases drops_file
          exact ⟨_, rfl, rfl, rfl⟩
      | pagePatch txn pid off after before => cases drops_file
      | commit txn => cases drops_file
      | abort txn => cases drops_file
    obtain ⟨c, change, covers, zero⟩ := first
    rw [List.filterMap_cons, change, redoAll_cons]
    apply redoAll_zero
    · rw [Change.redo_of_covers covers]
      exact zero
    · intro c' c'_mem covers'
      obtain ⟨r', r'_mem, change'⟩ := List.mem_filterMap.mp c'_mem
      apply after_zero change' covers'
      rintro txn off after' before' rfl
      exact unpatched _ r'_mem ⟨_, txn, l.1, off, after', before', drops_file, rfl, rfl⟩
  · have at_l : bytesOf (fun pid => if pid.fileId ∈ drops then Block.zero else baseline pid) l =
        bytesOf baseline l := by
      simp only [bytesOf, if_neg dropped]
    rw [at_l, recorded.baseline, ← redoAll_patches]
    apply redoAll_undropped _ rfl
    rwa [← recorded.dropped]

/-- The records with the `Commit` of the transaction, if it changed anything. -/
def commitRecords (txn : TxnContext) : List LogRecord :=
  if txn.wrote then [.commit txn.txnId] else []

/-- Once the `Commit` record is written, the log leads to the new contents, whichever of the
dropped files are unlinked. -/
theorem Accounted.committed (holds : Accounted e st top earlier current) {txn : TxnContext}
    (active : e.txn = some txn) (logged : AllLogged e) {pages : PageId → Page}
    (unlinked : ∀ pid : PageId, pid.fileId ∉ st.drops → pages pid = e.files.pages pid)
    (mended : st.mended = true) :
    Mended st.ended pages (earlier ++ current ++ commitRecords txn) [] := by
  obtain ⟨closed, unaborted, valid, base, made, untouched⟩ := holds.mended mended
  have recorded := holds.recorded
  rw [active] at recorded
  obtain ⟨own, -, wrote, pending, txn_lt⟩ := recorded.active txn rfl
  have no_change : (commitRecords txn).filterMap LogRecord.change? = [] := by
    unfold commitRecords
    split <;> rfl
  have changes : (earlier ++ current ++ commitRecords txn).filterMap LogRecord.change? =
      earlier.filterMap LogRecord.change? ++ current.filterMap LogRecord.change? := by
    rw [List.filterMap_append, no_change, List.append_nil, List.filterMap_append]
  refine ⟨?_, ?_, ?_, base, ?_, ?_⟩
  · intro r mem
    rcases List.mem_append.mp mem with mem | mem
    · rcases List.mem_append.mp mem with mem | mem
      · exact List.mem_append_left _ (List.mem_append_left _ (closed r mem))
      · apply List.mem_append_right
        have some_record : txn.wrote = true := by
          rw [wrote]
          cases current with
          | nil => cases mem
          | cons r rs => rfl
        rw [own r mem, commitRecords, if_pos some_record]
        exact List.mem_singleton_self _
    · apply List.mem_append_right
      unfold commitRecords at mem ⊢
      split at mem
      · rename_i some_record
        obtain rfl := List.mem_singleton.mp mem
        rw [if_pos some_record]
        exact List.mem_singleton_self _
      · cases mem
  · intro t mem
    rcases List.mem_append.mp mem with mem | mem
    · rcases List.mem_append.mp mem with mem | mem
      · exact unaborted t mem
      · exact (recorded.valid _ mem).2
    · unfold commitRecords at mem
      split at mem
      · cases List.mem_singleton.mp mem
      · cases mem
  · intro r mem
    rcases List.mem_append.mp mem with mem | mem
    · rcases List.mem_append.mp mem with mem | mem
      · exact valid r mem
      · exact (recorded.valid r mem).1
    · unfold commitRecords at mem
      split at mem
      · obtain rfl := List.mem_singleton.mp mem
        exact txn_lt
      · cases mem
  · rw [changes, redoAll_append, ← made, recorded.redo]
    unfold TxnStore.ended
    rw [← holds.working, ← show e.baseline = e.content from funext logged]
  · intro l uncovered
    rw [changes, List.filterMap_nil, List.append_nil, touched_append, not_or] at uncovered
    have kept : l.1.fileId ∉ st.drops := by
      intro dropped
      rw [recorded.dropped] at dropped
      obtain ⟨r, mem, drops_file⟩ := List.mem_filterMap.mp dropped
      apply uncovered.2
      cases r with
      | dropFile t fid =>
          cases drops_file
          exact ⟨_, List.mem_filterMap.mpr ⟨_, mem, rfl⟩, rfl⟩
      | pagePatch t pid off after before => cases drops_file
      | commit t => cases drops_file
      | abort t => cases drops_file
    have byte : bytesOf pages l = bytesOf e.files.pages l :=
      congrArg (fun p : Page => p.get l.2) (unlinked l.1 kept)
    rw [byte]
    apply untouched
    rw [touched_append, not_or]
    refine ⟨uncovered.1, ?_⟩
    rintro ⟨c, c_mem, covers⟩
    obtain ⟨r, mem, patch⟩ := List.mem_filterMap.mp c_mem
    apply uncovered.2
    refine ⟨c, List.mem_filterMap.mpr ⟨r, mem, ?_⟩, covers⟩
    cases r with
    | pagePatch t pid off after before => exact patch
    | dropFile t fid => cases patch
    | commit t => cases patch
    | abort t => cases patch

/-- Files unlinked one after another. -/
theorem unlinkAll_ends {drops : List Nat} (fine : e.files.Fine top) :
    Ends (drops.forM fun fid => onFiles (FileManager.removeTableFile fid)) e
      (fun _ e' => ∃ files : FileManager, e' = { e with files := files } ∧ files.Fine top ∧
        ∀ pid, files.pages pid = if pid.fileId ∈ drops then Block.zero else e.files.pages pid)
      fun _ _ => False := by
  induction drops generalizing e with
  | nil => exact ⟨e.files, rfl, fine, fun _ => rfl⟩
  | cons fid drops inductionHypothesis =>
      change Ends (onFiles (FileManager.removeTableFile fid) >>= fun _ => drops.forM _) e _ _
      simp only [ends_bind, onFiles, ends_onPart]
      apply (FileManager.removeTableFile_ends fine).mono
      · rintro - files₁ rfl
        have fine₁ : FileManager.Fine
            { e.files with fds := Function.update e.files.fds fid false } top :=
          fine.of_parts rfl rfl rfl rfl
        apply (inductionHypothesis (e := { e with files := _ }) fine₁.unlinked).mono
        · rintro - e₂ ⟨files₂, rfl, fine₂, pages₂⟩
          refine ⟨files₂, rfl, fine₂, fun pid => ?_⟩
          rw [pages₂]
          simp only [FileManager.cut, List.mem_cons]
          by_cases rest : pid.fileId ∈ drops
          · simp [rest]
          · simp [rest]
        · exact fun _ _ never => never
      · exact fun _ _ never => never

theorem logCommit_parts (txn : TxnContext) :
    ∃ wal, logCommit txn e = { e with wal := wal } ∧
      wal.records = e.wal.records ++ commitRecords txn ∧ wal.nextTxnId = e.wal.nextTxnId := by
  unfold logCommit commitRecords
  split
  · exact ⟨_, rfl, rfl, rfl⟩
  · exact ⟨_, rfl, (List.append_nil _).symm, rfl⟩

/-- A record that was written has an earlier number, and its page lies below the size. -/
theorem Accounted.record_fits (holds : Accounted e st top earlier current) {txn : TxnContext}
    (active : e.txn = some txn) :
    ∀ r ∈ e.wal.records, r.txn < e.wal.nextTxnId ∧
      ∀ txn pid off after before, r = .pagePatch txn pid off after before →
        pid.pageNo < top pid.fileId := by
  rw [holds.records]
  intro r mem
  refine ⟨?_, ?_⟩
  · rcases List.mem_append.mp mem with mem | mem
    · exact holds.numbers r mem
    · rw [(holds.recorded.active txn active).1 r mem]
      exact (holds.number txn active).1
  · rintro t pid off after before rfl
    exact holds.below t pid off after before mem

theorem Durable.commit (durable : Durable e st) (active : e.txn.isSome) (logged : AllLogged e)
    (gone : e.DropsGone) :
    Ends commitTxn e (fun _ e' => Durable e' st.commit) fun _ _ => False := by
  obtain ⟨top, earlier, current, holds⟩ := durable
  obtain ⟨txn, active⟩ := Option.isSome_iff_exists.mp active
  have recorded := holds.recorded
  rw [active] at recorded
  obtain ⟨own, -, -, pending, -⟩ := recorded.active txn rfl
  obtain ⟨wal, logs, records, next⟩ := logCommit_parts (e := e) txn
  simp only [commitTxn, ends_bind, ends_get, active, ends_modify]
  rw [logs]
  apply (unlinkAll_ends (e := { e with wal := wal }) holds.fine).mono
  · rintro - e₂ ⟨files, rfl, fine, pages⟩
    change Durable { e with wal := wal, files := files, txn := none } st.commit
    have away : ∀ i, (e.frame i).valid = true → (e.frame i).page.fileId ∉ txn.pendingDrops := by
      intro i valid dropped
      have found := (holds.backed.tidy.indexed.find_iff _ i).mpr ⟨range_of_valid valid, valid, rfl⟩
      rw [gone txn active _ dropped (e.frame i).page.pageNo] at found
      cases found
    have undropped : ∀ pid i, e.find pid = some i → pid.fileId ∉ txn.pendingDrops := by
      intro pid i found dropped
      rw [gone txn active _ dropped pid.pageNo] at found
      cases found
    have held : ∀ inFrame : PageFrame → Page,
        (fun pid => (e.find pid).elim (files.pages pid) fun i => inFrame (e.frame i)) =
          fun pid => if pid.fileId ∈ st.drops then Block.zero
            else (e.find pid).elim (e.files.pages pid) fun i => inFrame (e.frame i) := by
      intro inFrame
      funext pid
      rw [← pending]
      cases found : e.find pid with
      | some i => rw [if_neg (undropped pid i found), Option.elim_some, Option.elim_some]
      | none => exact pages pid
    have content : Engine.content { e with wal := wal, files := files, txn := none } = st.ended := by
      refine (held PageFrame.data).trans ?_
      unfold TxnStore.ended
      rw [← holds.working]
      rfl
    have baseline : Engine.baseline { e with wal := wal, files := files, txn := none } =
        st.ended := by
      refine (held PageFrame.before).trans ?_
      unfold TxnStore.ended
      rw [← holds.working, ← show e.baseline = e.content from funext logged]
      rfl
    have backed : Engine.Backed { e with wal := wal, files := files, txn := none } top := by
      refine ⟨?_, ?_, fine.opens, fine.sound, fine.sizes, holds.backed.cached⟩
      · exact holds.backed.tidy.of_core
          (holds.backed.tidy.indexed.congr rfl rfl (fun _ => rfl) fun _ => rfl) fun _ => rfl
      · intro i valid clean
        exact (pages _).trans ((if_neg (away i valid)).trans (holds.backed.clean i valid clean))
    apply durable_of_idle backed fine.free rfl content baseline
    · change ∀ r ∈ wal.records, r.txn < wal.nextTxnId ∧ _
      rw [records, next]
      intro r mem
      rcases List.mem_append.mp mem with mem | mem
      · exact holds.record_fits active r mem
      · unfold commitRecords at mem
        split at mem
        · obtain rfl := List.mem_singleton.mp mem
          refine ⟨(holds.number txn active).1, ?_⟩
          rintro - - - - - ⟨⟩
        · cases mem
    · intro mended
      change Mended st.ended files.pages wal.records []
      rw [records, holds.records]
      apply holds.committed active logged _ mended
      intro pid kept
      rw [pages, pending, if_neg kept]
  · exact fun _ _ never => never

/-! ## Rollback -/

/-- The undo entries of records restored, the last one first. -/
theorem restoreAll_restored {records : List LogRecord} (backed : e.Backed top)
    (below : ∀ txn pid off after before, LogRecord.pagePatch txn pid off after before ∈ records →
      pid.pageNo < top pid.fileId) :
    Ends (restoreAll (records.filterMap LogRecord.undoEntry?)) e
      (fun _ e' => e'.Backed top ∧ e'.content = underlay records e.content ∧
        e'.baseline = underlay records e.baseline ∧ e'.wal = e.wal ∧
        e'.files.refused = e.files.refused ∧ e'.files.kept = e.files.kept)
      fun _ _ => False := by
  induction records using List.reverseRecOn generalizing e with
  | nil => exact ⟨backed, rfl, rfl, rfl, rfl, rfl⟩
  | append_singleton records r inductionHypothesis =>
      have first_below := fun txn pid off after before mem =>
        below txn pid off after before (List.mem_append_left _ mem)
      have undone : ∀ pages, underlay (records ++ [r]) pages = underlay records (r.undo pages) :=
        fun pages => by rw [underlay, List.foldr_append]; rfl
      have unchanged : r.undoEntry? = none → (∀ pages, r.undo pages = pages) →
          Ends (restoreAll ((records ++ [r]).filterMap LogRecord.undoEntry?)) e
            (fun _ e' => e'.Backed top ∧ e'.content = underlay (records ++ [r]) e.content ∧
              e'.baseline = underlay (records ++ [r]) e.baseline ∧ e'.wal = e.wal ∧
              e'.files.refused = e.files.refused ∧ e'.files.kept = e.files.kept)
            fun _ _ => False := by
        intro none same
        rw [List.filterMap_append, List.filterMap_cons, none, List.filterMap_nil, List.append_nil,
          undone, undone, same, same]
        exact inductionHypothesis backed first_below
      cases r with
      | pagePatch txn pid off after before =>
          have steps : restoreAll ((records ++ [LogRecord.pagePatch txn pid off after before]).filterMap
              LogRecord.undoEntry?) = (do
                restoreRegion pid off before
                restoreAll (records.filterMap LogRecord.undoEntry?)) := by
            rw [List.filterMap_append, restoreAll, List.reverse_append]
            rfl
          rw [steps, ends_bind, undone, undone]
          apply (restoreRegion_restored backed (below txn pid off after before
            (List.mem_append_right _ (List.mem_singleton_self _))) off before).mono
          · rintro - e₁ restored
            apply (inductionHypothesis restored.backed first_below).mono
            · rintro - e₂ ⟨backed₂, content₂, baseline₂, wal₂, refused₂, kept₂⟩
              refine ⟨backed₂, ?_, ?_, wal₂.trans restored.wal, refused₂.trans restored.refused,
                kept₂.trans restored.keeps⟩
              · rw [content₂, restored.content]
                rfl
              · rw [baseline₂, restored.baseline]
                rfl
            · exact fun _ _ never => never
          · exact fun _ _ never => never
      | dropFile txn fid => exact unchanged rfl fun _ => rfl
      | commit txn => exact unchanged rfl fun _ => rfl
      | abort txn => exact unchanged rfl fun _ => rfl

theorem logAbort_parts (txn : TxnContext) (tails : Nat → Option Nat) :
    ∃ wal, logAbort txn { e with tailPages := tails } = { e with tailPages := tails, wal := wal } ∧
      wal.nextTxnId = e.wal.nextTxnId ∧
      wal.records = e.wal.records ++ if txn.wrote then [.abort txn.txnId] else [] := by
  unfold logAbort
  split
  · exact ⟨_, rfl, rfl, rfl⟩
  · exact ⟨_, rfl, rfl, (List.append_nil _).symm⟩

theorem Durable.rollback (durable : Durable e st) {txn : TxnContext} (active : e.txn = some txn)
    (logged : AllLogged e) :
    Ends rollbackTxn e (fun _ e' => Durable e' (st.rollback txn.wrote)) fun _ _ => False := by
  obtain ⟨top, earlier, current, holds⟩ := durable
  have fits := holds.record_fits active
  have recorded := holds.recorded
  rw [active] at recorded
  obtain ⟨-, undo, wrote, -, -⟩ := recorded.active txn rfl
  have undone : underlay current e.baseline = st.committed := by
    rw [recorded.baseline]
    exact underlay_overlay recorded.chained fun r mem => (recorded.valid r mem).1
  have content : e.content = e.baseline := (funext logged).symm
  simp only [rollbackTxn, ends_bind, ends_get, active, ends_modify]
  rw [undo]
  by_cases silent : current = []
  · -- nothing was logged, and the log stays mended
    rw [silent] at undone wrote ⊢
    obtain ⟨wal, aborts, next, records⟩ := logAbort_parts (e := e) txn (txn.tailUndo.reverse.foldl
      (fun tails u => Function.update tails u.fid u.old) e.tailPages)
    have nothing : txn.wrote = false := wrote
    rw [if_neg (by rw [nothing]; decide), List.append_nil] at records
    change Durable { logAbort txn _ with txn := none } _
    rw [aborts]
    refine durable_of_idle (holds.backed.congr rfl rfl rfl) holds.free rfl
      (content.trans undone) undone ?_ ?_
    · change ∀ r ∈ wal.records, r.txn < wal.nextTxnId ∧ _
      rw [records, next]
      exact fits
    · intro mended
      change Mended st.committed e.files.pages wal.records []
      have still := holds.mended (Bool.and_eq_true_iff.mp mended).1
      rw [records, holds.records, silent, List.append_nil]
      rw [silent] at still
      exact still
  · have something : txn.wrote = true := by
      rw [wrote]
      cases current with
      | nil => exact absurd rfl silent
      | cons r rs => rfl
    apply (restoreAll_restored holds.backed fun t pid off after before mem =>
      holds.below t pid off after before (List.mem_append_right _ mem)).mono
    · rintro - e₁ ⟨backed₁, content₁, baseline₁, wal₁, refused₁, kept₁⟩
      obtain ⟨wal, aborts, next, records⟩ := logAbort_parts (e := e₁) txn
        (txn.tailUndo.reverse.foldl (fun tails u => Function.update tails u.fid u.old)
          e₁.tailPages)
      rw [if_pos something] at records
      rw [aborts]
      have content₂ : e₁.content = st.committed := by
        rw [content₁, content]
        exact undone
      refine durable_of_idle (backed₁.congr rfl rfl rfl) ?_ rfl content₂ (baseline₁.trans undone)
        ?_ ?_
      · rintro ⟨fid, why⟩
        have why : e₁.files.refused fid = true ∨ e₁.files.kept fid = true := why
        rw [refused₁, kept₁] at why
        exact holds.free ⟨fid, why⟩
      · change ∀ r ∈ wal.records, r.txn < wal.nextTxnId ∧ _
        rw [records, next, wal₁]
        intro r mem
        rcases List.mem_append.mp mem with mem | mem
        · exact fits r mem
        · obtain rfl := List.mem_singleton.mp mem
          refine ⟨(holds.number txn active).1, ?_⟩
          rintro - - - - - ⟨⟩
      · intro mended
        rw [something, Bool.not_true, Bool.and_false] at mended
        cases mended
    · exact fun _ _ never => never

/-! ## Checkpoints -/

/-- With an empty log the data files are the committed contents. -/
theorem mended_of_empty {contents pages : PageId → Page} (same : pages = contents) :
    Mended contents pages [] [] := by
  refine ⟨?_, ?_, ?_, contents, rfl, fun l _ => by rw [same]⟩
  · rintro r ⟨⟩
  · rintro t ⟨⟩
  · rintro r ⟨⟩

theorem Durable.checkpoint (durable : Durable e st) (idle : e.txn = none) :
    Ends Engine.checkpoint e (fun _ e' => Durable e' st.checkpoint) fun _ _ => False := by
  obtain ⟨top, earlier, current, holds⟩ := durable
  have logged := holds.settled idle
  have recorded := holds.recorded
  obtain rfl := recorded.idle idle
  have baseline : e.baseline = st.committed := recorded.baseline
  have content : e.content = st.committed := (funext logged).symm.trans baseline
  have same : st.checkpoint = ⟨st.committed, st.committed, [], true⟩ := by
    rw [TxnStore.checkpoint, recorded.dropped, ← holds.working, content]
    rfl
  simp only [Engine.checkpoint, ends_bind, ends_get, idle, Option.isSome_none, Bool.false_eq_true,
    if_false, ends_modify]
  rw [same]
  apply (flushAll_moved holds.backed logged).mono
  · rintro - e₁ ⟨moved, backed₁, -, clean⟩
    have content₁ : e₁.content = st.committed := (funext moved.content).trans content
    have baseline₁ : e₁.baseline = st.committed := (funext moved.baseline).trans baseline
    have written : e₁.files.pages = st.committed := by
      rw [← baseline₁]
      funext pid
      cases found : e₁.find pid with
      | none => rw [baseline_of_absent found]
      | some i =>
          obtain ⟨-, valid, page⟩ := (backed₁.tidy.indexed.find_iff pid i).mp found
          rw [baseline_of_find found, ← page]
          exact backed₁.clean i valid (clean i valid)
    have backed₂ : Engine.Backed { e₁ with files := e₁.files.flushAll, wal := e₁.wal.sync.reset }
        top := by
      refine ⟨?_, backed₁.clean, backed₁.opens, backed₁.sound, backed₁.sizes, backed₁.cached⟩
      exact backed₁.tidy.of_core
        (backed₁.tidy.indexed.congr rfl rfl (fun _ => rfl) fun _ => rfl) fun _ => rfl
    refine durable_of_idle backed₂ ?_ (moved.kept.txn.trans idle) content₁ baseline₁ ?_ ?_
    · rintro ⟨fid, why⟩
      have why : e₁.files.refused fid = true ∨ e₁.files.kept fid = true := why
      rw [moved.kept.refused, moved.kept.keeps] at why
      exact holds.free ⟨fid, why⟩
    · rintro r ⟨⟩
    · exact fun _ => mended_of_empty written
  · exact fun _ _ never => never

/-! ## Kills -/

/-- A process that was started on fine files. -/
theorem durable_of_restart {files : FileManager} (fine : files.Fine top) (frames : Nat) :
    Durable { files, frames := List.replicate frames {} } (.restarted files.pages) := by
  have fresh : Engine.Fresh { files, frames := List.replicate frames {} } :=
    ⟨rfl, fun f mem => List.eq_of_mem_replicate mem⟩
  refine durable_of_idle (fresh.backed fine.opens fine.sound fine.sizes) fine.free rfl rfl rfl
    ?_ fun _ => mended_of_empty rfl
  rintro r ⟨⟩

namespace Accounted

theorem serial_of (holds : Accounted e st top earlier current) (mended : st.mended = true)
    {unfinished : List LogRecord}
    (each : ∀ r ∈ unfinished, r.Valid ∧ r.Changes ∧ ∀ txn, e.txn = some txn → r.txn = txn.txnId)
    (idle : e.txn = none → unfinished = []) : Serial earlier unfinished := by
  have still := holds.mended mended
  refine ⟨still.closed, fun r mem => ⟨(each r mem).2.1, ?_⟩, still.unaborted, ?_⟩
  · cases active : e.txn with
    | none =>
        rw [idle active] at mem
        cases mem
    | some txn =>
        rw [(each r mem).2.2 txn active]
        exact (holds.number txn active).2
  · intro r mem
    rcases List.mem_append.mp mem with mem | mem
    · exact still.valid r mem
    · exact (each r mem).1

/-- Between two calls. -/
theorem recoverable_between (holds : Accounted e st top earlier current) (mended : st.mended = true) :
    Recoverable e.files earlier current st.committed top where
  fine := holds.fine
  serial := by
    apply holds.serial_of mended _ holds.recorded.idle
    intro r mem
    obtain ⟨valid, changes⟩ := holds.recorded.valid r mem
    exact ⟨valid, changes, fun txn active => (holds.recorded.active txn active).1 r mem⟩
  below := holds.below
  chained := holds.recorded.chained
  restorable := (holds.mended mended).restorable

/-- In `mark_dirty`, with some of its records written. -/
theorem recoverable_logging (holds : Accounted e st top earlier current) (mended : st.mended = true)
    {txn : TxnContext} (active : e.txn = some txn) {pid : PageId} {idx : Nat}
    (found : e.find pid = some idx) (changeable : e.Changeable pid) (count : Nat) :
    Recoverable e.files earlier
      (current ++ (diffRecords txn.txnId pid (e.frame idx).before (e.frame idx).data).take count)
      st.committed top := by
  obtain ⟨-, valid, page⟩ := (holds.backed.tidy.indexed.find_iff pid idx).mp found
  have recorded := holds.recorded
  rw [active] at recorded
  obtain ⟨chained, -, each⟩ := recorded.extend (baseline_of_find found) changeable.1
    (changeable.2 txn active) (List.take_prefix count
      (diffRecords txn.txnId pid (e.frame idx).before (e.frame idx).data))
  obtain ⟨base, made, untouched⟩ := (holds.mended mended).restorable
  refine ⟨holds.fine, holds.serial_of mended ?_ ?_, ?_, chained, base, made, ?_⟩
  · intro r mem
    refine ⟨(each r mem).1, (each r mem).2.1, fun txn' active' => ?_⟩
    rw [active] at active'
    obtain rfl := Option.some.inj active'
    exact (each r mem).2.2
  · intro idle
    rw [active] at idle
    cases idle
  · intro t pid' off after before mem
    rw [← List.append_assoc] at mem
    rcases List.mem_append.mp mem with mem | mem
    · exact holds.below t pid' off after before mem
    · obtain ⟨region, -, patch_eq⟩ := List.mem_map.mp (List.mem_of_mem_take mem)
      cases patch_eq
      rw [← page]
      exact holds.backed.cached idx valid
  · intro l uncovered
    apply untouched
    intro touched
    apply uncovered
    rw [List.filterMap_append, ← List.append_assoc, touched_append]
    exact .inl touched

theorem fine_unlinked {files : FileManager} (fine : files.Fine top) (drops : List Nat) :
    (drops.foldl (fun files fid => FileManager.unlinked files fid) files).Fine top ∧
      ∀ pid : PageId, pid.fileId ∉ drops →
        (drops.foldl (fun files fid => FileManager.unlinked files fid) files).pages pid =
          files.pages pid := by
  induction drops generalizing files with
  | nil => exact ⟨fine, fun _ _ => rfl⟩
  | cons fid drops inductionHypothesis =>
      obtain ⟨fine', pages⟩ := inductionHypothesis (@FileManager.Fine.unlinked files top fid fine)
      refine ⟨fine', fun pid kept => ?_⟩
      rw [List.mem_cons, not_or] at kept
      rw [List.foldl_cons, pages pid kept.2]
      exact if_neg fun both => kept.1 both.1

/-- In `commit_txn`, with the `Commit` record written and some files unlinked. -/
theorem recoverable_committing (holds : Accounted e st top earlier current) (mended : st.mended = true)
    {txn : TxnContext} (active : e.txn = some txn) (logged : AllLogged e) (count : Nat) :
    Recoverable (e.filesAt (.committing count)) (earlier ++ current ++ commitRecords txn) []
      st.ended top := by
  obtain ⟨-, -, -, pending, -⟩ := holds.recorded.active txn active
  have drops : (e.txn.elim [] TxnContext.pendingDrops) = st.drops := by
    rw [active, Option.elim_some, pending]
  obtain ⟨fine, pages⟩ := fine_unlinked holds.fine (st.drops.take count)
  have made : Mended st.ended (e.filesAt (.committing count)).pages
      (earlier ++ current ++ commitRecords txn) [] := by
    apply holds.committed active logged _ mended
    intro pid kept
    rw [Engine.filesAt, drops]
    exact pages pid fun dropped => kept (List.mem_of_mem_take dropped)
  refine ⟨?_, ⟨made.closed, ?_, made.unaborted, ?_⟩, ?_, trivial, made.restorable⟩
  · rw [Engine.filesAt, drops]
    exact fine
  · rintro r ⟨⟩
  · rw [List.append_nil]
    exact made.valid
  · intro t pid off after before mem
    rw [List.append_nil] at mem
    rcases List.mem_append.mp mem with mem | mem
    · exact holds.below t pid off after before mem
    · unfold commitRecords at mem
      split at mem
      · cases List.mem_singleton.mp mem
      · cases mem

end Accounted

/-- Whatever a kill at a point leaves can be recovered to what is kept there. -/
theorem Durable.recoverable (durable : Durable e st) (mended : st.mended = true)
    {point : KillPoint} (known : e.KillAt point) :
    ∃ top earlier current, e.recordsAt point = earlier ++ current ∧
      Recoverable (e.filesAt point) earlier current (st.keptAt point) top := by
  obtain ⟨top, earlier, current, holds⟩ := durable
  have between := holds.recoverable_between mended
  cases point with
  | between => exact ⟨top, earlier, current, holds.records, between⟩
  | logging pid count =>
      cases found : e.find pid with
      | none =>
          refine ⟨top, earlier, current, ?_, between⟩
          rw [Engine.recordsAt, Engine.pending, found, List.take_nil, List.append_nil]
          exact holds.records
      | some idx =>
          cases active : e.txn with
          | none =>
              refine ⟨top, earlier, current, ?_, between⟩
              rw [Engine.recordsAt, Engine.pending, found, active, List.take_nil, List.append_nil]
              exact holds.records
          | some txn =>
              refine ⟨top, earlier, _, ?_,
                holds.recoverable_logging mended active found known count⟩
              rw [Engine.recordsAt, Engine.pending, found, active, holds.records,
                List.append_assoc]
  | committing count =>
      obtain ⟨active, logged⟩ := known
      obtain ⟨txn, active⟩ := Option.isSome_iff_exists.mp active
      refine ⟨top, _, [], ?_, holds.recoverable_committing mended active logged count⟩
      rw [Engine.recordsAt, active, Option.elim_some, holds.records, List.append_nil]
      rfl

/-- A process started on what a kill leaves opens, and goes on from what is kept. -/
theorem Durable.restart (durable : Durable e st) (mended : st.mended = true) {point : KillPoint}
    (known : e.KillAt point) {lsn : Nat} (lsn_lt : lsn < 2 ^ 64) {torn : Bytes}
    (unreadable : parseRecord torn = none) (chunks : Nat → Nat) (frames : Nat) :
    ∃ e', (leftBy (e.filesAt point) (e.recordsAt point) lsn torn).openEngine frames chunks =
        .ok e' ∧ Durable e' (.restarted (st.keptAt point)) ∧ e'.content = st.keptAt point := by
  obtain ⟨top, earlier, current, records, recoverable⟩ := durable.recoverable mended known
  have ends := recoverable.ends lsn_lt unreadable chunks
  rw [← records] at ends
  unfold Ends at ends
  unfold Directory.openEngine
  split at ends
  · rename_i stats dir' exited
    obtain ⟨pages, fine⟩ := ends
    rw [exited, ← pages]
    exact ⟨_, rfl, durable_of_restart fine frames, rfl⟩
  · exact ends.elim

/-! ## Runs -/

theorem Reached.durable (reached : Reached e st) : Durable e st := by
  induction reached with
  | start frames =>
      have fine : FileManager.Fine {} fun _ => 0 := by
        refine ⟨fun _ _ => rfl, ?_, fun _ => Nat.le_refl 0⟩
        rintro ⟨fid, why | why⟩
        · cases why
        · cases why
      exact durable_of_restart fine frames
  | begin _ idle few durable => exact (durable.begin idle few).state_of_returned
  | call _ orderly durable => exact (durable.call orderly).state
  | drop _ active logged numbered unpinned durable =>
      exact (durable.drop active logged numbered unpinned).state_of_returned
  | commit _ active logged gone durable => exact (durable.commit active logged gone).state_of_returned
  | rollback _ active logged durable => exact (durable.rollback active logged).state_of_returned
  | track _ trees tails tailUndo durable => exact durable.track trees tails tailUndo
  | look _ pid durable => exact (durable.look pid).state_of_returned
  | checkpoint _ idle durable => exact (durable.checkpoint idle).state_of_returned
  | kill _ mended known lsn_lt unreadable opened durable =>
      rename_i e₀ e' st₀ point lsn torn chunks frames
      obtain ⟨e'', opened', durable', -⟩ :=
        durable.restart mended known lsn_lt unreadable chunks frames
      rw [opened] at opened'
      obtain rfl := Except.ok.inj opened'
      exact durable'

/-- A new engine with a page allocated and changed in its first transaction. -/
def changing : Engine :=
  let calls : EngineM Unit := do
    beginTxn
    let _ ← Engine.call (.allocate ⟨1, 0⟩)
    let _ ← Engine.call (.poke ⟨1, 0⟩ (Block.zero.write 8 [1]))
  (calls.exit { frames := List.replicate 2 {} }).2

end MySimpleDb.Storage
