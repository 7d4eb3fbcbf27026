import MySimpleDb.Storage.PoolContent
import MySimpleDb.Storage.TxnLog

/-!
# Recovery restores the committed contents

The files that a process leaves, with the log of its transactions, are taken to the
contents that the committed transactions made.
-/

namespace MySimpleDb.Storage

open MySimpleDb.Lib UndoRedo Attempt

/-! ## The files after recovery -/

/-- Files that can all be opened and unlinked, none longer than `top` says. -/
structure FileManager.Fine (files : FileManager) (top : Nat → Nat) : Prop where
  sound : files.Sound
  free : ¬ files.Blocked
  sizes : ∀ fid, files.pageCount fid ≤ top fid

namespace FileManager

variable {files files' : FileManager} {top : Nat → Nat} {fid : Nat} {pid : PageId}

theorem Fine.opens (fine : files.Fine top) (fid : Nat) : files.Opens fid := by
  right
  by_contra refused
  exact fine.free ⟨fid, .inl (Bool.not_eq_false _ ▸ refused)⟩

theorem Fine.opened (fine : files.Fine top) : (files.opened fid).Fine top where
  sound := fine.sound.opened
  free := fine.free
  sizes other := (pageCount_opened other).trans_le (fine.sizes other)

theorem Fine.stored (fine : files.Fine top) {data : Page} {logged : Nat}
    (below : pid.pageNo < top pid.fileId) : (files.stored pid data logged).Fine top where
  sound := fine.sound.stored
  free := fine.free
  sizes other := by
    refine (pageCount_stored other).trans_le ?_
    split
    · rename_i own
      rw [own]
      exact Nat.max_le.mpr ⟨fine.sizes _, below⟩
    · exact fine.sizes other

theorem pageCount_unlinked_le (other : Nat) :
    (files.unlinked fid).pageCount other ≤ files.pageCount other := by
  by_cases same : other = fid
  · simp [pageCount, unlinked, same]
  · simp [pageCount, unlinked, same]

theorem Fine.unlinked (fine : files.Fine top) : (files.unlinked fid).Fine top where
  sound := fine.sound.unlinked
  free := fine.free
  sizes other := (pageCount_unlinked_le other).trans (fine.sizes other)

theorem Fine.of_parts (fine : files.Fine top) (sizes : files'.sizes = files.sizes)
    (pages : files'.pages = files.pages) (refused : files'.refused = files.refused)
    (kept : files'.kept = files.kept) : files'.Fine top where
  sound pid beyond := by
    rw [pages]
    exact fine.sound pid (by rwa [pageCount, ← sizes])
  free := by
    rintro ⟨fid, why⟩
    rw [refused, kept] at why
    exact fine.free ⟨fid, why⟩
  sizes fid := by
    rw [pageCount, sizes]
    exact fine.sizes fid

theorem removeTableFile_ends (fine : files.Fine top) :
    Ends (removeTableFile fid) files
      (fun _ files' => files' =
        FileManager.unlinked { files with fds := Function.update files.fds fid false } fid)
      fun _ _ => False := by
  simp only [removeTableFile, ends_bind, ends_modify, ends_get, ends_ite, ends_throw]
  by_cases kept : files.kept fid = true
  · exact absurd ⟨fid, .inr kept⟩ fine.free
  · rw [if_neg kept]
    rfl

end FileManager

namespace RecoveryStep

/-- The record of a step. -/
def record : RecoveryStep → WalRecord
  | .patch rec _ => rec
  | .drop rec => rec

variable {files : FileManager} {top : Nat → Nat}

theorem run_fine (fine : files.Fine top) (s : RecoveryStep) (stats : RecoveryStats)
    (below : s.record.op = opPagePatch → s.record.pageNo < top s.record.fileId)
    (kind : ∀ rec undo, s = .patch rec undo → rec.op = opPagePatch) :
    Ends (s.run stats) files (fun _ files' => files'.Fine top) fun _ _ => False := by
  cases s with
  | patch rec undo =>
      have inTop := below (kind rec undo rfl)
      simp only [run, applyPatch, ends_bind, ends_pure]
      apply (FileManager.readPage_loaded (fine.opens _)).mono
      · rintro data files₁ ⟨-, opened⟩
        have fine₁ : files₁.Fine top := by
          rcases opened with rfl | rfl
          · exact fine
          · exact fine.opened
        apply (FileManager.writePage_stored (fine₁.opens _)).mono
        · rintro - files₂ (rfl | rfl)
          · exact fine₁.stored inTop
          · exact fine₁.opened.stored inTop
        · exact fun _ _ never => never
      · exact fun _ _ never => never
  | drop rec =>
      simp only [run, ends_bind, ends_get, ends_ite, ends_pure]
      split
      · apply (FileManager.removeTableFile_ends fine).mono
        · rintro - files₁ rfl
          have closed : FileManager.Fine
              { files with fds := Function.update files.fds rec.fileId false } top :=
            fine.of_parts rfl rfl rfl rfl
          exact closed.unlinked
        · exact fun _ _ never => never
      · exact fine

end RecoveryStep

theorem runSteps_fine {files : FileManager} {top : Nat → Nat} {steps : List RecoveryStep}
    (fine : files.Fine top)
    (each : ∀ s ∈ steps, (s.record.op = opPagePatch → s.record.pageNo < top s.record.fileId) ∧
      ∀ rec undo, s = .patch rec undo → rec.op = opPagePatch)
    (stats : RecoveryStats) :
    Ends (runSteps steps stats) files (fun _ files' => files'.Fine top) fun _ _ => False := by
  induction steps generalizing files stats with
  | nil => exact fine
  | cons s steps inductionHypothesis =>
      obtain ⟨below, kind⟩ := each s List.mem_cons_self
      simp only [runSteps, List.foldlM_cons, ends_bind]
      apply (s.run_fine fine stats below kind).mono
      · intro stats₁ files₁ fine₁
        exact inductionHypothesis fine₁ (fun s mem => each s (List.mem_cons_of_mem _ mem)) stats₁
      · exact fun _ _ never => never

/-- Every step is one on a record that was read. -/
theorem Collected.steps_of (c : Collected) :
    ∀ s ∈ c.steps, s.record ∈ c.records ∧ ∀ rec undo, s = .patch rec undo → rec.op = opPagePatch := by
  intro s mem
  rcases List.mem_append.mp mem with mem | mem
  · obtain ⟨rec, rec_mem, rfl⟩ := List.mem_map.mp mem
    have among := List.mem_of_mem_filter rec_mem
    split
    · rename_i op
      refine ⟨among, fun rec' undo same => ?_⟩
      cases same
      exact op
    · refine ⟨among, fun rec' undo same => ?_⟩
      cases same
  · obtain ⟨rec, rec_mem, rfl⟩ := List.mem_map.mp mem
    obtain ⟨among, why⟩ := List.mem_filter.mp rec_mem
    refine ⟨List.mem_reverse.mp among, fun rec' undo same => ?_⟩
    cases same
    simp only [decide_eq_true_eq] at why
    exact why.2.2

/-- Recovery that finds no file in its way leaves fine files. -/
theorem recover_fine {dir : Directory} {c : Collected} {top : Nat → Nat}
    (collected : collect (recordsOf dir.wal.bytes) = .ok c) (fine : dir.files.Fine top)
    (below : ∀ rec ∈ c.records, rec.op = opPagePatch → rec.pageNo < top rec.fileId)
    (chunks : Nat → Nat) :
    Ends (recover chunks) dir (fun _ dir' => dir'.files.Fine top) fun _ _ => False := by
  have each : ∀ s ∈ c.steps,
      (s.record.op = opPagePatch → s.record.pageNo < top s.record.fileId) ∧
        ∀ rec undo, s = .patch rec undo → rec.op = opPagePatch := by
    intro s mem
    obtain ⟨among, kind⟩ := c.steps_of s mem
    exact ⟨below _ among, kind⟩
  simp only [recover, onDirectory, ends_bind, ends_get, ends_onPart, readAll_create, collected]
  apply ofExcept_ends
  apply (runSteps_fine fine (fun s mem => each s (List.mem_append_left _ mem)) _).mono
  · intro stats files₁ fine₁
    apply (runSteps_fine fine₁ (fun s mem => each s (List.mem_append_right _ mem)) stats).mono
    · intro stats' files₂ fine₂
      simp only [ends_ite, ends_bind, ends_modify, ends_pure]
      split
      · split
        · exact fine₂
        · exact fine₂
      · exact fine₂.of_parts rfl rfl rfl rfl
    · exact fun _ _ never => never
  · exact fun _ _ never => never

/-! ## The contents after recovery -/

/-- What a process leaves: the changes of the earlier transactions made the committed
contents of what there was before, the patches of the last one follow on these, and bytes
that nothing in the log touches are as they were. -/
structure Recoverable (files : FileManager) (earlier current : List LogRecord)
    (committed : PageId → Page) (top : Nat → Nat) : Prop where
  fine : files.Fine top
  serial : Serial earlier current
  below : ∀ txn pid off after before,
    LogRecord.pagePatch txn pid off after before ∈ earlier ++ current → pid.pageNo < top pid.fileId
  chained : Chained (current.filterMap LogRecord.patch?) (bytesOf committed)
  restorable : ∃ base : PageId → Page,
    bytesOf committed = redoAll (earlier.filterMap LogRecord.change?) (bytesOf base) ∧
    ∀ l, ¬ Touched (earlier.filterMap LogRecord.change? ++ current.filterMap LogRecord.patch?) l →
      bytesOf files.pages l = bytesOf base l

/-- Recovery of what a process leaves returns, and leaves the committed contents. -/
theorem Recoverable.ends {files : FileManager} {earlier current : List LogRecord}
    {committed : PageId → Page} {top : Nat → Nat}
    (recoverable : Recoverable files earlier current committed top) {lsn : Nat}
    (lsn_lt : lsn < 2 ^ 64) {torn : Bytes} (unreadable : parseRecord torn = none)
    (chunks : Nat → Nat) :
    Ends (recover chunks) (leftBy files (earlier ++ current) lsn torn)
      (fun _ dir' => dir'.files.pages = committed ∧ dir'.files.Fine top) fun _ _ => False := by
  obtain ⟨base, made, untouched⟩ := recoverable.restorable
  have written := writtenRecords_inFile (earlier ++ current) lsn_lt
  have inRange : ∀ w ∈ writtenRecords lsn ((earlier ++ current).map LogRecord.fields),
      w.InRange :=
    written.forall_of (fun r lsn lsn_lt valid => LogRecord.inFile_inRange valid lsn_lt)
      recoverable.serial.valid
  have read : recordsOf (leftBy files (earlier ++ current) lsn torn).wal.bytes =
      writtenRecords lsn ((earlier ++ current).map LogRecord.fields) := by
    rw [leftBy, appendAll_bytes, List.nil_append]
    exact recordsOf_written inRange unreadable
  obtain ⟨c, collected, steps⟩ := recoverable.serial.steps written
  have wellFormed : ∀ w ∈ writtenRecords lsn ((earlier ++ current).map LogRecord.fields),
      w.WellFormed :=
    written.forall_of (fun r lsn _ valid => LogRecord.inFile_wellFormed valid)
      recoverable.serial.valid
  obtain ⟨records, -, -⟩ := foldlM_add_spec wellFormed collected
  rw [List.nil_append] at records
  have below : ∀ rec ∈ c.records, rec.op = opPagePatch → rec.pageNo < top rec.fileId := by
    intro rec mem
    rw [records] at mem
    refine written.forall_of (P := fun r => r ∈ earlier ++ current)
      (Q := fun w => w.op = opPagePatch → w.pageNo < top w.fileId) ?_ (fun _ mem => mem) rec
      (List.mem_of_mem_filter mem)
    intro r lsn _ r_mem op
    cases r with
    | pagePatch txn pid off after before =>
        obtain ⟨-, ⟨-, file_lt, page_lt⟩, inside, same_length, -⟩ :=
          recoverable.serial.valid _ r_mem
        obtain ⟨pid_eq, -⟩ := @patch_fields pid off lsn txn after before file_lt page_lt inside
          same_length
        have page := congrArg PageId.pageNo pid_eq
        have file := congrArg PageId.fileId pid_eq
        change WalRecord.pageNo _ = _ at page
        change WalRecord.fileId _ = _ at file
        rw [page, file]
        exact recoverable.below _ _ _ _ _ r_mem
    | dropFile txn fid => exact absurd op (show opDropFile ≠ opPagePatch by decide)
    | commit txn => exact absurd op (show opCommit ≠ opPagePatch by decide)
    | abort txn => exact absurd op (show opAbort ≠ opPagePatch by decide)
  have absent : (leftBy files (earlier ++ current) lsn torn).files.AbsentEmpty := by
    intro pid missing
    exact recoverable.fine.sound.pages_of_absent missing pid.pageNo
  have free : ¬ (leftBy files (earlier ++ current) lsn torn).files.Blocked :=
    recoverable.fine.free
  have collected' : collect (recordsOf (leftBy files (earlier ++ current) lsn torn).wal.bytes) =
      .ok c := by
    rw [read]
    exact collected
  have fine : (leftBy files (earlier ++ current) lsn torn).files.Fine top :=
    recoverable.fine.of_parts rfl rfl rfl rfl
  apply ((recover_ends collected' absent chunks).and
    (recover_fine collected' fine below chunks)).mono
  · rintro - dir' ⟨⟨files', reached, -, pages⟩, fine'⟩
    refine ⟨?_, fine'⟩
    rw [pages]
    apply bytesOf_injective
    have chained := recoverable.chained
    rw [made] at chained ⊢
    funext l
    rw [← recovered chained untouched, ← steps]
    exact reached.bytes l.1 l.2 l.2.isLt
  · exact fun _ _ both => both.2

end MySimpleDb.Storage
