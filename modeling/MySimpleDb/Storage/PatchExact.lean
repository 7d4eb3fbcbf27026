import MySimpleDb.Storage.PageDiff
import MySimpleDb.Storage.RecoveryRepeat

/-!
# Patches in both directions

The records and undo entries of `mark_dirty`: what recovery accepts of them, and
what their halves make of a page.
-/

namespace MySimpleDb.Storage

open MySimpleDb.Lib

/-! ## Patches as they are logged -/

/-- The payload of a patch record. -/
def patchPayload (pid : PageId) (off : Nat) (after before : Bytes) : Bytes :=
  toBytes 8 pid.fileId ++ toBytes 4 pid.pageNo ++ toBytes 4 off ++ toBytes 4 after.length ++
    after ++ before

/-- A record in the log file. -/
def LogRecord.inFile (lsn : Nat) : LogRecord → WalRecord
  | .pagePatch txn pid off after before => ⟨lsn, txn, opPagePatch, patchPayload pid off after before⟩
  | .dropFile txn fid => ⟨lsn, txn, opDropFile, toBytes 8 fid⟩
  | .commit txn => ⟨lsn, txn, opCommit, []⟩
  | .abort txn => ⟨lsn, txn, opAbort, []⟩

/-- Records in the log file one after another. -/
def inLog (first : Nat) (records : List LogRecord) : List WalRecord :=
  (records.zipIdx first).map fun (r, lsn) => r.inFile lsn

/-- The record of a region. -/
def diffRecord (txn : Nat) (pid : PageId) (before data : Page) (region : Nat × Nat) : LogRecord :=
  .pagePatch txn pid region.1 (data.read region.1 region.2) (before.read region.1 region.2)

/-- The records and the undo entries of a difference, as `log_page_diff` makes them. -/
def diffRecords (txn : Nat) (pid : PageId) (before data : Page) : List LogRecord :=
  (pageDiff before data).map (diffRecord txn pid before data)

def diffUndo (pid : PageId) (before data : Page) : List UndoEntry :=
  (pageDiff before data).map fun (off, len) => ⟨pid, off, before.read off len⟩

/-- Halves of patches over a page, as recovery writes them. -/
def overlayHalves (undo : Bool) (records : List WalRecord) (p : Page) : Page :=
  records.foldl (fun p rec => p.write rec.offset (rec.half undo)) p

section Fields

variable {pid : PageId} {off lsn txn : Nat} {after before : Bytes}

/-- The fields of a patch are read back as they were put. -/
theorem patch_fields (file_lt : pid.fileId < 2 ^ 64) (page_lt : pid.pageNo < 2 ^ 32)
    (inside : off + after.length ≤ pageSize) (same_length : before.length = after.length) :
    let patch := (LogRecord.pagePatch txn pid off after before).inFile lsn
    patch.pid = pid ∧ patch.offset = off ∧ patch.len = after.length ∧ patch.half false = after ∧
      patch.half true = before := by
  intro patch
  have parts : patch.payload = toBytes 8 pid.fileId ++ (toBytes 4 pid.pageNo ++ (toBytes 4 off ++
      (toBytes 4 after.length ++ (after ++ before)))) := by
    simp only [patch, LogRecord.inFile, patchPayload, List.append_assoc]
  have file : patch.payload.take 8 = toBytes 8 pid.fileId := by
    rw [parts]
    exact @slice_middle [] _ _ 0 8 rfl (length_toBytes _ _)
  have page : (patch.payload.drop 8).take 4 = toBytes 4 pid.pageNo := by
    rw [parts]
    apply slice_middle <;> simp
  have offset : (patch.payload.drop 12).take 4 = toBytes 4 off := by
    rw [parts, ← List.append_assoc]
    apply slice_middle <;> simp
  have len : (patch.payload.drop 16).take 4 = toBytes 4 after.length := by
    rw [parts, ← List.append_assoc, ← List.append_assoc]
    apply slice_middle <;> simp
  have halves : patch.payload.drop 20 = after ++ before := by
    rw [parts, ← List.append_assoc, ← List.append_assoc, ← List.append_assoc]
    exact List.drop_left' (by simp)
  have len_eq : patch.len = after.length := by
    rw [WalRecord.len, len, ofBytes_toBytes_of_lt (by unfold pageSize at inside; omega)]
  refine ⟨?_, ?_, len_eq, ?_, ?_⟩
  · rw [WalRecord.pid, WalRecord.fileId, WalRecord.pageNo, file, page,
      ofBytes_toBytes_of_lt file_lt, ofBytes_toBytes_of_lt page_lt]
  · rw [WalRecord.offset, offset, ofBytes_toBytes_of_lt (by unfold pageSize at inside; omega)]
  · rw [WalRecord.half, len_eq]
    change (patch.payload.drop 20).take after.length = after
    rw [halves]
    exact List.take_left
  · rw [WalRecord.half, len_eq, walPatchHeaderSize, if_pos rfl, ← List.drop_drop, halves,
      List.drop_left, ← same_length, List.take_length]

theorem patch_length (same_length : before.length = after.length) :
    ((LogRecord.pagePatch txn pid off after before).inFile lsn).payload.length =
      walPatchHeaderSize + 2 * after.length := by
  simp only [LogRecord.inFile, patchPayload, List.length_append, length_toBytes, same_length,
    walPatchHeaderSize]
  omega

end Fields

/-! ## The patches of one change -/

section Change

variable {pid : PageId} {txn lsn : Nat} {before data : Page} {region : Nat × Nat}

/-- What recovery reads of the record of a region. -/
theorem diffRecord_fields (file_lt : pid.fileId < 2 ^ 64) (page_lt : pid.pageNo < 2 ^ 32)
    (mem : region ∈ pageDiff before data) {patch : WalRecord}
    (logged : patch = (diffRecord txn pid before data region).inFile lsn) :
    patch.pid = pid ∧ patch.offset = region.1 ∧ patch.len = region.2 ∧
      patch.half false = data.read region.1 region.2 ∧
      patch.half true = before.read region.1 region.2 := by
  subst logged
  have inside := pageDiff_inside mem
  have fields := @patch_fields pid region.1 lsn txn (data.read region.1 region.2)
    (before.read region.1 region.2) file_lt page_lt
    (by rw [Block.length_read]; exact inside.2) (by simp)
  rwa [Block.length_read] at fields

theorem validatePatch_ok {patch : WalRecord} (file : patch.fileId ≠ 0) (len : patch.len ≠ 0)
    (inside : patch.offset + patch.len ≤ pageSize)
    (length : patch.payload.length = walPatchHeaderSize + 2 * patch.len) :
    validatePatch patch = .ok () := by
  have within : ¬ (pageSize < patch.offset ∨ patch.len = 0 ∨
      pageSize - patch.offset < patch.len) := by
    omega
  simp [validatePatch, file, within, length]
  rfl

/-- Recovery accepts the record of a region. -/
theorem diffRecord_valid (file_pos : pid.fileId ≠ 0) (file_lt : pid.fileId < 2 ^ 64)
    (page_lt : pid.pageNo < 2 ^ 32) (mem : region ∈ pageDiff before data) {patch : WalRecord}
    (logged : patch = (diffRecord txn pid before data region).inFile lsn) :
    patch.payload.length ≤ walPayloadMax ∧ validatePatch patch = .ok () := by
  obtain ⟨pos, inside⟩ := pageDiff_inside mem
  obtain ⟨pid_eq, off_eq, len_eq, -, -⟩ := diffRecord_fields file_lt page_lt mem logged
  have length : patch.payload.length = walPatchHeaderSize + 2 * region.2 := by
    rw [logged, diffRecord, patch_length (by simp), Block.length_read]
  have file : patch.fileId = pid.fileId := congrArg PageId.fileId pid_eq
  constructor
  · rw [length]
    unfold walPayloadMax
    omega
  · apply validatePatch_ok
    · rwa [file]
    · rw [len_eq]
      omega
    · rwa [off_eq, len_eq]
    · rw [length, len_eq]

theorem inLog_diffRecords (first : Nat) :
    inLog first (diffRecords txn pid before data) =
      ((pageDiff before data).zipIdx first).map fun r =>
        (diffRecord txn pid before data r.1).inFile r.2 := by
  rw [inLog, diffRecords, List.zipIdx_map, List.map_map]
  rfl

/-- Every record in the log is that of a region. -/
theorem mem_inLog {first : Nat} {patch : WalRecord}
    (mem : patch ∈ inLog first (diffRecords txn pid before data)) :
    ∃ region ∈ pageDiff before data, ∃ lsn,
      patch = (diffRecord txn pid before data region).inFile lsn := by
  rw [inLog_diffRecords] at mem
  obtain ⟨⟨region, lsn⟩, numbered, rfl⟩ := List.mem_map.mp mem
  exact ⟨region, List.fst_mem_of_mem_zipIdx numbered, lsn, rfl⟩

/-- The records follow one another as their regions do. -/
theorem inLog_apart (file_lt : pid.fileId < 2 ^ 64) (page_lt : pid.pageNo < 2 ^ 32)
    (first : Nat) :
    (inLog first (diffRecords txn pid before data)).Pairwise fun r r' =>
      r.offset + r.len ≤ r'.offset := by
  have apart := pageDiff_apart before data
  rw [← List.zipIdx_map_fst first (pageDiff before data), List.pairwise_map] at apart
  rw [inLog_diffRecords, List.pairwise_map]
  apply apart.imp_of_mem
  intro r r' mem mem' before_next
  have fields := @diffRecord_fields pid txn r.2 before data r.1 file_lt page_lt
    (List.fst_mem_of_mem_zipIdx mem) _ rfl
  have fields' := @diffRecord_fields pid txn r'.2 before data r'.1 file_lt page_lt
    (List.fst_mem_of_mem_zipIdx mem') _ rfl
  rw [fields.2.1, fields.2.2.1, fields'.2.1]
  exact before_next

/-- The halves of the patches are those of the regions. -/
theorem overlayHalves_inLog (file_lt : pid.fileId < 2 ^ 64) (page_lt : pid.pageNo < 2 ^ 32)
    (first : Nat) (undo : Bool) (p : Page) :
    overlayHalves undo (inLog first (diffRecords txn pid before data)) p =
      patched (if undo then before else data) (pageDiff before data) p := by
  have overRegions : ∀ regions : List (Nat × Nat), (∀ r ∈ regions, r ∈ pageDiff before data) →
      ∀ (first : Nat) (p : Page),
        overlayHalves undo (inLog first (regions.map (diffRecord txn pid before data))) p =
          patched (if undo then before else data) regions p := by
    intro regions among
    induction regions with
    | nil => exact fun _ _ => rfl
    | cons region regions inductionHypothesis =>
        intro first p
        obtain ⟨-, off_eq, -, after_eq, before_eq⟩ :=
          @diffRecord_fields pid txn first before data region file_lt page_lt
            (among region List.mem_cons_self) _ rfl
        have half_eq : ((diffRecord txn pid before data region).inFile first).half undo =
            (if undo then before else data).read region.1 region.2 := by
          cases undo
          · exact after_eq
          · exact before_eq
        rw [overlayHalves, inLog, List.map_cons, List.zipIdx_cons, List.map_cons, List.foldl_cons]
        dsimp only
        rw [off_eq, half_eq]
        exact inductionHypothesis (fun r mem => among r (List.mem_cons_of_mem _ mem)) _ _
  exact overRegions _ (fun _ mem => mem) first p

end Change

/-! ## Modifications of a page and their undo -/

/-- Undo entries over a page, the latest first. -/
def undone (undo : List UndoEntry) (p : Page) : Page :=
  undo.reverse.foldl (fun p u => p.write u.off u.before) p

theorem undone_append (undo more : List UndoEntry) (p : Page) :
    undone (undo ++ more) p = undone undo (undone more p) := by
  rw [undone, List.reverse_append, List.foldl_append]
  rfl

theorem undone_diffUndo (pid : PageId) (before data : Page) :
    undone (diffUndo pid before data) data = before := by
  have regions : undone (diffUndo pid before data) data =
      patched before (pageDiff before data).reverse data := by
    rw [undone, diffUndo, ← List.map_reverse, List.foldl_map]
    rfl
  rw [regions]
  exact patched_before fun _ => List.mem_reverse

namespace BufferPool

open Attempt

/-- Images that a caller gives a page one after another, each followed by `mark_dirty`. -/
def modifications (idx : Nat) (images : List Page) : EngineM Unit :=
  images.forM fun image => do
    poke idx image
    markDirty idx

variable {e : Engine} {idx : Nat} {txn : TxnContext}

/-- A modification is logged against the frame's baseline, which moves up to it. -/
theorem modification_ends (active : e.txn = some txn) (inPool : idx < e.frames.length)
    (valid : (e.frame idx).valid = true) (image : Page) :
    Ends (do poke idx image; markDirty idx) e
      (fun _ e' => ∃ txn', e'.txn = some txn' ∧
        txn'.undo = txn.undo ++ diffUndo (e.frame idx).page (e.frame idx).before image ∧
        e'.wal.records = e.wal.records ++
          diffRecords txn.txnId (e.frame idx).page (e.frame idx).before image ∧
        e'.frames.length = e.frames.length ∧ (e'.frame idx).valid = true ∧
        (e'.frame idx).page = (e.frame idx).page ∧
        (e'.frame idx).before = image ∧ (e'.frame idx).data = image)
      fun _ _ => False := by
  simp only [poke, markDirty, ends_bind, ends_modify, ends_get]
  generalize given : e.setFrame idx { e.frame idx with data := image } = e₁
  have frame : e₁.frame idx = { e.frame idx with data := image } := by
    rw [← given, Engine.frame_setFrame inPool]
  have length : e₁.frames.length = e.frames.length := by
    rw [← given, Engine.length_setFrame]
  have records : e₁.wal.records = e.wal.records := by
    rw [← given]
    rfl
  have active₁ : e₁.txn = some txn := by
    rw [← given]
    exact active
  have found : frameIndex e₁ idx = some idx := by
    rw [frameIndex, frame, length]
    exact if_pos ⟨inPool, valid⟩
  rw [found, active₁]
  have inPool₁ : idx < e₁.frames.length := length ▸ inPool
  refine ⟨_, rfl, ?_, ?_, ?_, ?_⟩
  · simp only [frame]
    rfl
  · simp only [logPageDiff, frame, records]
    rfl
  · exact (Engine.length_setFrame ..).trans length
  · change ((e₁.setFrame idx _).frame idx).valid = true ∧ ((e₁.setFrame idx _).frame idx).page = _ ∧
      ((e₁.setFrame idx _).frame idx).before = _ ∧ ((e₁.setFrame idx _).frame idx).data = _
    rw [Engine.frame_setFrame inPool₁, frame]
    exact ⟨valid, rfl, rfl, rfl⟩

/-- The undo entries of modifications take the last image back to the first. -/
theorem modifications_ends (active : e.txn = some txn) (inPool : idx < e.frames.length)
    (valid : (e.frame idx).valid = true) (clean : (e.frame idx).before = (e.frame idx).data)
    (images : List Page) :
    Ends (modifications idx images) e
      (fun _ e' => ∃ txn' collected, e'.txn = some txn' ∧ txn'.undo = txn.undo ++ collected ∧
        (∀ u ∈ collected, u.pid = (e.frame idx).page) ∧
        undone collected (e'.frame idx).data = (e.frame idx).data)
      fun _ _ => False := by
  induction images generalizing e txn with
  | nil =>
      refine ⟨txn, [], active, (List.append_nil _).symm, ?_, rfl⟩
      rintro u ⟨⟩
  | cons image images inductionHypothesis =>
      change Ends ((do poke idx image; markDirty idx) >>= fun _ => modifications idx images) e _ _
      rw [ends_bind]
      apply (modification_ends active inPool valid image).mono
      · rintro - e₁ ⟨txn₁, active₁, undo₁, -, length₁, valid₁, page₁, before₁, data₁⟩
        apply (inductionHypothesis active₁ (length₁ ▸ inPool) valid₁
          (before₁.trans data₁.symm)).mono
        · rintro - e₂ ⟨txn₂, collected, active₂, undo₂, own, restored⟩
          refine ⟨txn₂, diffUndo (e.frame idx).page (e.frame idx).before image ++ collected,
            active₂, ?_, ?_, ?_⟩
          · rw [undo₂, undo₁, List.append_assoc]
          · intro u mem
            rcases List.mem_append.mp mem with mem | mem
            · obtain ⟨region, -, rfl⟩ := List.mem_map.mp mem
              rfl
            · exact (own u mem).trans page₁
          · rw [undone_append, restored, data₁, undone_diffUndo, clean]
        · exact fun _ _ impossible => impossible
      · exact fun _ _ impossible => impossible

end BufferPool

/-! ## Rollback -/

namespace Engine

open Attempt

/-- The bytes of a page: those of its frame, or else those on disk. -/
def image (e : Engine) (pid : PageId) : Page :=
  match e.find pid with
  | some idx => (e.frame idx).data
  | none => e.files.pages pid

/-- What `rollback_txn` does with the undo entries. -/
def restoreAll (undo : List UndoEntry) : EngineM Unit :=
  undo.reverse.forM fun u => BufferPool.restoreRegion u.pid u.off u.before

variable {e : Engine} {pid : PageId}

/-- A region is restored in the frame or on disk; only a file that cannot be opened is in
the way. -/
theorem restoreRegion_ends (inRange : ∀ idx, e.find pid = some idx → idx < e.frames.length)
    (off : Nat) (before : Bytes) :
    Ends (BufferPool.restoreRegion pid off before) e
      (fun _ e' => e'.image pid = (e.image pid).write off before ∧
        e'.pageTable = e.pageTable ∧ e'.frames.length = e.frames.length)
      fun _ _ => e.find pid = none := by
  simp only [BufferPool.restoreRegion, ends_bind, ends_get]
  rcases found : e.find pid with _ | idx
  · simp only [onFiles, ends_bind, ends_onPart]
    apply FileManager.readPage_ends.mono
    · rintro data files ⟨rfl, pages⟩
      apply FileManager.writePage_ends.mono
      · intro _ files' pages'
        refine ⟨?_, trivial, trivial⟩
        have found' : { { e with files } with files := files' }.find pid = none := found
        simp only [image, found, found', pages', Function.update_self]
      · exact fun _ _ _ => trivial
    · exact fun _ _ _ => trivial
  · have inPool := inRange idx found
    refine ⟨?_, rfl, length_setFrame ..⟩
    have found' : (e.setFrame idx { e.frame idx with
        data := (e.frame idx).data.write off before
        before := (e.frame idx).before.write off before
        dirty := true }).find pid = some idx := found
    simp only [image, found, found', frame_setFrame inPool]

theorem restoreAll_ends (inRange : ∀ idx, e.find pid = some idx → idx < e.frames.length)
    {undo : List UndoEntry} (own : ∀ u ∈ undo, u.pid = pid) :
    Ends (restoreAll undo) e
      (fun _ e' => e'.image pid = undone undo (e.image pid))
      fun _ _ => e.find pid = none := by
  have reversed : ∀ entries : List UndoEntry, (∀ u ∈ entries, u.pid = pid) → ∀ e : Engine,
      (∀ idx, e.find pid = some idx → idx < e.frames.length) →
      Ends (entries.forM fun u => BufferPool.restoreRegion u.pid u.off u.before) e
        (fun _ e' => e'.image pid = entries.foldl (fun p u => p.write u.off u.before) (e.image pid))
        fun _ _ => e.find pid = none := by
    intro entries own
    induction entries with
    | nil => exact fun _ _ => rfl
    | cons u entries inductionHypothesis =>
        intro e inRange
        have same : u.pid = pid := own u List.mem_cons_self
        change Ends (BufferPool.restoreRegion u.pid u.off u.before >>= fun _ =>
          entries.forM fun u => BufferPool.restoreRegion u.pid u.off u.before) e _ _
        rw [ends_bind, same]
        apply (restoreRegion_ends inRange u.off u.before).mono
        · rintro - e₁ ⟨image₁, table₁, length₁⟩
          have find₁ : e₁.find pid = e.find pid := congrArg (List.lookup pid) table₁
          apply (inductionHypothesis (fun u mem => own u (List.mem_cons_of_mem _ mem)) e₁
            (fun idx found => length₁ ▸ inRange idx (find₁ ▸ found))).mono
          · intro _ e₂ image₂
            rw [image₂, image₁]
            rfl
          · intro _ _ absent
            exact find₁ ▸ absent
        · exact fun _ _ absent => absent
  exact reversed undo.reverse (fun u mem => own u (List.mem_reverse.mp mem)) e inRange

end Engine

/-! ## Both directions -/

open BufferPool Attempt in
/-- The patches that `mark_dirty` logs follow one another in aligned words inside the page,
recovery accepts each, and they turn the baseline into the page and back; the undo entries
of any modifications turn the last image of a page into the first. -/
theorem patches_exact :
    (∀ (e : Engine) (idx : Nat) (txn : TxnContext) (before data : Page) (pid : PageId),
      (e.frame idx).before = before → (e.frame idx).data = data → (e.frame idx).page = pid →
      pid.fileId ≠ 0 → pid.fileId < 2 ^ 64 → pid.pageNo < 2 ^ 32 → ∀ first : Nat,
      ∃ records, (logPageDiff txn idx e).wal.records = e.wal.records ++ records ∧
        (inLog first records).Pairwise (fun r r' => r.offset + r.len ≤ r'.offset) ∧
        (∀ r ∈ inLog first records, r.pid = pid ∧ 8 ∣ r.offset ∧ 8 ∣ r.len ∧
          r.offset + r.len ≤ pageSize ∧ r.payload.length ≤ walPayloadMax ∧
          validatePatch r = .ok ()) ∧
        overlayHalves false (inLog first records) before = data ∧
        overlayHalves true (inLog first records) data = before) ∧
    (∀ (e : Engine) (idx : Nat) (txn : TxnContext), e.txn = some txn →
      idx < e.frames.length → (e.frame idx).valid = true →
      (e.frame idx).before = (e.frame idx).data → ∀ images : List Page,
      Ends (modifications idx images) e
        (fun _ e' => ∃ txn' collected, e'.txn = some txn' ∧ txn'.undo = txn.undo ++ collected ∧
          (∀ u ∈ collected, u.pid = (e.frame idx).page) ∧
          undone collected (e'.frame idx).data = (e.frame idx).data)
        fun _ _ => False) ∧
    ∀ (e : Engine) (pid : PageId) (undo : List UndoEntry),
      (∀ idx, e.find pid = some idx → idx < e.frames.length) → (∀ u ∈ undo, u.pid = pid) →
      Ends (Engine.restoreAll undo) e
        (fun _ e' => e'.image pid = undone undo (e.image pid))
        fun _ _ => e.find pid = none := by
  refine ⟨?_, ?_, ?_⟩
  · rintro e idx txn before data pid rfl rfl rfl file_pos file_lt page_lt first
    refine ⟨diffRecords txn.txnId _ _ _, rfl, ?_, ?_, ?_, ?_⟩
    · exact inLog_apart file_lt page_lt first
    · intro patch mem
      obtain ⟨region, inDiff, lsn, logged⟩ := mem_inLog mem
      obtain ⟨pid_eq, off_eq, len_eq, -, -⟩ := diffRecord_fields file_lt page_lt inDiff logged
      obtain ⟨small, accepted⟩ := diffRecord_valid file_pos file_lt page_lt inDiff logged
      have aligned := pageDiff_aligned inDiff
      have inside := pageDiff_inside inDiff
      rw [off_eq, len_eq]
      exact ⟨pid_eq, aligned.1, aligned.2, inside.2, small, accepted⟩
    · rw [overlayHalves_inLog file_lt page_lt]
      exact patched_pageDiff
    · rw [overlayHalves_inLog file_lt page_lt]
      exact patched_before fun _ => Iff.rfl
  · intro e idx txn active inPool valid clean images
    exact modifications_ends active inPool valid clean images
  · intro e pid undo inRange own
    exact Engine.restoreAll_ends inRange own

open BufferPool Attempt in
/-- A page of zeros, changed at two overlapping places. -/
theorem patches_exact_overlapping :
    let page : PageFrame := { page := ⟨1, 0⟩, valid := true, data := Block.zero.write 8 [1] }
    let clean : PageFrame := { page := ⟨1, 0⟩, valid := true }
    (∃ records, (logPageDiff ⟨1, false, [], [], []⟩ 0 { frames := [page] }).wal.records =
          [] ++ records ∧
        overlayHalves false (inLog 1 records) Block.zero = Block.zero.write 8 [1] ∧
        overlayHalves true (inLog 1 records) (Block.zero.write 8 [1]) = Block.zero) ∧
      Ends (modifications 0 [Block.zero.write 8 [1], Block.zero.write 12 [2, 3, 4, 5, 6]])
        { frames := [clean], txn := some ⟨1, false, [], [], []⟩ }
        (fun _ e' => ∃ txn' collected, e'.txn = some txn' ∧ txn'.undo = [] ++ collected ∧
          (∀ u ∈ collected, u.pid = ⟨1, 0⟩) ∧ undone collected (e'.frame 0).data = Block.zero)
        fun _ _ => False := by
  intro page clean
  constructor
  · obtain ⟨records, logged, -, -, redone, undone⟩ := patches_exact.1 { frames := [page] } 0
      ⟨1, false, [], [], []⟩ Block.zero (Block.zero.write 8 [1]) ⟨1, 0⟩ rfl rfl rfl (by decide)
      (by decide) (by decide) 1
    exact ⟨records, logged, redone, undone⟩
  · exact patches_exact.2.1 { frames := [clean], txn := some ⟨1, false, [], [], []⟩ } 0 _ rfl
      (by decide) rfl rfl _

end MySimpleDb.Storage
