import MySimpleDb.Lib.UndoRedo
import MySimpleDb.Storage.EngineTxn

/-!
# The log as changes of bytes

Patches and drops as changes of single bytes of the data files.  Recovery redoes
those of the committed transactions and undoes those of the last one, and so leaves
the committed contents whichever pages were written before the process ended.
-/

namespace MySimpleDb.Storage

open MySimpleDb.Lib UndoRedo

/-! ## Bytes of pages -/

/-- A byte of a data file. -/
abbrev Loc : Type := PageId × Fin pageSize

def bytesOf (pages : PageId → Page) : Loc → UInt8 := fun l =>
  (pages l.1).get l.2

theorem bytesOf_injective {pages pages' : PageId → Page} (same : bytesOf pages = bytesOf pages') :
    pages = pages' := by
  funext pid
  apply Block.ext
  intro i inside
  exact congrFun same (pid, ⟨i, inside⟩)

/-! ## Changes -/

namespace LogRecord

def patch? : LogRecord → Option (Change Loc UInt8)
  | .pagePatch _ pid off after before => some
      { covers := fun l => l.1 = pid ∧ off ≤ l.2 ∧ l.2 < off + after.length
        before := fun l => before.getD (l.2 - off) 0
        after := fun l => after.getD (l.2 - off) 0 }
  | _ => none

/-- The drop of a file is a change of all of its bytes. -/
def change? : LogRecord → Option (Change Loc UInt8)
  | .dropFile _ fid => some
      { covers := fun l => l.1.fileId = fid, before := fun _ => 0, after := fun _ => 0 }
  | r => r.patch?

/-- What a record of a running engine keeps to. -/
def Valid : LogRecord → Prop
  | .pagePatch txn pid off after before =>
      txn < 2 ^ 64 ∧ (pid.fileId ≠ 0 ∧ pid.fileId < 2 ^ 64 ∧ pid.pageNo < 2 ^ 32) ∧
        off + after.length ≤ pageSize ∧ before.length = after.length ∧ after.length ≠ 0
  | .dropFile txn fid => txn < 2 ^ 64 ∧ fid ≠ 0 ∧ fid < 2 ^ 64
  | .commit txn => txn < 2 ^ 64
  | .abort txn => txn < 2 ^ 64

/-- A record of what a transaction changes. -/
def Changes : LogRecord → Prop
  | .pagePatch .. => True
  | .dropFile .. => True
  | _ => False

variable {r : LogRecord} {lsn : Nat}

@[simp]
theorem inFile_txn : (r.inFile lsn).txn = r.txn := by
  cases r <;> rfl

theorem inFile_op_commit : (r.inFile lsn).op = opCommit ↔ r = .commit r.txn := by
  cases r <;> simp [inFile, opPagePatch, opDropFile, opCommit, opAbort, txn]

theorem inFile_op_abort : (r.inFile lsn).op = opAbort ↔ r = .abort r.txn := by
  cases r <;> simp [inFile, opPagePatch, opDropFile, opCommit, opAbort, txn]

theorem inFile_wellFormed (valid : r.Valid) : (r.inFile lsn).WellFormed := by
  cases r with
  | pagePatch txn pid off after before =>
      obtain ⟨-, ⟨file_pos, file_lt, page_lt⟩, inside, same_length, some_bytes⟩ := valid
      obtain ⟨pid_eq, off_eq, len_eq, -, -⟩ :=
        @patch_fields pid off lsn txn after before file_lt page_lt inside same_length
      left
      refine ⟨rfl, ?_, ?_, ?_, ?_⟩
      · exact (congrArg PageId.fileId pid_eq).trans_ne file_pos
      · rwa [len_eq]
      · rwa [off_eq, len_eq]
      · rw [patch_length same_length, len_eq]
  | dropFile txn fid =>
      obtain ⟨-, file_pos, file_lt⟩ := valid
      right; left
      refine ⟨rfl, length_toBytes _ _, ?_⟩
      change ofBytes ((toBytes 8 fid).take 8) ≠ 0
      rw [List.take_of_length_le (length_toBytes _ _).le, ofBytes_toBytes_of_lt file_lt]
      exact file_pos
  | commit txn => exact .inr (.inr ⟨.inl rfl, rfl⟩)
  | abort txn => exact .inr (.inr ⟨.inr rfl, rfl⟩)

theorem inFile_inRange (valid : r.Valid) (lsn_lt : lsn < 2 ^ 64) : (r.inFile lsn).InRange := by
  cases r with
  | pagePatch txn pid off after before =>
      obtain ⟨txn_lt, -, inside, same_length, -⟩ := valid
      refine ⟨lsn_lt, txn_lt, ?_⟩
      rw [patch_length same_length]
      unfold walPayloadMax
      omega
  | dropFile txn fid =>
      refine ⟨lsn_lt, valid.1, ?_⟩
      change (toBytes 8 fid).length ≤ walPayloadMax
      rw [length_toBytes]
      decide
  | commit txn => exact ⟨lsn_lt, valid, Nat.zero_le _⟩
  | abort txn => exact ⟨lsn_lt, valid, Nat.zero_le _⟩

/-! ## Steps of recovery as changes -/

/-- A half of a patch on a byte. -/
theorem onByte_patch {txn off : Nat} {pid : PageId} {after before : Bytes}
    (valid : (LogRecord.pagePatch txn pid off after before).Valid) (undo : Bool) (l : Loc) (b : UInt8) :
    (RecoveryStep.patch ((LogRecord.pagePatch txn pid off after before).inFile lsn) undo).onByte
        l.1 l.2 b =
      if l.1 = pid ∧ off ≤ l.2 ∧ l.2 < off + after.length then
        (if undo then before else after).getD (l.2 - off) 0
      else b := by
  obtain ⟨-, ⟨-, file_lt, page_lt⟩, inside, same_length, -⟩ := valid
  obtain ⟨pid_eq, off_eq, -, redone, undone⟩ :=
    @patch_fields pid off lsn txn after before file_lt page_lt inside same_length
  have half : ((LogRecord.pagePatch txn pid off after before).inFile lsn).half undo =
      if undo then before else after := by
    cases undo
    · exact redone
    · exact undone
  have length : (if undo then before else after).length = after.length := by
    cases undo
    · rfl
    · exact same_length
  rw [RecoveryStep.onByte, pid_eq, off_eq, half]
  generalize (if undo then before else after) = bytes at length ⊢
  by_cases covered : l.1 = pid ∧ off ≤ l.2 ∧ l.2 < off + after.length
  · have short : (l.2 : Nat) - off < bytes.length := by omega
    rw [if_pos covered, if_pos ⟨covered.1.symm, covered.2.1⟩, List.getD_eq_getElem?_getD]
    simp [short]
  · rw [if_neg covered]
    split
    · rename_i within
      have long : bytes.length ≤ l.2 - off := by
        by_contra short
        exact covered ⟨within.1.symm, within.2, by omega⟩
      simp [long]
    · rfl

theorem onByte_redo {txn off : Nat} {pid : PageId} {after before : Bytes}
    (valid : (LogRecord.pagePatch txn pid off after before).Valid) {c : Change Loc UInt8}
    (change : (LogRecord.pagePatch txn pid off after before).patch? = some c) (m : Loc → UInt8)
    (l : Loc) :
    (RecoveryStep.patch ((LogRecord.pagePatch txn pid off after before).inFile lsn) false).onByte
        l.1 l.2 (m l) = c.redo m l := by
  obtain rfl := Option.some.inj change
  rw [onByte_patch valid]
  simp only [Change.redo, Bool.false_eq_true, if_false]

theorem onByte_undo {txn off : Nat} {pid : PageId} {after before : Bytes}
    (valid : (LogRecord.pagePatch txn pid off after before).Valid) {c : Change Loc UInt8}
    (change : (LogRecord.pagePatch txn pid off after before).patch? = some c) (m : Loc → UInt8)
    (l : Loc) :
    (RecoveryStep.patch ((LogRecord.pagePatch txn pid off after before).inFile lsn) true).onByte
        l.1 l.2 (m l) = c.undo m l := by
  obtain rfl := Option.some.inj change
  rw [onByte_patch valid]
  simp only [Change.undo, if_true]

theorem onByte_drop {txn fid : Nat} (valid : (LogRecord.dropFile txn fid).Valid)
    {c : Change Loc UInt8} (change : (LogRecord.dropFile txn fid).change? = some c)
    (m : Loc → UInt8) (l : Loc) :
    (RecoveryStep.drop ((LogRecord.dropFile txn fid).inFile lsn)).onByte l.1 l.2 (m l) =
      c.redo m l := by
  obtain rfl := Option.some.inj change
  have file : ((LogRecord.dropFile txn fid).inFile lsn).fileId = fid := by
    change ofBytes ((toBytes 8 fid).take 8) = fid
    rw [List.take_of_length_le (length_toBytes _ _).le, ofBytes_toBytes_of_lt valid.2.2]
  rw [RecoveryStep.onByte, file]
  by_cases same : fid = l.1.fileId
  · rw [if_pos same, Change.redo_of_covers same.symm]
  · rw [if_neg same, Change.redo_of_uncovered (Ne.symm same)]

end LogRecord

/-! ## The log in its file -/

/-- Records with the numbers that they have in the file. -/
inductive InFile : List WalRecord → List LogRecord → Prop
  | nil : InFile [] []
  | cons {lsn : Nat} {r : LogRecord} {ws : List WalRecord} {rs : List LogRecord}
      (lsn_lt : lsn < 2 ^ 64) (rest : InFile ws rs) : InFile (r.inFile lsn :: ws) (r :: rs)

theorem LogRecord.inFile_eq_fields (r : LogRecord) (lsn : Nat) :
    (⟨lsn, r.fields.2.1, r.fields.1, r.fields.2.2⟩ : WalRecord) = r.inFile lsn := by
  cases r <;> rfl

theorem writtenRecords_inFile (records : List LogRecord) {lsn : Nat} (lsn_lt : lsn < 2 ^ 64) :
    InFile (writtenRecords lsn (records.map LogRecord.fields)) records := by
  induction records generalizing lsn with
  | nil => exact .nil
  | cons r records inductionHypothesis =>
      rw [List.map_cons, writtenRecords, LogRecord.inFile_eq_fields]
      exact .cons lsn_lt (inductionHypothesis (Nat.mod_lt _ (by decide)))

namespace InFile

variable {ws : List WalRecord} {rs : List LogRecord}

theorem forall_of (file : InFile ws rs) {P : LogRecord → Prop} {Q : WalRecord → Prop}
    (each : ∀ r lsn, lsn < 2 ^ 64 → P r → Q (r.inFile lsn)) (all : ∀ r ∈ rs, P r) :
    ∀ w ∈ ws, Q w := by
  induction file with
  | nil => exact fun _ mem => absurd mem List.not_mem_nil
  | cons lsn_lt rest inductionHypothesis =>
      intro w mem
      rcases List.mem_cons.mp mem with rfl | mem
      · exact each _ _ lsn_lt (all _ List.mem_cons_self)
      · exact inductionHypothesis (fun r mem => all r (List.mem_cons_of_mem _ mem)) w mem

/-- A record of the file of some kind stands for one of the log. -/
theorem exists_iff (file : InFile ws rs) {P : LogRecord → Prop} {Q : WalRecord → Prop}
    (each : ∀ r lsn, Q (r.inFile lsn) ↔ P r) : (∃ w ∈ ws, Q w) ↔ ∃ r ∈ rs, P r := by
  induction file with
  | nil => simp
  | cons lsn_lt rest inductionHypothesis => simp [each, inductionHypothesis]

theorem isCommitted (file : InFile ws rs) (t : Nat) :
    (∃ w ∈ ws, w.op = opCommit ∧ w.txn = t) ↔ LogRecord.commit t ∈ rs := by
  have each : ∀ r lsn, ((LogRecord.inFile lsn r).op = opCommit ∧ (LogRecord.inFile lsn r).txn = t) ↔
      r = .commit t := by
    intro r lsn
    rw [LogRecord.inFile_op_commit, LogRecord.inFile_txn]
    cases r <;> simp [LogRecord.txn]
  rw [file.exists_iff each]
  simp

theorem isAborted (file : InFile ws rs) (t : Nat) :
    (∃ w ∈ ws, w.op = opAbort ∧ w.txn = t) ↔ LogRecord.abort t ∈ rs := by
  have each : ∀ r lsn, ((LogRecord.inFile lsn r).op = opAbort ∧ (LogRecord.inFile lsn r).txn = t) ↔
      r = .abort t := by
    intro r lsn
    rw [LogRecord.inFile_op_abort, LogRecord.inFile_txn]
    cases r <;> simp [LogRecord.txn]
  rw [file.exists_iff each]
  simp

end InFile

/-! ## What the first pass gathers -/

/-- Patches and drops. -/
def WalRecord.isChange (w : WalRecord) : Bool :=
  w.op = opPagePatch || w.op = opDropFile

theorem Collected.add_spec {c c' : Collected} {w : WalRecord} (wellFormed : w.WellFormed)
    (added : c.add w = .ok c') :
    c'.records = c.records ++ [w].filter WalRecord.isChange ∧
      (∀ t, t ∈ c'.committed ↔ t ∈ c.committed ∨ (w.op = opCommit ∧ w.txn = t)) ∧
      ∀ t, t ∈ c'.aborted ↔ t ∈ c.aborted ∨ (w.op = opAbort ∧ w.txn = t) := by
  rcases wellFormed with ⟨op, fileId, len, inside, payload⟩ | ⟨op, payload, fileId⟩ |
    ⟨op | op, payload⟩
  · have within : ¬ (pageSize < w.offset ∨ w.len = 0 ∨ pageSize - w.offset < w.len) := by
      omega
    simp [add, op, validatePatch, fileId, within, payload, Res.pure_eq_ok] at added
    subst added
    simp [WalRecord.isChange, op, opPagePatch, opCommit, opAbort]
  · simp [add, op, validateDrop, payload, fileId, opDropFile, opPagePatch, Res.pure_eq_ok] at added
    subst added
    simp [WalRecord.isChange, op, opDropFile, opCommit, opAbort]
  · simp [add, op, payload, opCommit, opAbort, opDropFile, opPagePatch, Res.pure_eq_ok] at added
    subst added
    simp [WalRecord.isChange, op, opPagePatch, opDropFile, opCommit, opAbort, or_comm, eq_comm]
  · simp [add, op, payload, opCommit, opAbort, opDropFile, opPagePatch, Res.pure_eq_ok] at added
    subst added
    simp [WalRecord.isChange, op, opPagePatch, opDropFile, opCommit, opAbort, or_comm, eq_comm]

theorem foldlM_add_spec {ws : List WalRecord} (wellFormed : ∀ w ∈ ws, w.WellFormed)
    {c c' : Collected} (added : ws.foldlM Collected.add c = .ok c') :
    c'.records = c.records ++ ws.filter WalRecord.isChange ∧
      (∀ t, t ∈ c'.committed ↔ t ∈ c.committed ∨ ∃ w ∈ ws, w.op = opCommit ∧ w.txn = t) ∧
      ∀ t, t ∈ c'.aborted ↔ t ∈ c.aborted ∨ ∃ w ∈ ws, w.op = opAbort ∧ w.txn = t := by
  induction ws generalizing c with
  | nil =>
      obtain rfl : c = c' := Except.ok.inj added
      simp
  | cons w ws inductionHypothesis =>
      obtain ⟨c₁, first⟩ := c.add_ok (wellFormed w List.mem_cons_self)
      rw [List.foldlM_cons, first] at added
      obtain ⟨records₁, committed₁, aborted₁⟩ :=
        Collected.add_spec (wellFormed w List.mem_cons_self) first
      obtain ⟨records, committed, aborted⟩ :=
        inductionHypothesis (fun w mem => wellFormed w (List.mem_cons_of_mem _ mem)) added
      refine ⟨?_, ?_, ?_⟩
      · rw [records, records₁, List.append_assoc, ← List.filter_append, List.singleton_append]
      · intro t
        rw [committed, committed₁]
        simp [or_assoc]
      · intro t
        rw [aborted, aborted₁]
        simp [or_assoc]

/-! ## What the steps make of a byte -/

/-- The steps of the second pass on a byte redo the changes of the transactions given. -/
theorem redo_bytes {ws : List WalRecord} {rs : List LogRecord} (file : InFile ws rs)
    (valid : ∀ r ∈ rs, r.Valid) (stays : Nat → Bool) (m : Loc → UInt8) (l : Loc) :
    Replay.run ((((ws.filter WalRecord.isChange).filter fun w => stays w.txn).map fun w =>
        if w.op = opPagePatch then RecoveryStep.patch w false else .drop w).map
          (RecoveryStep.onByte l.1 l.2)) (m l) =
      redoAll ((rs.filter fun r => stays r.txn).filterMap LogRecord.change?) m l := by
  induction file generalizing m with
  | nil => rfl
  | @cons lsn r ws rs lsn_lt rest inductionHypothesis =>
      have rest_valid := fun r mem => valid r (List.mem_cons_of_mem _ mem)
      have r_valid := valid r List.mem_cons_self
      rw [List.filter_cons (p := fun r : LogRecord => stays r.txn)]
      by_cases stays_r : stays r.txn = true
      · rw [if_pos stays_r, List.filterMap_cons]
        cases r with
        | pagePatch txn pid off after before =>
            have op : ((LogRecord.pagePatch txn pid off after before).inFile lsn).op = opPagePatch :=
              rfl
            rw [List.filter_cons, if_pos (show WalRecord.isChange _ = true from rfl),
              List.filter_cons, LogRecord.inFile_txn, if_pos stays_r, List.map_cons, List.map_cons,
              Replay.run_cons, if_pos op, LogRecord.onByte_redo r_valid rfl]
            exact inductionHypothesis rest_valid _
        | dropFile txn fid =>
            have op : ((LogRecord.dropFile txn fid).inFile lsn).op ≠ opPagePatch :=
              show opDropFile ≠ opPagePatch by decide
            rw [List.filter_cons, if_pos (show WalRecord.isChange _ = true from rfl),
              List.filter_cons, LogRecord.inFile_txn, if_pos stays_r, List.map_cons, List.map_cons,
              Replay.run_cons, if_neg op, LogRecord.onByte_drop r_valid rfl]
            exact inductionHypothesis rest_valid _
        | commit txn => exact inductionHypothesis rest_valid m
        | abort txn => exact inductionHypothesis rest_valid m
      · rw [if_neg stays_r]
        have skipped : ((r.inFile lsn :: ws).filter WalRecord.isChange).filter
            (fun w => stays w.txn) =
            (ws.filter WalRecord.isChange).filter fun w => stays w.txn := by
          rw [List.filter_cons]
          split
          · rw [List.filter_cons, LogRecord.inFile_txn, if_neg stays_r]
          · rfl
        rw [skipped]
        exact inductionHypothesis rest_valid m

/-- The steps of the third pass on a byte undo the patches of the transactions given. -/
theorem undo_bytes {ws : List WalRecord} {rs : List LogRecord} (file : InFile ws rs)
    (valid : ∀ r ∈ rs, r.Valid) (goes : Nat → Bool) (m : Loc → UInt8) (l : Loc) :
    Replay.run (((((ws.filter WalRecord.isChange).reverse.filter fun w =>
        goes w.txn && decide (w.op = opPagePatch)).map fun w =>
          RecoveryStep.patch w true)).map (RecoveryStep.onByte l.1 l.2)) (m l) =
      undoAll ((rs.filter fun r => goes r.txn).filterMap LogRecord.patch?) m l := by
  induction file generalizing m with
  | nil => rfl
  | @cons lsn r ws rs lsn_lt rest inductionHypothesis =>
      have rest_valid := fun r mem => valid r (List.mem_cons_of_mem _ mem)
      have r_valid := valid r List.mem_cons_self
      have hypothesis := inductionHypothesis rest_valid m
      have skipped : r.patch? = none → ((r :: rs).filter fun r => goes r.txn).filterMap
          LogRecord.patch? = (rs.filter fun r => goes r.txn).filterMap LogRecord.patch? := by
        intro none
        rw [List.filter_cons]
        split
        · rw [List.filterMap_cons, none]
        · rfl
      cases r with
      | pagePatch txn pid off after before =>
          rw [List.filter_cons, if_pos (show WalRecord.isChange _ = true from rfl),
            List.reverse_cons, List.filter_append, List.map_append, List.map_append,
            Replay.run_append, hypothesis, List.filter_cons, LogRecord.inFile_txn,
            List.filter_cons (p := fun r : LogRecord => goes r.txn)]
          obtain ⟨c, change⟩ :
              ∃ c, (LogRecord.pagePatch txn pid off after before).patch? = some c := ⟨_, rfl⟩
          by_cases goes_r : goes (LogRecord.pagePatch txn pid off after before).txn = true
          · rw [if_pos goes_r, if_pos (by rw [goes_r]; rfl), List.filterMap_cons, change]
            simp only [List.filter_nil, List.map_cons, List.map_nil, Replay.run_cons,
              Replay.run_nil, undoAll_cons]
            exact LogRecord.onByte_undo r_valid change _ l
          · rw [if_neg goes_r, if_neg (by simp [goes_r])]
            rfl
      | dropFile txn fid =>
          rw [List.filter_cons, if_pos (show WalRecord.isChange _ = true from rfl),
            List.reverse_cons, List.filter_append, List.map_append, List.map_append,
            Replay.run_append, hypothesis, skipped rfl, List.filter_cons, if_neg]
          · rfl
          · simp [LogRecord.inFile, opDropFile, opPagePatch]
      | commit txn =>
          rw [skipped rfl]
          exact hypothesis
      | abort txn =>
          rw [skipped rfl]
          exact hypothesis

/-! ## Recovery of a log of transactions one after another -/

/-- A log without rollbacks: the records of committed transactions, and after them those of
the last one, which may not have ended. -/
structure Serial (earlier current : List LogRecord) : Prop where
  committed : ∀ r ∈ earlier, LogRecord.commit r.txn ∈ earlier
  unfinished : ∀ r ∈ current, r.Changes ∧ ∀ r' ∈ earlier, r'.txn ≠ r.txn
  unaborted : ∀ t, LogRecord.abort t ∉ earlier
  valid : ∀ r ∈ earlier ++ current, r.Valid

/-- Recovery accepts such a log; its steps redo the changes of the earlier transactions and
undo the patches of the last one. -/
theorem Serial.steps {earlier current : List LogRecord} (serial : Serial earlier current)
    {ws : List WalRecord} (file : InFile ws (earlier ++ current)) :
    ∃ c, collect ws = .ok c ∧ ∀ (m : Loc → UInt8) (l : Loc),
      Replay.run (c.steps.map (RecoveryStep.onByte l.1 l.2)) (m l) =
        undoAll (current.filterMap LogRecord.patch?)
          (redoAll (earlier.filterMap LogRecord.change?) m) l := by
  have wellFormed : ∀ w ∈ ws, w.WellFormed :=
    file.forall_of (fun r lsn _ valid => LogRecord.inFile_wellFormed valid) serial.valid
  obtain ⟨c, collected⟩ := collect_ok wellFormed
  obtain ⟨records, committed, aborted⟩ := foldlM_add_spec wellFormed collected
  rw [List.nil_append] at records
  have noCommit : ∀ t, LogRecord.commit t ∉ current := fun t mem =>
    (serial.unfinished _ mem).1
  have noAbort : ∀ t, LogRecord.abort t ∉ current := fun t mem =>
    (serial.unfinished _ mem).1
  have stays : ∀ t, t ∈ c.committed ↔ LogRecord.commit t ∈ earlier := by
    intro t
    rw [committed, file.isCommitted]
    simp [noCommit]
  have intact : ∀ t, t ∉ c.aborted := by
    intro t
    rw [aborted, file.isAborted]
    simp [noAbort, serial.unaborted]
  refine ⟨c, collected, fun m l => ?_⟩
  have redone : (earlier ++ current).filter (fun r => decide (r.txn ∈ c.committed)) = earlier := by
    have all : earlier.filter (fun r => decide (r.txn ∈ c.committed)) = earlier := by
      apply List.filter_eq_self.mpr
      intro r mem
      rw [decide_eq_true_eq, stays]
      exact serial.committed r mem
    have none : current.filter (fun r => decide (r.txn ∈ c.committed)) = [] := by
      apply List.filter_eq_nil_iff.mpr
      intro r mem
      rw [decide_eq_true_eq, stays]
      intro ended
      exact (serial.unfinished r mem).2 _ ended rfl
    rw [List.filter_append, all, none, List.append_nil]
  have undone : (earlier ++ current).filter
      (fun r => decide (r.txn ∉ c.committed ∧ r.txn ∉ c.aborted)) = current := by
    have none : earlier.filter
        (fun r => decide (r.txn ∉ c.committed ∧ r.txn ∉ c.aborted)) = [] := by
      apply List.filter_eq_nil_iff.mpr
      intro r mem
      rw [decide_eq_true_eq, stays]
      exact fun both => both.1 (serial.committed r mem)
    have all : current.filter
        (fun r => decide (r.txn ∉ c.committed ∧ r.txn ∉ c.aborted)) = current := by
      apply List.filter_eq_self.mpr
      intro r mem
      rw [decide_eq_true_eq, stays]
      exact ⟨fun ended => (serial.unfinished r mem).2 _ ended rfl, intact _⟩
    rw [List.filter_append, none, all, List.nil_append]
  have second := redo_bytes file serial.valid (fun t => decide (t ∈ c.committed)) m l
  have third := undo_bytes file serial.valid
    (fun t => decide (t ∉ c.committed ∧ t ∉ c.aborted))
    (redoAll (earlier.filterMap LogRecord.change?) m) l
  rw [redone] at second
  rw [undone] at third
  rw [Collected.steps, List.map_append, Replay.run_append, Collected.redoSteps, records, second,
    Collected.undoSteps, records, ← third]
  congr 4
  funext w
  simp [Bool.and_assoc]

/-! ## Pages under the records -/

namespace LogRecord

variable {txn off : Nat} {pid : PageId} {after before : Bytes} {c : Change Loc UInt8}

/-- Bytes written over a page, byte by byte. -/
theorem bytesOf_update_write (pages : PageId → Page) (pid : PageId) (off : Nat) (bytes : Bytes)
    (l : Loc) :
    bytesOf (Function.update pages pid ((pages pid).write off bytes)) l =
      if l.1 = pid ∧ off ≤ l.2 ∧ l.2 < off + bytes.length then bytes.getD (l.2 - off) 0
      else bytesOf pages l := by
  unfold bytesOf
  by_cases own : l.1 = pid
  · rw [own, Function.update_self, Block.get_write _ _ _ _ l.2.isLt]
    by_cases from_off : off ≤ l.2
    · by_cases below : (l.2 : Nat) < off + bytes.length
      · have short : (l.2 : Nat) - off < bytes.length := by omega
        rw [if_pos from_off, if_pos ⟨rfl, from_off, below⟩, List.getD_eq_getElem?_getD]
        simp [short]
      · have long : bytes.length ≤ (l.2 : Nat) - off := by omega
        rw [if_pos from_off, if_neg fun covered => below covered.2.2]
        simp [long]
    · rw [if_neg from_off, if_neg fun covered => from_off covered.2.1]
  · rw [Function.update_of_ne own, if_neg fun covered => own covered.1]

theorem redo_patch (change : (LogRecord.pagePatch txn pid off after before).patch? = some c)
    (pages : PageId → Page) :
    c.redo (bytesOf pages) = bytesOf ((LogRecord.pagePatch txn pid off after before).redo pages) := by
  obtain rfl := Option.some.inj change
  funext l
  rw [LogRecord.redo, bytesOf_update_write]
  simp only [Change.redo]

theorem undo_patch (change : (LogRecord.pagePatch txn pid off after before).patch? = some c)
    (same_length : before.length = after.length) (pages : PageId → Page) :
    c.undo (bytesOf pages) = bytesOf ((LogRecord.pagePatch txn pid off after before).undo pages) := by
  obtain rfl := Option.some.inj change
  funext l
  rw [LogRecord.undo, bytesOf_update_write, same_length]
  simp only [Change.undo]

end LogRecord

variable {records : List LogRecord} {pages : PageId → Page}

theorem redoAll_patches :
    redoAll (records.filterMap LogRecord.patch?) (bytesOf pages) = bytesOf (overlay records pages) := by
  induction records generalizing pages with
  | nil => rfl
  | cons r records inductionHypothesis =>
      have rest := @inductionHypothesis (r.redo pages)
      cases r with
      | pagePatch txn pid off after before =>
          obtain ⟨c, change⟩ :
              ∃ c, (LogRecord.pagePatch txn pid off after before).patch? = some c := ⟨_, rfl⟩
          rw [List.filterMap_cons, change, redoAll_cons, LogRecord.redo_patch change]
          exact rest
      | dropFile txn fid => exact rest
      | commit txn => exact rest
      | abort txn => exact rest

/-- The before-halves over pages, the last one first. -/
def underlay (records : List LogRecord) (pages : PageId → Page) : PageId → Page :=
  records.foldr (fun r pages => r.undo pages) pages

theorem undoAll_patches (valid : ∀ r ∈ records, r.Valid) :
    undoAll (records.filterMap LogRecord.patch?) (bytesOf pages) =
      bytesOf (underlay records pages) := by
  induction records with
  | nil => rfl
  | cons r records inductionHypothesis =>
      have rest := inductionHypothesis fun r mem => valid r (List.mem_cons_of_mem _ mem)
      cases r with
      | pagePatch txn pid off after before =>
          obtain ⟨c, change⟩ :
              ∃ c, (LogRecord.pagePatch txn pid off after before).patch? = some c := ⟨_, rfl⟩
          have same_length := (valid _ List.mem_cons_self).2.2.2.1
          rw [List.filterMap_cons, change, undoAll_cons, rest,
            LogRecord.undo_patch change same_length]
          rfl
      | dropFile txn fid => exact rest
      | commit txn => exact rest
      | abort txn => exact rest

/-- What is undone in full is as it was. -/
theorem underlay_overlay (chained : Chained (records.filterMap LogRecord.patch?) (bytesOf pages))
    (valid : ∀ r ∈ records, r.Valid) : underlay records (overlay records pages) = pages := by
  apply bytesOf_injective
  rw [← undoAll_patches valid, ← redoAll_patches]
  exact undoAll_redoAll chained

/-! ## The records of a difference -/

section Difference

variable {txn : Nat} {pid : PageId} {before data : Page}

/-- The records of regions that lie apart follow on a page that is the baseline there. -/
theorem chained_regions (regions : List (Nat × Nat))
    (apart : regions.Pairwise fun r r' => r.1 + r.2 ≤ r'.1) {m : Loc → UInt8}
    (same : ∀ r ∈ regions, ∀ l : Loc, l.1 = pid → r.1 ≤ l.2 → l.2 < r.1 + r.2 →
      m l = before.get l.2) :
    Chained ((regions.map (diffRecord txn pid before data)).filterMap LogRecord.patch?) m := by
  induction regions generalizing m with
  | nil => trivial
  | cons region regions inductionHypothesis =>
      obtain ⟨first_apart, rest_apart⟩ := List.pairwise_cons.mp apart
      refine ⟨?_, ?_⟩
      · rintro l ⟨own, from_off, below⟩
        rw [Block.length_read] at below
        have short : (l.2 : Nat) - region.1 < region.2 := by omega
        have place : region.1 + ((l.2 : Nat) - region.1) = l.2 := by omega
        rw [same region List.mem_cons_self l own from_off below]
        change (before.read region.1 region.2).getD (l.2 - region.1) 0 = _
        simp [Block.read, List.getD_eq_getElem?_getD, short, place]
      · apply inductionHypothesis rest_apart
        intro r mem l own from_off below
        have behind := first_apart r mem
        have uncovered : ¬ (l.1 = pid ∧ region.1 ≤ l.2 ∧
            l.2 < region.1 + (data.read region.1 region.2).length) := by
          rw [Block.length_read]
          omega
        refine (Change.redo_of_uncovered uncovered).trans ?_
        exact same r (List.mem_cons_of_mem _ mem) l own from_off below

theorem chained_diff (txn : Nat) (data : Page) (same : pages pid = before) :
    Chained ((diffRecords txn pid before data).filterMap LogRecord.patch?) (bytesOf pages) := by
  apply chained_regions _ (pageDiff_apart before data)
  rintro r - l rfl - -
  rw [← same]
  rfl

theorem overlay_diff (txn : Nat) (same : pages pid = before) :
    overlay (diffRecords txn pid before data) pages = Function.update pages pid data := by
  have regions : ∀ (rs : List (Nat × Nat)) (pages : PageId → Page),
      overlay (rs.map (diffRecord txn pid before data)) pages =
        Function.update pages pid (patched data rs (pages pid)) := by
    intro rs
    induction rs with
    | nil => exact fun pages => (Function.update_eq_self pid pages).symm
    | cons r rs inductionHypothesis =>
        intro pages
        have first : (diffRecord txn pid before data r).redo pages =
            Function.update pages pid ((pages pid).write r.1 (data.read r.1 r.2)) := rfl
        rw [List.map_cons, overlay, List.foldl_cons, ← overlay, first, inductionHypothesis,
          Function.update_self, Function.update_idem]
        rfl
  rw [diffRecords, regions, same, patched_pageDiff]

theorem diff_valid (txn_lt : txn < 2 ^ 64) (file_pos : pid.fileId ≠ 0)
    (file_lt : pid.fileId < 2 ^ 64) (page_lt : pid.pageNo < 2 ^ 32) :
    ∀ r ∈ diffRecords txn pid before data, r.Valid := by
  intro r mem
  obtain ⟨region, in_diff, rfl⟩ := List.mem_map.mp mem
  obtain ⟨pos, inside⟩ := pageDiff_inside in_diff
  refine ⟨txn_lt, ⟨file_pos, file_lt, page_lt⟩, ?_, ?_, ?_⟩
  · rwa [Block.length_read]
  · rw [Block.length_read, Block.length_read]
  · rw [Block.length_read]
    omega

/-- A difference that is empty is none. -/
theorem eq_of_diff_nil (none : diffRecords txn pid before data = []) : before = data := by
  have empty : pageDiff before data = [] := List.map_eq_nil_iff.mp none
  have whole : patched data (pageDiff before data) before = data := patched_pageDiff
  rw [empty] at whole
  exact whole

end Difference

end MySimpleDb.Storage
