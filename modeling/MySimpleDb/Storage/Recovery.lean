import MySimpleDb.Storage.FileManager
import MySimpleDb.Storage.WalPrefix

/-!
# Recovery

`recover` reads `wal.log`, applies the after-halves and drops of committed
transactions in the order of the log and the before-halves of unfinished ones
against it, and empties the log.
-/

namespace MySimpleDb.Storage

open MySimpleDb.Lib

/-! ## Reading the log to its end -/

namespace WalReader

theorem content_fill (r : WalReader) : r.fill.2.content = r.content := by
  by_cases eof : r.eof = true
  · rw [fill, if_pos eof]
  · by_cases empty : r.rest = []
    · rw [fill, if_neg eof, if_pos empty]
      rfl
    · rw [fill, if_neg eof, if_neg empty]
      simp [content]

theorem content_fillTo (need : Nat) (r : WalReader) :
    (r.fillTo need).2.content = r.content := by
  induction r using fillTo.induct need with
  | case1 r short filled inductionHypothesis =>
      rw [fillTo, if_pos short, dif_pos filled, inductionHypothesis, content_fill]
  | case2 r short stuck =>
      rw [fillTo, if_pos short, dif_neg stuck, content_fill]
  | case3 r enough =>
      rw [fillTo, if_neg enough]

theorem length_fillTo {need : Nat} {r : WalReader} (filled : (r.fillTo need).1 = true) :
    need ≤ (r.fillTo need).2.buf.length := by
  induction r using fillTo.induct need with
  | case1 r short goesOn inductionHypothesis =>
      rw [fillTo, if_pos short, dif_pos goesOn] at filled ⊢
      exact inductionHypothesis filled
  | case2 r short stuck =>
      rw [fillTo, if_pos short, dif_neg stuck] at filled
      cases filled
  | case3 r enough =>
      rw [fillTo, if_neg enough]
      exact Nat.le_of_not_lt enough

/-- A record takes its bytes from the file. -/
theorem length_next {r : WalReader} {rec : WalRecord} (found : r.next.1 = some rec) :
    r.next.2.content.length < r.content.length := by
  unfold next at found ⊢
  rcases filled : r.fillTo walHeaderSize with ⟨_ | _, r₁⟩
  · simp [filled] at found
  · have content₁ : r₁.content = r.content := by
      rw [← content_fillTo walHeaderSize r, filled]
    simp only [filled] at found ⊢
    split at found
    · cases found
    · rename_i small
      rw [if_neg small]
      rcases filled' : r₁.fillTo (walHeaderSize + ofBytes (r₁.buf.take 4)) with ⟨_ | _, r₂⟩
      · simp [filled'] at found
      · have content₂ : r₂.content = r.content := by
          rw [← content₁, ← content_fillTo (walHeaderSize + ofBytes (r₁.buf.take 4)) r₁, filled']
        have enough := @length_fillTo (walHeaderSize + ofBytes (r₁.buf.take 4)) r₁
          (by rw [filled'])
        rw [filled'] at enough
        dsimp only at enough
        simp only [filled'] at found ⊢
        split at found
        · cases found
        · rename_i checked
          rw [if_neg checked, ← content₂]
          simp only [content, List.length_append, List.length_drop, walHeaderSize] at enough ⊢
          omega

/-- `while (reader.next(&rec))`. -/
def readAll (r : WalReader) : List WalRecord :=
  match _ : r.next.1 with
  | none => []
  | some rec => rec :: readAll r.next.2
termination_by r.content.length
decreasing_by exact length_next (by assumption)

theorem readAll_none {r : WalReader} (nothing : r.next.1 = none) : r.readAll = [] := by
  rw [readAll]
  split
  · rfl
  · simp_all

theorem readAll_some {r : WalReader} {rec : WalRecord} (found : r.next.1 = some rec) :
    r.readAll = rec :: r.next.2.readAll := by
  rw [readAll]
  split <;> simp_all

/-- What is read depends on the file and not on the chunks. -/
theorem readAll_of_content {r r' : WalReader} (sound : r.Sound) (sound' : r'.Sound)
    (same : r.content = r'.content) : r.readAll = r'.readAll := by
  induction r using readAll.induct generalizing r' with
  | case1 r nothing =>
      have nothing' : r'.next.1 = none := by
        rw [(next_spec sound').1, ← same, ← (next_spec sound).1, nothing]
      rw [readAll_none nothing, readAll_none nothing']
  | case2 r rec found inductionHypothesis =>
      obtain ⟨answer, later, left⟩ := next_spec sound
      obtain ⟨answer', later', left'⟩ := next_spec sound'
      have parsed : parseRecord r.content = some rec := answer.symm.trans found
      have parsed' : parseRecord r'.content = some rec := same ▸ parsed
      have found' : r'.next.1 = some rec := answer'.trans parsed'
      rw [parsed] at left
      rw [parsed'] at left'
      have rest := inductionHypothesis later later' (by rw [left.1, left'.1, same])
      rw [readAll_some found, readAll_some found', rest]

theorem create_sound (file : Bytes) (sizes : Nat → Nat) : (create file sizes).Sound := by
  intro ended
  cases ended

end WalReader

/-- The records that are read from a file. -/
def recordsOf (file : Bytes) : List WalRecord :=
  (WalReader.create file fun _ => chunkSize).readAll

theorem readAll_create (file : Bytes) (sizes : Nat → Nat) :
    (WalReader.create file sizes).readAll = recordsOf file :=
  WalReader.readAll_of_content (WalReader.create_sound file sizes)
    (WalReader.create_sound file _) rfl

/-- The records of a file that has been written record by record, up to what cannot be
read. -/
theorem recordsOf_written {records : List WalRecord} {torn : Bytes}
    (inRange : ∀ rec ∈ records, rec.InRange) (unreadable : parseRecord torn = none) :
    recordsOf (records.flatMap WalRecord.bytes ++ torn) = records := by
  have all : ∀ r : WalReader, r.Sound →
      r.content = records.flatMap WalRecord.bytes ++ torn → r.readAll = records := by
    induction records with
    | nil =>
        intro r sound content
        apply WalReader.readAll_none
        rw [(WalReader.next_spec sound).1, content]
        exact unreadable
    | cons rec records inductionHypothesis =>
        intro r sound content
        obtain ⟨answer, later, left⟩ := WalReader.next_spec sound
        rw [List.flatMap_cons, List.append_assoc] at content
        have parsed : parseRecord r.content = some rec := by
          rw [content]
          exact WalRecord.parseRecord_bytes (inRange rec List.mem_cons_self) _
        rw [parsed] at left
        rw [WalReader.readAll_some (answer.trans parsed)]
        congr 1
        apply inductionHypothesis (fun rec mem => inRange rec (List.mem_cons_of_mem _ mem)) _ later
        rw [left.1, content, ← WalRecord.length_bytes]
        exact List.drop_left
  exact all _ (WalReader.create_sound _ _) rfl

/-! ## The records of recovery -/

def opPagePatch : UInt8 := 1
def opDropFile : UInt8 := 2
def opCommit : UInt8 := 3
def opAbort : UInt8 := 4

def raiseCorrupt {α : Type} (what : String) : Res α :=
  dbCritical ("WAL 记录非法: " ++ what)

namespace WalRecord

/-! `[file_id u64][page_no u32][offset u32][len u32][after][before]`; the payload of a drop
is the file id alone. -/

def fileId (rec : WalRecord) : Nat := ofBytes (rec.payload.take 8)
def pageNo (rec : WalRecord) : Nat := ofBytes ((rec.payload.drop 8).take 4)
def offset (rec : WalRecord) : Nat := ofBytes ((rec.payload.drop 12).take 4)
def len (rec : WalRecord) : Nat := ofBytes ((rec.payload.drop 16).take 4)
def pid (rec : WalRecord) : PageId := ⟨rec.fileId, rec.pageNo⟩

/-- The bytes that a patch writes. -/
def half (rec : WalRecord) (undo : Bool) : Bytes :=
  (rec.payload.drop (walPatchHeaderSize + if undo then rec.len else 0)).take rec.len

end WalRecord

/-- A payload shorter than the fields fails the last check whatever is read for them. -/
def validatePatch (rec : WalRecord) : Res Unit := do
  if rec.fileId = 0 then raiseCorrupt "补丁 file_id 为 0"
  if pageSize < rec.offset ∨ rec.len = 0 ∨ pageSize - rec.offset < rec.len then
    raiseCorrupt "补丁区间越界"
  if rec.payload.length ≠ walPatchHeaderSize + 2 * rec.len then
    raiseCorrupt "补丁长度与 len 字段不符"

def validateDrop (rec : WalRecord) : Res Unit := do
  if rec.payload.length ≠ 8 then raiseCorrupt "删文件记录长度不符"
  if rec.fileId = 0 then raiseCorrupt "删文件记录 file_id 为 0"

/-- What the first pass gathers. -/
structure Collected where
  records : List WalRecord := []
  committed : List Nat := []
  aborted : List Nat := []
  commitAbortCount : Nat := 0

/-- One turn of the first pass. -/
def Collected.add (c : Collected) (rec : WalRecord) : Res Collected := do
  if rec.op = opPagePatch then
    validatePatch rec
    return { c with records := c.records ++ [rec] }
  else if rec.op = opDropFile then
    validateDrop rec
    return { c with records := c.records ++ [rec] }
  else if rec.op = opCommit ∨ rec.op = opAbort then
    if rec.payload ≠ [] then raiseCorrupt "提交/中止记录带载荷"
    if rec.op = opCommit then
      return { c with
        committed := rec.txn :: c.committed, commitAbortCount := c.commitAbortCount + 1 }
    else
      return { c with
        aborted := rec.txn :: c.aborted, commitAbortCount := c.commitAbortCount + 1 }
  else raiseCorrupt "未知操作码"

/-- The first pass. -/
def collect (records : List WalRecord) : Res Collected :=
  records.foldlM Collected.add {}

/-! ## The steps of recovery -/

structure RecoveryStats where
  replayed : Nat := 0
  patches : Nat := 0
  drops : Nat := 0
  undone : Nat := 0
deriving DecidableEq

/-- A record with what recovery does about it. -/
inductive RecoveryStep
  | patch (rec : WalRecord) (undo : Bool)
  | drop (rec : WalRecord)

namespace Collected

/-- What the second pass does. -/
def redoSteps (c : Collected) : List RecoveryStep :=
  (c.records.filter fun r => r.txn ∈ c.committed).map fun r =>
    if r.op = opPagePatch then .patch r false else .drop r

/-- What the third pass does. -/
def undoSteps (c : Collected) : List RecoveryStep :=
  (c.records.reverse.filter fun r =>
    r.txn ∉ c.committed ∧ r.txn ∉ c.aborted ∧ r.op = opPagePatch).map fun r => .patch r true

def steps (c : Collected) : List RecoveryStep :=
  c.redoSteps ++ c.undoSteps

def replayed (c : Collected) : Nat :=
  c.records.length + c.commitAbortCount

end Collected

/-- A half of the patch over the page as it is read, absent bytes as zero. -/
def applyPatch (rec : WalRecord) (undo : Bool) (logged : Nat) : FileM Unit := do
  let page ← FileManager.readPage rec.pid
  FileManager.writePage rec.pid (page.write rec.offset (rec.half undo)) logged

def RecoveryStep.run (stats : RecoveryStats) : RecoveryStep → FileM RecoveryStats
  | .patch rec undo => do
      applyPatch rec undo stats.replayed
      return if undo then { stats with undone := stats.undone + 1 }
        else { stats with patches := stats.patches + 1 }
  | .drop rec => do
      let files ← get
      if files.tableFileExists rec.fileId then
        FileManager.removeTableFile rec.fileId
        return { stats with drops := stats.drops + 1 }
      else return stats

def runSteps (steps : List RecoveryStep) (stats : RecoveryStats) : FileM RecoveryStats :=
  steps.foldlM RecoveryStep.run stats

/-- The data directory: its files and the log. -/
structure Directory where
  files : FileManager := {}
  wal : WalFile := {}

abbrev RecoverM : Type → Type := Attempt Directory Err

def onDirectory {α : Type} : FileM α → RecoverM α :=
  Attempt.onPart Directory.files fun files dir => { dir with files }

def WalFile.reset (w : WalFile) : WalFile :=
  { w with bytes := [] }

/-- The log is emptied once the files are on disk. -/
def recover (chunks : Nat → Nat) : RecoverM RecoveryStats := do
  let dir ← get
  let c ← MonadExcept.ofExcept (collect (WalReader.create dir.wal.bytes chunks).readAll)
  let stats ← onDirectory (runSteps c.redoSteps { replayed := c.replayed })
  let stats ← onDirectory (runSteps c.undoSteps stats)
  if stats.replayed = 0 then
    if dir.wal.bytes ≠ [] then modify fun dir => { dir with wal := dir.wal.reset }
    return stats
  modify fun dir => { dir with files := dir.files.flushAll }
  modify fun dir => { dir with wal := dir.wal.reset }
  return stats

end MySimpleDb.Storage
