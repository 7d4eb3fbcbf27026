import Mathlib.Logic.Function.Basic
import MySimpleDb.Common.Err
import MySimpleDb.Lib.Attempt
import MySimpleDb.Storage.Page
import MySimpleDb.Storage.Types

/-!
# Data files

The files `t_<file_id>.dat` of the data directory page by page, as the running
process reads them.  What a power failure may leave of a file depends on the
page writes since its last fsync, so these are kept as well.
-/

namespace MySimpleDb.Storage

open MySimpleDb.Lib

/-- A page write, and how many records the log held when it was made. -/
structure PageWrite where
  pid : PageId
  data : Page
  logged : Nat

/-- The data directory. -/
structure FileManager where
  /-- Pages of each file; `none` for a file that does not exist. -/
  sizes : Nat → Option Nat := fun _ => none
  pages : PageId → Page := fun _ => Block.zero
  /-- Files held open. -/
  fds : Nat → Bool := fun _ => false
  /-- Files the operating system does not let the process open, or unlink. -/
  refused : Nat → Bool := fun _ => false
  kept : Nat → Bool := fun _ => false
  /-- Contents at the last fsync. -/
  synced : PageId → Page := fun _ => Block.zero
  /-- Page writes since then, the latest first. -/
  writes : List PageWrite := []

/-- Code on the data directory. -/
abbrev FileM : Type → Type := Attempt FileManager Err

namespace FileManager

/-- The pages of a file from `no` on read as zero. -/
def cut (pages : PageId → Page) (fid no : Nat) : PageId → Page := fun pid =>
  if pid.fileId = fid ∧ no ≤ pid.pageNo then Block.zero else pages pid

def tableFileExists (files : FileManager) (fid : Nat) : Bool :=
  (files.sizes fid).isSome

def pageCount (files : FileManager) (fid : Nat) : Nat :=
  (files.sizes fid).getD 0

/-- A file opened; one that does not exist is created empty. -/
def opened (files : FileManager) (fid : Nat) : FileManager :=
  { files with
    sizes := Function.update files.sizes fid (some (files.pageCount fid))
    fds := Function.update files.fds fid true }

def openFailed : Err := .raise .ioError "打开表文件失败: "

def fdFor (fid : Nat) : FileM Unit := do
  let files ← get
  if files.fds fid then return ()
  else if files.refused fid then throw openFailed
  else set (files.opened fid)

/-- The file cut or grown to one page. -/
def truncated (files : FileManager) (fid : Nat) : FileManager :=
  { files with
    sizes := Function.update files.sizes fid (some 1)
    pages := cut files.pages fid 1 }

def createTableFile (fid : Nat) : FileM Unit := do
  fdFor fid
  modify fun files => files.truncated fid

def unlinked (files : FileManager) (fid : Nat) : FileManager :=
  { files with
    sizes := Function.update files.sizes fid none
    pages := cut files.pages fid 0
    writes := files.writes.filter fun w => w.pid.fileId ≠ fid }

/-- The file is closed and unlinked. -/
def removeTableFile (fid : Nat) : FileM Unit := do
  modify fun files => { files with fds := Function.update files.fds fid false }
  let files ← get
  if files.kept fid then throw (.raise .ioError "删除表文件失败: ")
  else set (files.unlinked fid)

/-- Missing bytes read as zero. -/
def readPage (pid : PageId) : FileM Page := do
  fdFor pid.fileId
  return (← get).pages pid

/-- A page written; the file grows to hold it, and pages between are holes. -/
def stored (files : FileManager) (pid : PageId) (data : Page) (logged : Nat) : FileManager :=
  { files with
    sizes := Function.update files.sizes pid.fileId
      (some (max (files.pageCount pid.fileId) (pid.pageNo + 1)))
    pages := Function.update files.pages pid data
    writes := ⟨pid, data, logged⟩ :: files.writes }

def writePage (pid : PageId) (data : Page) (logged : Nat) : FileM Unit := do
  fdFor pid.fileId
  modify fun files => files.stored pid data logged

/-- All files are fsynced. -/
def flushAll (files : FileManager) : FileManager :=
  { files with synced := files.pages, writes := [] }

/-! ## Files that can be opened -/

/-- A file that is open, or that the operating system lets the process open. -/
def Opens (files : FileManager) (fid : Nat) : Prop :=
  files.fds fid = true ∨ files.refused fid = false

section

open Attempt

variable {files : FileManager} {fid : Nat} {pid : PageId}

/-- A file that is open stays as it is, another is opened unless it is refused. -/
theorem fdFor_ends :
    Ends (fdFor fid) files
      (fun _ files' => (files.fds fid = true ∧ files' = files) ∨
        (files.refused fid = false ∧ files' = files.opened fid))
      fun _ files' => files' = files ∧ files.fds fid = false ∧ files.refused fid = true := by
  simp only [fdFor, ends_bind, ends_get, ends_ite, ends_pure, ends_throw]
  by_cases isOpen : files.fds fid = true
  · rw [if_pos isOpen]
    exact .inl ⟨isOpen, trivial⟩
  · rw [if_neg isOpen]
    by_cases refused : files.refused fid = true
    · rw [if_pos refused]
      exact ⟨trivial, Bool.eq_false_iff.mpr isOpen, refused⟩
    · rw [if_neg refused]
      exact .inr ⟨Bool.eq_false_iff.mpr refused, rfl⟩

theorem readPage_ends :
    Ends (readPage pid) files
      (fun data files' => data = files.pages pid ∧ files'.pages = files.pages)
      fun _ files' => files' = files ∧ files.fds pid.fileId = false ∧
        files.refused pid.fileId = true := by
  simp only [readPage, ends_bind, ends_get, ends_pure]
  apply fdFor_ends.mono
  · rintro - files' (⟨-, rfl⟩ | ⟨-, rfl⟩) <;> exact ⟨rfl, rfl⟩
  · exact fun _ _ why => why

theorem writePage_ends {data : Page} {logged : Nat} :
    Ends (writePage pid data logged) files
      (fun _ files' => files'.pages = Function.update files.pages pid data)
      fun _ files' => files' = files ∧ files.fds pid.fileId = false ∧
        files.refused pid.fileId = true := by
  simp only [writePage, ends_bind, ends_modify]
  apply fdFor_ends.mono
  · rintro - files' (⟨-, rfl⟩ | ⟨-, rfl⟩) <;> rfl
  · exact fun _ _ why => why

/-- Opening a file that is not refused does not change what can be opened. -/
theorem opens_opened {other : Nat} (allowed : files.refused other = false) :
    (files.opened other).Opens fid ↔ files.Opens fid := by
  by_cases same : fid = other
  · subst same
    simp [Opens, opened, allowed]
  · simp [Opens, opened, Function.update_of_ne same]

/-- A page read changes no page, nor what can be opened. -/
theorem readPage_opens :
    Ends (readPage pid) files
      (fun data files' => data = files.pages pid ∧ files'.pages = files.pages ∧
        (∀ fid, files'.Opens fid ↔ files.Opens fid) ∧ files.Opens pid.fileId)
      fun _ files' => files' = files ∧ ¬ files.Opens pid.fileId := by
  simp only [readPage, ends_bind, ends_get, ends_pure]
  apply fdFor_ends.mono
  · rintro - files' (⟨isOpen, rfl⟩ | ⟨allowed, rfl⟩)
    · exact ⟨rfl, rfl, fun _ => Iff.rfl, .inl isOpen⟩
    · exact ⟨rfl, rfl, fun _ => opens_opened allowed, .inr allowed⟩
  · rintro - files' ⟨rfl, closed, refused⟩
    refine ⟨rfl, ?_⟩
    simp [Opens, closed, refused]

theorem writePage_opens {data : Page} {logged : Nat} :
    Ends (writePage pid data logged) files
      (fun _ files' => files'.pages = Function.update files.pages pid data ∧
        ∀ fid, files'.Opens fid ↔ files.Opens fid)
      fun _ files' => files' = files ∧ ¬ files.Opens pid.fileId := by
  simp only [writePage, ends_bind, ends_modify]
  apply fdFor_ends.mono
  · rintro - files' (⟨-, rfl⟩ | ⟨allowed, rfl⟩)
    · exact ⟨rfl, fun _ => Iff.rfl⟩
    · exact ⟨rfl, fun _ => opens_opened allowed⟩
  · rintro - files' ⟨rfl, closed, refused⟩
    refine ⟨rfl, ?_⟩
    simp [Opens, closed, refused]

end

/-! ## Beyond the end of a file -/

/-- Nothing is behind the end of a file. -/
def Sound (files : FileManager) : Prop :=
  ∀ pid, files.pageCount pid.fileId ≤ pid.pageNo → files.pages pid = Block.zero

section

variable {files : FileManager} {fid : Nat}

@[simp]
theorem pageCount_opened (other : Nat) :
    (files.opened fid).pageCount other = files.pageCount other := by
  by_cases same : other = fid
  · subst same
    simp [pageCount, opened]
  · simp [pageCount, opened, same]

theorem pageCount_stored {pid : PageId} {data : Page} {logged : Nat} (other : Nat) :
    (files.stored pid data logged).pageCount other =
      if other = pid.fileId then max (files.pageCount pid.fileId) (pid.pageNo + 1)
      else files.pageCount other := by
  by_cases same : other = pid.fileId
  · subst same
    simp [pageCount, stored]
  · simp [pageCount, stored, same]

theorem Sound.opened (sound : files.Sound) : (files.opened fid).Sound := by
  intro pid beyond
  rw [pageCount_opened] at beyond
  exact sound pid beyond

theorem Sound.stored (sound : files.Sound) {pid : PageId} {data : Page} {logged : Nat} :
    (files.stored pid data logged).Sound := by
  intro other beyond
  rw [pageCount_stored] at beyond
  have apart : other ≠ pid := by
    rintro rfl
    rw [if_pos rfl] at beyond
    omega
  have unchanged : (files.stored pid data logged).pages other = files.pages other :=
    Function.update_of_ne apart ..
  rw [unchanged]
  apply sound
  split at beyond
  · rename_i same
    rw [same]
    omega
  · exact beyond

theorem Sound.truncated (sound : files.Sound) : (files.truncated fid).Sound := by
  intro pid beyond
  change cut files.pages fid 1 pid = Block.zero
  by_cases same : pid.fileId = fid
  · have cutOff : 1 ≤ pid.pageNo := by simpa [pageCount, FileManager.truncated, same] using beyond
    rw [cut, if_pos ⟨same, cutOff⟩]
  · rw [cut, if_neg (by simp [same])]
    apply sound
    simpa [pageCount, FileManager.truncated, same] using beyond

theorem Sound.unlinked (sound : files.Sound) : (files.unlinked fid).Sound := by
  intro pid beyond
  change cut files.pages fid 0 pid = Block.zero
  by_cases same : pid.fileId = fid
  · rw [cut, if_pos ⟨same, Nat.zero_le _⟩]
  · rw [cut, if_neg (by simp [same])]
    apply sound
    simpa [pageCount, FileManager.unlinked, same] using beyond

theorem Sound.pages_of_absent (sound : files.Sound) (absent : files.sizes fid = none) (no : Nat) :
    files.pages ⟨fid, no⟩ = Block.zero := by
  apply sound
  simp [pageCount, absent]

end

end FileManager

end MySimpleDb.Storage
