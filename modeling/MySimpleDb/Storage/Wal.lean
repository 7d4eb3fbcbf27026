import MySimpleDb.Storage.FileManager

/-!
# The write-ahead log

The records of `wal.log` since it was last emptied, and how many of them an
fsync has covered.  `overlay` is what the after-halves of the records make of the
pages there were before.
-/

namespace MySimpleDb.Storage

open MySimpleDb.Lib

/-- What a record of the log says.  A patch holds the bytes from `off` on after and before
a change. -/
inductive LogRecord
  | pagePatch (txn : Nat) (pid : PageId) (off : Nat) (after before : List UInt8)
  | dropFile (txn fid : Nat)
  | commit (txn : Nat)
  | abort (txn : Nat)
deriving DecidableEq, Repr

namespace LogRecord

def txn : LogRecord → Nat
  | .pagePatch txn _ _ _ _ => txn
  | .dropFile txn _ => txn
  | .commit txn => txn
  | .abort txn => txn

/-- The after-half of a patch over its page. -/
def redo (r : LogRecord) (pages : PageId → Page) : PageId → Page :=
  match r with
  | .pagePatch _ pid off after _ => Function.update pages pid ((pages pid).write off after)
  | _ => pages

/-- The before-half of a patch over its page. -/
def undo (r : LogRecord) (pages : PageId → Page) : PageId → Page :=
  match r with
  | .pagePatch _ pid off _ before => Function.update pages pid ((pages pid).write off before)
  | _ => pages

end LogRecord

/-- The pages under the after-halves of all patches in the order of the log. -/
def overlay (records : List LogRecord) (pages : PageId → Page) : PageId → Page :=
  records.foldl (fun pages r => r.redo pages) pages

/-- `wal.log`, and the next transaction number. -/
structure Wal where
  records : List LogRecord := []
  /-- Records that an fsync has covered. -/
  synced : Nat := 0
  nextTxnId : Nat := 1

namespace Wal

def append (wal : Wal) (r : LogRecord) : Wal :=
  { wal with records := wal.records ++ [r] }

def sync (wal : Wal) : Wal :=
  { wal with synced := wal.records.length }

def reset (wal : Wal) : Wal :=
  { wal with records := [], synced := 0 }

end Wal

/-! ## Overlays -/

section Overlay

variable {records : List LogRecord} {pages : PageId → Page}

@[simp]
theorem overlay_nil : overlay [] pages = pages :=
  rfl

theorem overlay_append (records' : List LogRecord) :
    overlay (records ++ records') pages = overlay records' (overlay records pages) :=
  List.foldl_append

@[simp]
theorem overlay_singleton (r : LogRecord) : overlay [r] pages = r.redo pages :=
  rfl

/-- Records of other pages leave a page as it is. -/
theorem overlay_of_apart {pid : PageId}
    (apart : ∀ r ∈ records, ∀ txn off after before, r ≠ .pagePatch txn pid off after before) :
    overlay records pages pid = pages pid := by
  induction records generalizing pages with
  | nil => rfl
  | cons r records inductionHypothesis =>
      have first : r.redo pages pid = pages pid := by
        cases r with
        | pagePatch txn pid' off after before =>
            apply Function.update_of_ne
            rintro rfl
            exact apart _ List.mem_cons_self txn off after before rfl
        | dropFile txn fid => rfl
        | commit txn => rfl
        | abort txn => rfl
      refine (inductionHypothesis ?_).trans first
      exact fun r mem => apart r (List.mem_cons_of_mem _ mem)

end Overlay

end MySimpleDb.Storage
