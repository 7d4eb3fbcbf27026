import MySimpleDb.Common.Err
import MySimpleDb.Lib.Prog
import MySimpleDb.Storage.Page
import MySimpleDb.Storage.Types

/-!
# The buffer pool as its callers see it

Code that works on pages calls the pool, and reads and writes the bytes of the
pages it has pinned.  `PoolView` is the contract of these calls: a page has one
current content, wherever it is kept, as long as it is touched while pinned and
marked dirty before its pin is given up.
-/

namespace MySimpleDb.Storage

open MySimpleDb.Lib

/-- The fields of an open index tree that outlive a call. -/
structure BTree where
  rootPage : Nat := 0
  nextPageHint : Nat := 0
deriving DecidableEq, Repr

/-- Calls to the pool and the files, byte access to pinned pages, and access to
the tree object of a file. -/
inductive PoolCall
  | createTableFile (fid : Nat)
  | tableFileExists (fid : Nat)
  | pageCount (fid : Nat)
  | allocate (pid : PageId)
  | read (pid : PageId) (magic : Nat)
  | peek (pid : PageId)
  | poke (pid : PageId) (p : Page)
  | markDirty (pid : PageId)
  | unpin (pid : PageId)
  | flush (pid : PageId)
  | tree (fid : Nat)
  | setTree (fid : Nat) (t : BTree)

/-- What a call returns. -/
abbrev PoolCall.Result : PoolCall → Type
  | .tableFileExists _ => Bool
  | .pageCount _ => Nat
  | .peek _ => Page
  | .tree _ => BTree
  | _ => Unit

abbrev poolInterface : Interface := ⟨PoolCall, PoolCall.Result⟩

/-- Code over the pool. -/
abbrev PoolM : Type → Type := Prog poolInterface Err

namespace PoolM

def createTableFile (fid : Nat) : PoolM Unit :=
  Prog.perform (I := poolInterface) (.createTableFile fid)
def tableFileExists (fid : Nat) : PoolM Bool :=
  Prog.perform (I := poolInterface) (.tableFileExists fid)
def pageCount (fid : Nat) : PoolM Nat :=
  Prog.perform (I := poolInterface) (.pageCount fid)
def allocate (pid : PageId) : PoolM Unit :=
  Prog.perform (I := poolInterface) (.allocate pid)
def read (pid : PageId) (magic : Nat) : PoolM Unit :=
  Prog.perform (I := poolInterface) (.read pid magic)
def peek (pid : PageId) : PoolM Page :=
  Prog.perform (I := poolInterface) (.peek pid)
def poke (pid : PageId) (p : Page) : PoolM Unit :=
  Prog.perform (I := poolInterface) (.poke pid p)
def markDirty (pid : PageId) : PoolM Unit :=
  Prog.perform (I := poolInterface) (.markDirty pid)
def unpin (pid : PageId) : PoolM Unit :=
  Prog.perform (I := poolInterface) (.unpin pid)
def flush (pid : PageId) : PoolM Unit :=
  Prog.perform (I := poolInterface) (.flush pid)
def tree (fid : Nat) : PoolM BTree :=
  Prog.perform (I := poolInterface) (.tree fid)
def setTree (fid : Nat) (t : BTree) : PoolM Unit :=
  Prog.perform (I := poolInterface) (.setTree fid t)

end PoolM

/-! ## The contract -/

/-- What the callers of the pool can rely on. -/
structure PoolView where
  /-- Current contents. -/
  pages : PageId → Page
  /-- Pages of a file from this number on have not been allocated. -/
  top : Nat → Nat
  /-- One entry for each pin. -/
  pins : List PageId
  /-- Pages changed since they were last marked dirty. -/
  unlogged : List PageId
  trees : Nat → BTree

namespace PoolView

/-- The view with `p` as the content of `pid`. -/
def setPage (s : PoolView) (pid : PageId) (p : Page) : PoolView :=
  { s with pages := Function.update s.pages pid p }

section SetPage

variable (s : PoolView) (pid : PageId) (p : Page)

@[simp]
theorem setPage_pages : (s.setPage pid p).pages = Function.update s.pages pid p :=
  rfl

@[simp]
theorem setPage_top : (s.setPage pid p).top = s.top :=
  rfl

@[simp]
theorem setPage_pins : (s.setPage pid p).pins = s.pins :=
  rfl

@[simp]
theorem setPage_unlogged : (s.setPage pid p).unlogged = s.unlogged :=
  rfl

@[simp]
theorem setPage_trees : (s.setPage pid p).trees = s.trees :=
  rfl

end SetPage

def noFrame : Err := .raise .internal "缓冲池无可用帧(全部帧被 pin)"

def badPage (pid : PageId) (magic : Nat) : Err :=
  if magic = magicFileHeader then .critical "文件头页损坏"
  else .critical s!"数据页损坏: fid={pid.fileId} page_no={pid.pageNo}"

/-- A pin of `pid` may be refused only when `frames` pins are held already. -/
def MayRefuse (s : PoolView) (frames : Nat) (pid : PageId) : Prop :=
  pid ∉ s.pins ∧ frames ≤ s.pins.length

/-- Outcomes of each call over a pool of `frames` frames in a transaction.  Byte
access to a page that is not pinned, and giving up a page with changes that were
not marked, leave everything open. -/
inductive Step (frames : Nat) :
    (c : PoolCall) → PoolView → Except Err c.Result → PoolView → Prop
  | createTableFile (fid : Nat) (s : PoolView) (new : s.top fid = 0) :
      Step frames (.createTableFile fid) s (.ok ())
        { s with top := Function.update s.top fid 1 }
  | recreateTableFile (fid : Nat) (s s' : PoolView) (r : Except Err Unit) (old : s.top fid ≠ 0) :
      Step frames (.createTableFile fid) s r s'
  | tableFileExists (fid : Nat) (s : PoolView) :
      Step frames (.tableFileExists fid) s (.ok (s.top fid ≠ 0)) s
  | pageCount (fid count : Nat) (s : PoolView) (le : count ≤ s.top fid) :
      Step frames (.pageCount fid) s (.ok count) s
  | allocate (pid : PageId) (s : PoolView) (p : Page) (content : p = s.pages pid ∨ p = Block.zero) :
      Step frames (.allocate pid) s (.ok ())
        { s.setPage pid p with
          top := Function.update s.top pid.fileId (max (s.top pid.fileId) (pid.pageNo + 1))
          pins := pid :: s.pins }
  | allocateRefused (pid : PageId) (s : PoolView) (full : s.MayRefuse frames pid) :
      Step frames (.allocate pid) s (.error noFrame) s
  | read (pid : PageId) (magic : Nat) (s : PoolView) :
      Step frames (.read pid magic) s (.ok ()) { s with pins := pid :: s.pins }
  | readRefused (pid : PageId) (magic : Nat) (s : PoolView) (full : s.MayRefuse frames pid) :
      Step frames (.read pid magic) s (.error noFrame) s
  | readInvalid (pid : PageId) (magic : Nat) (s : PoolView)
      (invalid : pageValid (s.pages pid) magic = false) :
      Step frames (.read pid magic) s (.error (badPage pid magic)) s
  | peek (pid : PageId) (s : PoolView) (pinned : pid ∈ s.pins) :
      Step frames (.peek pid) s (.ok (s.pages pid)) s
  | peekStray (pid : PageId) (s s' : PoolView) (r : Except Err Page) (stray : pid ∉ s.pins) :
      Step frames (.peek pid) s r s'
  | poke (pid : PageId) (p : Page) (s : PoolView) (pinned : pid ∈ s.pins) :
      Step frames (.poke pid p) s (.ok ())
        { s.setPage pid p with unlogged := pid :: s.unlogged }
  | pokeStray (pid : PageId) (p : Page) (s s' : PoolView) (r : Except Err Unit)
      (stray : pid ∉ s.pins) :
      Step frames (.poke pid p) s r s'
  | markDirty (pid : PageId) (s : PoolView) (pinned : pid ∈ s.pins) :
      Step frames (.markDirty pid) s (.ok ()) { s with unlogged := s.unlogged.filter (· ≠ pid) }
  | markDirtyStray (pid : PageId) (s s' : PoolView) (r : Except Err Unit) (stray : pid ∉ s.pins) :
      Step frames (.markDirty pid) s r s'
  | unpin (pid : PageId) (s : PoolView) (pinned : pid ∈ s.pins) (logged : pid ∉ s.unlogged) :
      Step frames (.unpin pid) s (.ok ()) { s with pins := s.pins.erase pid }
  | unpinStray (pid : PageId) (s s' : PoolView) (r : Except Err Unit)
      (stray : pid ∉ s.pins ∨ pid ∈ s.unlogged) :
      Step frames (.unpin pid) s r s'
  | flush (pid : PageId) (s : PoolView) (logged : pid ∉ s.unlogged) :
      Step frames (.flush pid) s (.ok ()) s
  | flushUnlogged (pid : PageId) (s s' : PoolView) (r : Except Err Unit)
      (unlogged : pid ∈ s.unlogged) :
      Step frames (.flush pid) s r s'
  | tree (fid : Nat) (s : PoolView) :
      Step frames (.tree fid) s (.ok (s.trees fid)) s
  | setTree (fid : Nat) (t : BTree) (s : PoolView) :
      Step frames (.setTree fid t) s (.ok ()) { s with trees := Function.update s.trees fid t }

/-- The contract of a pool of `frames` frames. -/
abbrev sem (frames : Nat) : Prog.Semantics poolInterface Err PoolView :=
  Step frames

/-! ## Rules for the calls -/

section Rules

variable {frames : Nat} {s : PoolView}

theorem returns_createTableFile {fid : Nat} {post : Unit → PoolView → Prop}
    (new : s.top fid = 0) (holds : post () { s with top := Function.update s.top fid 1 }) :
    Prog.Returns (sem frames) (PoolM.createTableFile fid) s post := by
  apply Prog.Returns.perform
  intro r s' step
  cases step with
  | createTableFile => exact ⟨(), rfl, holds⟩
  | recreateTableFile _ _ _ _ old => exact absurd new old

theorem returns_pageCount {fid : Nat} {post : Nat → PoolView → Prop}
    (holds : ∀ count, count ≤ s.top fid → post count s) :
    Prog.Returns (sem frames) (PoolM.pageCount fid) s post := by
  apply Prog.Returns.perform
  intro r s' step
  cases step with
  | pageCount _ count _ le => exact ⟨count, rfl, holds count le⟩

/-- A page allocated for the first time is zero. -/
theorem returns_allocate {pid : PageId} {post : Unit → PoolView → Prop}
    (room : s.pins.length < frames) (new : s.pages pid = Block.zero)
    (holds : post () { s with
      top := Function.update s.top pid.fileId (max (s.top pid.fileId) (pid.pageNo + 1))
      pins := pid :: s.pins }) :
    Prog.Returns (sem frames) (PoolM.allocate pid) s post := by
  apply Prog.Returns.perform
  intro r s' step
  cases step with
  | allocate _ _ p content =>
      have same : p = s.pages pid := by
        rcases content with content | content
        · exact content
        · rw [content, new]
      refine ⟨(), rfl, ?_⟩
      simpa [setPage, same] using holds
  | allocateRefused _ _ full => exact absurd room (Nat.not_lt.mpr full.2)

theorem returns_read {pid : PageId} {magic : Nat} {post : Unit → PoolView → Prop}
    (room : s.pins.length < frames) (valid : pageValid (s.pages pid) magic = true)
    (holds : post () { s with pins := pid :: s.pins }) :
    Prog.Returns (sem frames) (PoolM.read pid magic) s post := by
  apply Prog.Returns.perform
  intro r s' step
  cases step with
  | read => exact ⟨(), rfl, holds⟩
  | readRefused _ _ _ full => exact absurd room (Nat.not_lt.mpr full.2)
  | readInvalid _ _ _ invalid =>
      rw [valid] at invalid
      cases invalid

theorem returns_peek {pid : PageId} {post : Page → PoolView → Prop} (pinned : pid ∈ s.pins)
    (holds : post (s.pages pid) s) :
    Prog.Returns (sem frames) (PoolM.peek pid) s post := by
  apply Prog.Returns.perform
  intro r s' step
  cases step with
  | peek => exact ⟨_, rfl, holds⟩
  | peekStray _ _ _ _ stray => exact absurd pinned stray

theorem returns_poke {pid : PageId} {p : Page} {post : Unit → PoolView → Prop}
    (pinned : pid ∈ s.pins)
    (holds : post () { s.setPage pid p with unlogged := pid :: s.unlogged }) :
    Prog.Returns (sem frames) (PoolM.poke pid p) s post := by
  apply Prog.Returns.perform
  intro r s' step
  cases step with
  | poke => exact ⟨(), rfl, holds⟩
  | pokeStray _ _ _ _ _ stray => exact absurd pinned stray

theorem returns_markDirty {pid : PageId} {post : Unit → PoolView → Prop}
    (pinned : pid ∈ s.pins)
    (holds : post () { s with unlogged := s.unlogged.filter (· ≠ pid) }) :
    Prog.Returns (sem frames) (PoolM.markDirty pid) s post := by
  apply Prog.Returns.perform
  intro r s' step
  cases step with
  | markDirty => exact ⟨(), rfl, holds⟩
  | markDirtyStray _ _ _ _ stray => exact absurd pinned stray

theorem returns_unpin {pid : PageId} {post : Unit → PoolView → Prop}
    (pinned : pid ∈ s.pins) (logged : pid ∉ s.unlogged)
    (holds : post () { s with pins := s.pins.erase pid }) :
    Prog.Returns (sem frames) (PoolM.unpin pid) s post := by
  apply Prog.Returns.perform
  intro r s' step
  cases step with
  | unpin => exact ⟨(), rfl, holds⟩
  | unpinStray _ _ _ _ stray =>
      rcases stray with stray | stray
      · exact absurd pinned stray
      · exact absurd stray logged

theorem returns_flush {pid : PageId} {post : Unit → PoolView → Prop}
    (logged : pid ∉ s.unlogged) (holds : post () s) :
    Prog.Returns (sem frames) (PoolM.flush pid) s post := by
  apply Prog.Returns.perform
  intro r s' step
  cases step with
  | flush => exact ⟨(), rfl, holds⟩
  | flushUnlogged _ _ _ _ unlogged => exact absurd unlogged logged

theorem returns_tree {fid : Nat} {post : BTree → PoolView → Prop}
    (holds : post (s.trees fid) s) :
    Prog.Returns (sem frames) (PoolM.tree fid) s post := by
  apply Prog.Returns.perform
  intro r s' step
  cases step with
  | tree => exact ⟨_, rfl, holds⟩

theorem returns_setTree {fid : Nat} {t : BTree} {post : Unit → PoolView → Prop}
    (holds : post () { s with trees := Function.update s.trees fid t }) :
    Prog.Returns (sem frames) (PoolM.setTree fid t) s post := by
  apply Prog.Returns.perform
  intro r s' step
  cases step with
  | setTree => exact ⟨(), rfl, holds⟩

/-- Writing a pinned page, marking it and giving up the pin. -/
theorem returns_save {α : Type} {k : PoolM α} {pid : PageId} {p : Page} {pins : List PageId}
    {post : α → PoolView → Prop} (pinned : s.pins = pid :: pins) (logged : s.unlogged = [])
    (holds : Prog.Returns (sem frames) k { s.setPage pid p with pins := pins } post) :
    Prog.Returns (sem frames)
      (do PoolM.poke pid p; PoolM.markDirty pid; PoolM.unpin pid; k) s post := by
  have mem : pid ∈ s.pins := by
    rw [pinned]
    exact List.mem_cons_self ..
  apply Prog.Returns.bind
  apply returns_poke mem
  apply Prog.Returns.bind
  refine returns_markDirty mem ?_
  apply Prog.Returns.bind
  refine returns_unpin mem ?_ ?_
  · simp [logged]
  · simpa [setPage, pinned, logged] using holds

end Rules

end PoolView

end MySimpleDb.Storage
