import MySimpleDb.Storage.IndexCrash
import MySimpleDb.Storage.TailPage

/-!
# Statements on table files

The operations of the engine on the rows of one table file, in a transaction: each does on
the pages what it does on the heap file that they hold.
-/

namespace MySimpleDb.Storage

open MySimpleDb.Lib Attempt Engine

variable {frames fid : Nat} {own own' : PageId → Page → Prop} {e e' e'' : Engine}
  {st st' st'' : TxnStore} {s s' : PoolView} {h : HeapFile} {tail : Nat}

/-! ## Plain programs -/

section Plain

namespace TableFile

theorem plain_takeRowid : PlainPool (takeRowid fid) := by
  unfold takeRowid
  refine (plain_read (show magicFileHeader ≠ 0 by decide)).bind fun _ => ?_
  refine (Prog.Plain.perform trivial).bind fun p => ?_
  exact plain_save (Prog.Plain.pure _)

theorem plain_linkHeaderToFirstDataPage : PlainPool (linkHeaderToFirstDataPage fid) := by
  unfold linkHeaderToFirstDataPage
  refine (plain_read (show magicFileHeader ≠ 0 by decide)).bind fun _ => ?_
  refine (Prog.Plain.perform trivial).bind fun _ => plain_save ?_
  exact (Prog.Plain.perform trivial).bind fun p => plain_save (Prog.Plain.pure _)

theorem plain_extend : PlainPool (extend fid tail) := by
  unfold extend
  refine (Prog.Plain.perform trivial).bind fun count => ?_
  refine (Prog.Plain.perform trivial).bind fun _ => plain_save ?_
  exact (Prog.Plain.perform trivial).bind fun p => plain_save (Prog.Plain.pure _)

theorem plain_insertLoop {rec : Bytes} {fuel : Nat} :
    PlainPool (insertLoop fid rec fuel tail) := by
  induction fuel generalizing tail with
  | zero => exact Prog.Plain.raise _
  | succ fuel inductionHypothesis =>
      unfold insertLoop
      refine (plain_read (show magicHeap ≠ 0 by decide)).bind fun _ => ?_
      refine (Prog.Plain.perform trivial).bind fun p => ?_
      cases heapAppend p rec with
      | none => exact plain_extend.bind fun no => inductionHypothesis
      | some taken => exact plain_save (Prog.Plain.pure _)

theorem plain_deleteSlot {ref : RowRef} : PlainPool (deleteSlot ref) := by
  unfold deleteSlot
  refine (plain_read (show magicHeap ≠ 0 by decide)).bind fun _ => ?_
  refine (Prog.Plain.perform trivial).bind fun p => ?_
  refine Prog.Plain.ite ?_ (plain_save (Prog.Plain.pure _))
  exact (Prog.Plain.perform trivial).bind fun _ => Prog.Plain.pure _

theorem plain_lift {α : Type} (r : Res α) : PlainPool (Prog.lift r) := by
  cases r with
  | ok a => exact Prog.Plain.pure a
  | error err => exact Prog.Plain.raise err

theorem plain_readSlot {ref : RowRef} {cols : List ColumnSpec} :
    PlainPool (readSlot ref cols) := by
  unfold readSlot
  refine (plain_read (show magicHeap ≠ 0 by decide)).bind fun _ => ?_
  refine (Prog.Plain.perform trivial).bind fun p => Prog.Plain.ite ?_ ?_
  · exact (Prog.Plain.perform trivial).bind fun _ => Prog.Plain.pure _
  · refine (plain_lift _).bind fun values? => ?_
    cases values? with
    | none => exact (Prog.Plain.perform trivial).bind fun _ => Prog.Plain.raise _
    | some values => exact (Prog.Plain.perform trivial).bind fun _ => Prog.Plain.pure _

section Walk

variable {α : Type} {visit : PageId → Page → Res (List α)}

theorem plain_walkFrom {fuel no : Nat} : PlainPool (walkFrom visit fid fuel no) := by
  induction fuel generalizing no with
  | zero => exact Prog.Plain.raise _
  | succ fuel inductionHypothesis =>
      unfold walkFrom
      refine Prog.Plain.ite (Prog.Plain.pure _) ?_
      refine (plain_read (show magicHeap ≠ 0 by decide)).bind fun _ => ?_
      refine (Prog.Plain.perform trivial).bind fun p => (plain_lift _).bind fun here => ?_
      refine (Prog.Plain.perform trivial).bind fun _ => ?_
      exact inductionHypothesis.bind fun rest => Prog.Plain.pure _

theorem plain_walk : PlainPool (walk visit fid) := by
  unfold walk
  refine (plain_read (show magicFileHeader ≠ 0 by decide)).bind fun _ => ?_
  refine (Prog.Plain.perform trivial).bind fun p => ?_
  exact (Prog.Plain.perform trivial).bind fun _ => plain_walkFrom

end Walk

end TableFile

namespace RowScanner

variable {scan : RowScanner}

theorem plain_release : PlainPool scan.release := by
  unfold release
  cases scan.cur with
  | none => exact Prog.Plain.pure _
  | some no => exact Prog.Plain.perform trivial

theorem plain_advancePage : PlainPool scan.advancePage := by
  unfold advancePage
  refine plain_release.bind fun _ => Prog.Plain.ite (Prog.Plain.pure _) ?_
  refine (plain_read (show magicHeap ≠ 0 by decide)).bind fun _ => ?_
  exact (Prog.Plain.perform trivial).bind fun p => Prog.Plain.pure _

theorem plain_nextLoop {fuel : Nat} : PlainPool (nextLoop fuel scan) := by
  induction fuel generalizing scan with
  | zero => exact Prog.Plain.raise _
  | succ fuel inductionHypothesis =>
      unfold nextLoop
      have advances : PlainPool (do
          let scan ← scan.advancePage
          if scan.isDone then return (none, scan)
          else nextLoop fuel scan) :=
        plain_advancePage.bind fun _ => Prog.Plain.ite (Prog.Plain.pure _) inductionHypothesis
      cases scan.cur with
      | none => exact advances
      | some no =>
          refine (Prog.Plain.perform trivial).bind fun p => ?_
          cases liveFrom p scan.slot with
          | none => exact advances
          | some i => exact (TableFile.plain_lift _).bind fun values => Prog.Plain.pure _

theorem plain_nexts {calls : Nat} : PlainPool (nexts calls scan) := by
  induction calls generalizing scan with
  | zero => exact Prog.Plain.pure _
  | succ calls inductionHypothesis =>
      unfold nexts
      refine (Prog.Plain.ite (Prog.Plain.pure _) plain_nextLoop).bind fun r => ?_
      exact inductionHypothesis.bind fun rest => Prog.Plain.pure _

theorem plain_scan {cols : List ColumnSpec} {calls : Nat} : PlainPool (RowScanner.scan fid cols calls) := by
  unfold RowScanner.scan create
  refine Prog.Plain.bind ?_ fun scan => ?_
  · refine (plain_read (show magicFileHeader ≠ 0 by decide)).bind fun _ => ?_
    refine (Prog.Plain.perform trivial).bind fun p => ?_
    exact (Prog.Plain.perform trivial).bind fun _ => Prog.Plain.pure _
  · refine plain_nexts.bind fun r => ?_
    exact (plain_release.bind fun _ => Prog.Plain.pure _).bind fun _ => Prog.Plain.pure _

end RowScanner

theorem plain_initTable : PlainPool (initTable fid) := by
  unfold initTable
  refine (Prog.Plain.perform trivial).bind fun _ => ?_
  refine (Prog.Plain.perform trivial).bind fun _ => plain_save ?_
  exact Prog.Plain.perform trivial

end Plain

/-! ## What a statement leaves alone -/

/-- The tails as a rollback puts them. -/
def Engine.tailsBefore (e : Engine) : Nat → Option Nat :=
  e.tailUndo.reverse.foldl (fun tails u => Function.update tails u.fid u.old) e.tailPages

/-- Nothing was committed, the tails of other files are as before, and so are those that a
rollback puts back; what is undone besides is in the file `fid`. -/
structure Leaves (fid : Nat) (e : Engine) (st : TxnStore) (e' : Engine) (st' : TxnStore) : Prop where
  same : st.SameCommitted st'
  before : e'.tailsBefore = e.tailsBefore
  tails : ∀ f, f ≠ fid → e'.tailPages f = e.tailPages f
  undo : ∀ u ∈ e'.undo, u ∈ e.undo ∨ u.pid.fileId = fid
  disk : ∀ {f tail}, f ≠ fid → TailOnDisk e f tail → TailOnDisk e' f tail

theorem Leaves.refl (fid : Nat) (e : Engine) (st : TxnStore) : Leaves fid e st e st :=
  ⟨.refl st, rfl, fun _ _ => rfl, fun _ => .inl, fun _ on_disk => on_disk⟩

theorem Leaves.trans (first : Leaves fid e st e' st') (second : Leaves fid e' st' e'' st'') :
    Leaves fid e st e'' st'' where
  same := first.same.trans second.same
  before := second.before.trans first.before
  tails f apart := (second.tails f apart).trans (first.tails f apart)
  undo u mem := (second.undo u mem).elim (first.undo u) .inr
  disk apart on_disk := second.disk apart (first.disk apart on_disk)

theorem KeepsTails.leaves (kept : KeepsTails own e e')
    (owned : ∀ pid p, own pid p → pid.fileId = fid) (same : st.SameCommitted st') :
    Leaves fid e st e' st' where
  same := same
  before := by rw [Engine.tailsBefore, kept.tails, kept.tailUndo, Engine.tailsBefore]
  tails f _ := congrFun kept.tails f
  undo u mem := (kept.undo u mem).imp id fun ⟨p, own⟩ => owned u.pid p own
  disk apart := kept.disk
    ⟨fun no p own => absurd (owned _ p own) apart, fun _ p own => absurd (owned _ p own) apart⟩

/-- A new tail that is tracked is forgotten by a rollback. -/
theorem trackTail_leaves (tail : Nat) (active : e.txn.isSome = true) :
    Leaves fid e st (trackTail fid tail e) st := by
  obtain ⟨txn, txn_eq⟩ := Option.isSome_iff_exists.mp active
  have undo : (trackTail fid tail e).tailUndo = e.tailUndo ++ [⟨fid, e.tailPages fid⟩] := by
    rw [Engine.tailUndo, Engine.tailUndo, trackTail, txn_eq]
    rfl
  refine ⟨.refl st, ?_, fun f apart => Function.update_of_ne apart .., fun u mem => ?_,
    fun _ on_disk => ⟨on_disk.beyond, on_disk.there⟩⟩
  · have back : Function.update (Function.update e.tailPages fid (some tail)) fid
        (e.tailPages fid) = e.tailPages := by
      rw [Function.update_idem, Function.update_eq_self]
    rw [Engine.tailsBefore, undo, List.reverse_append, List.foldl_append]
    exact congrArg (fun tails => e.tailUndo.reverse.foldl
      (fun tails u => Function.update tails u.fid u.old) tails) back
  · left
    rw [Engine.undo, trackTail, txn_eq] at mem
    rw [Engine.undo, txn_eq]
    exact mem

/-! ## The tail of a file -/

/-- The tail of the file is remembered, or else it is found on disk. -/
def Engine.KnowsTail (e : Engine) (fid tail : Nat) : Prop :=
  e.tailPages fid = some tail ∨ e.tailPages fid = none ∧ TailOnDisk e fid tail

theorem Engine.KnowsTail.keep (known : e.KnowsTail fid tail) (kept : KeepsTails own e e')
    (spares : Spares own fid tail) : e'.KnowsTail fid tail := by
  rcases known with remembered | ⟨forgotten, on_disk⟩
  · exact .inl ((congrFun kept.tails fid).trans remembered)
  · exact .inr ⟨(congrFun kept.tails fid).trans forgotten, kept.disk spares on_disk⟩

/-- What callers may change is theirs to say. -/
theorem Working.owning (working : Working frames own e st s)
    (owned : ∀ pid p, own' pid p → pid.Numbered ∧ pid.fileId ∉ st.drops) :
    Working frames own' e st s :=
  ⟨working.shows, working.reached, owned⟩

/-- A page read past the pool. -/
theorem Working.look (working : Working frames own e st s) (pid : PageId) :
    ∃ e', (onFiles (FileManager.readPage pid)).exit e = (.ok (e.files.pages pid), e') ∧
      Working frames own e' st s ∧ Moved e e' ∧ e'.files.pages = e.files.pages := by
  have shows := working.shows
  obtain ⟨data, e', exited, rfl, moved, backed, pins, pages, -⟩ :=
    (readPage_moved shows.backed).exits
  have reached := working.reached.look pid
  rw [exited] at reached
  refine ⟨e', exited, ⟨?_, reached, working.own⟩, moved, pages⟩
  exact shows.moved moved backed fun other => by rw [pins]; exact shows.pins other

/-- The search from a page at or behind the tail ends at the tail. -/
theorem Working.diskTailFrom (working : Working frames own e st s)
    (on_disk : TailOnDisk e fid tail) {from_no : Nat} (behind : tail ≤ from_no) :
    ∃ e', (diskTailFrom fid from_no).exit e = (.ok tail, e') ∧ Working frames own e' st s ∧
      Moved e e' := by
  induction from_no generalizing e with
  | zero =>
      obtain rfl := Nat.le_zero.mp behind
      exact ⟨e, rfl, working, .refl e⟩
  | succ no inductionHypothesis =>
      obtain ⟨e₁, looked, working₁, moved₁, -⟩ := working.look ⟨fid, no + 1⟩
      rcases Nat.lt_or_ge no tail with last | before
      · obtain rfl : tail = no + 1 := by omega
        have there := (on_disk.there (by omega)).1
        have ends : Ends (Engine.diskTailFrom fid (no + 1)) e
            (fun found e' => found = no + 1 ∧ e' = e₁) fun _ _ => False := by
          simp only [Engine.diskTailFrom, ends_bind]
          apply Ends.of_exit looked
          rw [if_neg (by simpa [pageAllZero] using there)]
          exact ⟨rfl, rfl⟩
        obtain ⟨_, _, exited, rfl, rfl⟩ := ends.exits
        exact ⟨_, exited, working₁, moved₁⟩
      · have zero := (on_disk.beyond (no + 1) (by omega)).1
        obtain ⟨e₂, exited₂, working₂, moved₂⟩ :=
          inductionHypothesis working₁ (on_disk.moved moved₁) before
        have ends : Ends (Engine.diskTailFrom fid (no + 1)) e
            (fun found e' => found = tail ∧ e' = e₂) fun _ _ => False := by
          simp only [Engine.diskTailFrom, ends_bind]
          apply Ends.of_exit looked
          rw [if_pos (by simpa [pageAllZero] using zero)]
          exact Ends.of_exit exited₂ ⟨rfl, rfl⟩
        obtain ⟨_, _, exited, rfl, rfl⟩ := ends.exits
        exact ⟨_, exited, working₂, moved₁.trans moved₂⟩

theorem TailOnDisk.below (on_disk : TailOnDisk e fid tail) (sound : e.files.Sound) :
    tail ≤ e.files.pageCount fid - 1 := by
  by_contra above
  obtain ⟨there, -⟩ := on_disk.there (by omega)
  exact there (sound ⟨fid, tail⟩ (by change e.files.pageCount fid ≤ tail; omega))

/-- `insert_row` begins at the tail. -/
theorem Working.tailPage (working : Working frames own e st s)
    (known : e.KnowsTail fid tail) :
    ∃ e', (tailPage fid).exit e = (.ok tail, e') ∧ Working frames own e' st s ∧ Moved e e' := by
  rcases known with remembered | ⟨forgotten, on_disk⟩
  · have ends : Ends (Engine.tailPage fid) e (fun found e' => found = tail ∧ e' = e)
        fun _ _ => False := by
      simp only [Engine.tailPage, ends_bind, ends_get, remembered]
      exact ⟨rfl, rfl⟩
    obtain ⟨_, _, exited, rfl, rfl⟩ := ends.exits
    exact ⟨_, exited, working, .refl _⟩
  · obtain ⟨e', searched, working', moved⟩ :=
      working.diskTailFrom on_disk (on_disk.below working.shows.backed.sound)
    have ends : Ends (Engine.tailPage fid) e (fun found e₁ => found = tail ∧ e₁ = e')
        fun _ _ => False := by
      simp only [Engine.tailPage, Engine.diskTailPage, ends_bind, ends_get, forgotten]
      exact Ends.of_exit searched ⟨rfl, rfl⟩
    obtain ⟨_, _, exited, rfl, rfl⟩ := ends.exits
    exact ⟨_, exited, working', moved⟩

/-! ## Files of rows in a transaction -/

/-- The pages of one table file. -/
def rowPages (fid : Nat) (pid : PageId) (_ : Page) : Prop :=
  pid.fileId = fid ∧ pid.pageNo < 2 ^ 32

/-- In a transaction and with no page pinned, the file holds the rows and its tail is known. -/
structure HoldsRows (frames fid : Nat) (e : Engine) (st : TxnStore) (s : PoolView)
    (h : HeapFile) : Prop where
  working : Working frames noPage e st s
  file : RowFile s fid h
  tail : e.KnowsTail fid h.tail
  unpinned : s.pins = []
  logged : s.unlogged = []
  none_dropped : st.drops = []
  named : fid ≠ 0 ∧ fid < 2 ^ 64

/-- A program on the pages of one file. -/
theorem Working.onFile {α : Type} {p : PoolM α} {post : α → PoolView → Prop}
    (working : Working frames noPage e st s) (none_dropped : st.drops = [])
    (named : fid ≠ 0 ∧ fid < 2 ^ 64) (plain : PlainPool p)
    (owned : ∀ pid p, own pid p → pid.fileId = fid ∧ pid.pageNo < 2 ^ 32)
    (returns : Prog.Returns (PoolView.strict frames own) p s post) :
    ∃ a e' st' s', (PoolM.run p).exit e = (.ok a, e') ∧ Working frames noPage e' st' s' ∧
      KeepsTails own e e' ∧ Leaves fid e st e' st' ∧ post a s' := by
  have working : Working frames own e st s := by
    refine working.owning fun pid p own => ?_
    obtain ⟨rfl, lt⟩ := owned pid p own
    rw [none_dropped]
    exact ⟨⟨named.1, named.2, lt⟩, List.not_mem_nil⟩
  obtain ⟨a, e', st', s', exited, working', same, kept, post⟩ :=
    working.program_tails plain returns
  exact ⟨a, e', st', s', exited, working'.owning fun _ _ never => never.elim, kept,
    kept.leaves (fun pid p own => (owned pid p own).1) same, post⟩

namespace HoldsRows

theorem program {α : Type} {p : PoolM α} {post : α → PoolView → Prop}
    (holds : HoldsRows frames fid e st s h) (plain : PlainPool p)
    (owned : ∀ pid p, own pid p → pid.fileId = fid ∧ pid.pageNo < 2 ^ 32)
    (returns : Prog.Returns (PoolView.strict frames own) p s post) :
    ∃ a e' st' s', (PoolM.run p).exit e = (.ok a, e') ∧ Working frames noPage e' st' s' ∧
      KeepsTails own e e' ∧ Leaves fid e st e' st' ∧ post a s' :=
  holds.working.onFile holds.none_dropped holds.named plain owned returns

/-- A program that changes no page. -/
theorem reads {α : Type} {p : PoolM α} {a : α} (holds : HoldsRows frames fid e st s h)
    (plain : PlainPool p)
    (returns : Prog.Returns (PoolView.strict frames noPage) p s fun b s' => b = a ∧ s' = s) :
    ∃ e' st', (PoolM.run p).exit e = (.ok a, e') ∧ HoldsRows frames fid e' st' s h ∧
      KeepsTails noPage e e' ∧ st.SameCommitted st' := by
  obtain ⟨_, e', st', _, exited, working', kept, leaves, rfl, rfl⟩ :=
    holds.program plain (fun _ _ never => never.elim) returns
  exact ⟨e', st', exited, ⟨working', holds.file,
    holds.tail.keep kept ⟨fun _ _ never => never.elim, fun _ _ never => never.elim⟩,
    holds.unpinned, holds.logged, leaves.same.drops.trans holds.none_dropped, holds.named⟩, kept,
    leaves.same⟩

/-! ### Insertion -/

/-- The row id is taken from the header page. -/
theorem takeRowid (holds : HoldsRows frames fid e st s h) (room : 0 < frames) :
    ∃ e' st' s', (PoolM.run (TableFile.takeRowid fid)).exit e =
        (.ok ((h.nextRowid + 1) % 2 ^ 64), e') ∧
      HoldsRows frames fid e' st' s' { h with nextRowid := (h.nextRowid + 1) % 2 ^ 64 } ∧
      OnlyFile s s' fid ∧ s'.top = s.top ∧ Leaves fid e st e' st' := by
  let own : PageId → Page → Prop := fun pid _ => pid = ⟨fid, 0⟩
  have owned : ∀ pid p, own pid p → pid.fileId = fid ∧ pid.pageNo < 2 ^ 32 := by
    rintro _ - rfl
    exact ⟨rfl, Nat.two_pow_pos 32⟩
  obtain ⟨rid, e', st', s', exited, working', kept, leaves, rid_eq, file', only, top⟩ :=
    holds.program TableFile.plain_takeRowid owned
      (takeRowid_spec (fun _ => rfl) holds.file holds.logged (by rw [holds.unpinned]; exact room))
  subst rid_eq
  have spares : Spares own fid h.tail := by
    refine ⟨fun no p own above => ?_, fun some p own => ?_⟩
    · cases own
      exact absurd above (Nat.not_lt_zero _)
    · exact absurd (congrArg PageId.pageNo own) some
  exact ⟨e', st', s', exited, ⟨working', file', holds.tail.keep kept spares,
    only.pins.trans holds.unpinned, only.logged, leaves.same.drops.trans holds.none_dropped,
    holds.named⟩, only, top, leaves⟩

end HoldsRows

/-- The first data page has its number whatever is on disk. -/
theorem HeapFile.WellFormed.link_count (wellFormed : h.WellFormed) (count : Nat) :
    (if h.tail = 0 then h.extend 0 else h) = if h.tail = 0 then h.extend count else h := by
  split
  · rename_i empty
    have no_pages := (HeapFile.tail_eq_zero wellFormed).mp empty
    rw [HeapFile.extend, if_pos no_pages, HeapFile.extend, if_pos no_pages]
  · rfl

theorem HeapFile.WellFormed.deleteRow_nos (wellFormed : h.WellFormed) {a : HeapPage}
    (mem : a ∈ h.pages) {ref : RowRef} (no : ref.page.pageNo = a.no) {count n : Nat} {h' : HeapFile}
    (deleted : HeapFile.deleteRow count h ref = .ok (h', n)) :
    h'.pages.map HeapPage.no = h.pages.map HeapPage.no := by
  rw [wellFormed.deleteRow_eq mem no] at deleted
  split at deleted
  · cases deleted
    rfl
  · cases deleted
    exact HeapFile.map_no_setPage h _

/-- The insertion of a record behind the choice of its row id. -/
theorem HeapFile.insertRow_eq (fid : Nat) {cols : List ColumnSpec} {values : List Value} {rec : Bytes}
    {count rid : Nat} {h₁ h₂ h' : HeapFile} {no slot : Nat}
    (encoded : encodeRow cols values = .ok (some rec)) (legal : rec.length ≤ maxRecordLen)
    (taken : rid = (h.nextRowid + 1) % 2 ^ 64) (first : h₁ = { h with nextRowid := rid })
    (linked : h₂ = if h₁.tail = 0 then h₁.extend count else h₁)
    (looped : HeapFile.insertLoop count rec 2 h₂ = .ok (h', no, slot)) :
    HeapFile.insertRow fid count h cols values = .ok (h', rid, ⟨⟨fid, no⟩, slot⟩) := by
  subst taken first linked
  rw [HeapFile.insertRow, encoded, Res.bind_ok]
  simp only
  rw [if_neg (by omega), looped]
  rfl

theorem Working.trackTail (working : Working frames own e st s) (fid tail : Nat) :
    Working frames own (trackTail fid tail e) st s := by
  obtain ⟨txn, active⟩ := Option.isSome_iff_exists.mp working.shows.active
  have tracked := working.track e.trees (Function.update e.tailPages fid (some tail))
    (txn.tailUndo ++ [⟨fid, e.tailPages fid⟩])
  have engine : e.tracking e.trees (Function.update e.tailPages fid (some tail))
      (txn.tailUndo ++ [⟨fid, e.tailPages fid⟩]) = Engine.trackTail fid tail e := by
    rw [tracking, Engine.trackTail, active]
    rfl
  have view : { s with trees := fun fid => (e.trees fid).getD {} } = s := by
    rw [funext working.shows.trees]
  rwa [engine, view] at tracked

namespace HoldsRows

theorem owns_rowPages (fid : Nat) : PoolView.Owns (rowPages fid) fid :=
  fun _ lt _ => ⟨rfl, lt⟩

/-- A file without data pages gets its first one. -/
theorem link (holds : HoldsRows frames fid e st s h) (room : 1 < frames) {h' : HeapFile}
    (linked : h' = if h.tail = 0 then h.extend 0 else h) :
    ∃ e' st' s', ((if h.tail = 0 then PoolM.run (TableFile.linkHeaderToFirstDataPage fid)
        else pure h.tail : EngineM Nat)).exit e = (.ok h'.tail, e') ∧
      Working frames noPage e' st' s' ∧ RowFile s' fid h' ∧ h'.pages ≠ [] ∧ OnlyFile s s' fid ∧
      s'.top fid ≤ s.top fid + 1 ∧ Leaves fid e st e' st' := by
  have empty_iff := HeapFile.tail_eq_zero holds.file.wellFormed
  by_cases empty : h.tail = 0
  · obtain rfl := linked.trans (if_pos empty)
    obtain ⟨no, e', st', s', exited, working', -, leaves, rfl, file', only, top⟩ :=
      holds.program TableFile.plain_linkHeaderToFirstDataPage
        (fun _ _ own => own) (linkHeaderToFirstDataPage_spec (owns_rowPages fid) holds.file
          (empty_iff.mp empty) holds.logged (by rw [holds.unpinned]; exact room) 0)
    rw [if_pos empty, exited, HeapFile.tail_extend, if_pos (empty_iff.mp empty)]
    exact ⟨e', st', s', rfl, working', file',
      List.append_ne_nil_of_right_ne_nil _ (List.cons_ne_nil _ _), only, top, leaves⟩
  · obtain rfl := linked.trans (if_neg empty)
    rw [if_neg empty]
    exact ⟨e, st, s, rfl, holds.working, holds.file, mt empty_iff.mpr empty, .refl holds.logged,
      Nat.le_succ _, .refl ..⟩

/-- The engine inserts a row where the heap file does, and refuses one that it refuses. -/
theorem insertRow (holds : HoldsRows frames fid e st s h) (room : 1 < frames)
    (small : s.top fid + 1 < 2 ^ 32) (cols : List ColumnSpec) (values : List Value) :
    Ends (insertRow fid cols values) e
      (fun r e' => ∃ count st' s' h',
        HeapFile.insertRow fid count h cols values = .ok (h', r.1, r.2) ∧
        HoldsRows frames fid e' st' s' h' ∧ OnlyFile s s' fid ∧ Leaves fid e st e' st')
      (fun err e' => e' = e ∧
        ∀ count, HeapFile.insertRow fid count h cols values = .error err) := by
  simp only [Engine.insertRow, ends_bind]
  apply Ends.of_exit (holds.working.checkTxn holds.none_dropped)
  rcases encoded : encodeRow cols values with err | (_ | rec)
  · exact ⟨rfl, fun count => by rw [HeapFile.insertRow, encoded]; rfl⟩
  · exact ⟨rfl, fun count => by rw [HeapFile.insertRow, encoded]; rfl⟩
  refine Ends.of_exit (show _ = (Except.ok (some rec), e) from rfl) ?_
  simp only [ends_ite]
  by_cases legal : rec.length ≤ maxRecordLen
  · rw [if_neg (by omega)]
    simp only [ends_bind]
    obtain ⟨e₁, st₁, s₁, took, holds₁, only₁, top₁, leaves₁⟩ := holds.takeRowid (by omega)
    obtain ⟨e₂, found, working₂, moved₂⟩ := holds₁.working.tailPage holds₁.tail
    have kept₂ : KeepsTails noPage e₁ e₂ := moved₂.keepsTails
    have holds₂ : HoldsRows frames fid e₂ st₁ s₁ { h with nextRowid := (h.nextRowid + 1) % 2 ^ 64 } :=
      { holds₁ with
        working := working₂
        tail := holds₁.tail.keep kept₂
          ⟨fun _ _ never => never.elim, fun _ _ never => never.elim⟩ }
    have leaves₂ : Leaves fid e₁ st₁ e₂ st₁ :=
      kept₂.leaves (fun _ _ never => never.elim) (.refl st₁)
    obtain ⟨h₂, h₂_eq⟩ : ∃ h₂ : HeapFile, h₂ = _ := ⟨_, rfl⟩
    obtain ⟨e₃, st₃, s₃, linked, working₃, file₃, filled, only₃, top₃, leaves₃⟩ :=
      holds₂.link room h₂_eq
    have none_dropped₃ := leaves₃.same.drops.trans holds₂.none_dropped
    obtain ⟨⟨no, slot⟩, e₄, st₄, s₄, looped, working₄, -, leaves₄, count, h', inserted, rfl, file₄,
      only₄, -⟩ := working₃.onFile none_dropped₃ holds.named TableFile.plain_insertLoop
        (fun _ _ own => own) (insertLoop_spec (owns_rowPages fid) file₃ filled only₃.logged
          (by rw [only₃.pins, holds₂.unpinned]; exact room) (by rw [top₁] at top₃; omega) legal)
    have added := HeapFile.insertRow_eq fid encoded legal rfl rfl
      (h₂_eq.trans (holds₂.file.wellFormed.link_count count)) inserted
    have done : HoldsRows frames fid (trackTail fid h'.tail e₄) st₄ s₄ h' := by
      refine ⟨working₄.trackTail fid h'.tail, file₄, .inl (Function.update_self ..), ?_,
        only₄.logged, leaves₄.same.drops.trans none_dropped₃, holds.named⟩
      exact (only₄.pins.trans (only₃.pins.trans only₁.pins)).trans holds.unpinned
    have leaves := ((leaves₁.trans leaves₂).trans (leaves₃.trans leaves₄)).trans
      (trackTail_leaves h'.tail working₄.shows.active)
    apply Ends.of_exit took
    apply Ends.of_exit found
    by_cases empty : HeapFile.tail { h with nextRowid := (h.nextRowid + 1) % 2 ^ 64 } = 0
    · rw [if_pos empty] at linked ⊢
      simp only [ends_bind, ends_modify]
      apply Ends.of_exit linked
      apply Ends.of_exit looped
      exact ⟨count, st₄, s₄, h', added, done, (only₁.trans only₃).trans only₄, leaves⟩
    · rw [if_neg empty] at linked ⊢
      simp only [ends_bind, ends_modify]
      apply Ends.of_exit linked
      apply Ends.of_exit looped
      exact ⟨count, st₄, s₄, h', added, done, (only₁.trans only₃).trans only₄, leaves⟩
  · rw [if_pos (by omega)]
    refine ⟨rfl, fun count => ?_⟩
    rw [HeapFile.insertRow, encoded, Res.bind_ok]
    simp only
    rw [if_pos (by omega)]
    rfl

/-! ### Rows by location -/

/-- The engine accepts a reference to a page of the chain. -/
theorem checkRowRef (holds : HoldsRows frames fid e st s h) {a : HeapPage} (mem : a ∈ h.pages)
    {ref : RowRef} (page : ref.page = ⟨fid, a.no⟩) :
    (checkRowRef ref).exit e = (.ok (), e) := by
  have positive := holds.file.wellFormed.positive a mem
  have low := holds.file.wellFormed.no_le_tail mem
  have known : h.tail ≤ max (e.files.pageCount fid - 1) ((e.tailPages fid).getD 0) := by
    rcases holds.tail with remembered | ⟨-, on_disk⟩
    · rw [remembered]
      exact Nat.le_max_right ..
    · exact (on_disk.below holds.working.shows.backed.sound).trans (Nat.le_max_left ..)
  have located : (⟨fid, a.no⟩ : PageId) ≠ invalidPage := by
    intro invalid
    exact positive.ne' (congrArg PageId.pageNo invalid)
  have ends : Ends (Engine.checkRowRef ref) e (fun _ e' => e' = e) fun _ _ => False := by
    simp only [Engine.checkRowRef, ends_bind, ends_get, ends_ite]
    rw [page, if_neg located, if_neg positive.ne', if_neg (by dsimp only; omega)]
    exact rfl
  obtain ⟨_, _, exited, rfl⟩ := ends.exits
  exact exited

theorem readRow (holds : HoldsRows frames fid e st s h) (room : 0 < frames) {a : HeapPage}
    (mem : a ∈ h.pages) {ref : RowRef} (page : ref.page = ⟨fid, a.no⟩) {cols : List ColumnSpec}
    {row? : Option Row} {count : Nat} (read : HeapFile.readRow count h ref cols = .ok row?) :
    ∃ e' st', (readRow ref cols).exit e = (.ok row?, e') ∧ HoldsRows frames fid e' st' s h ∧
      KeepsTails noPage e e' ∧ st.SameCommitted st' := by
  obtain ⟨e', st', ran, holds', kept⟩ := holds.reads TableFile.plain_readSlot
    (readSlot_spec holds.file mem page holds.logged (by rw [holds.unpinned]; exact room) read)
  have ends : Ends (Engine.readRow ref cols) e (fun r e₁ => r = row? ∧ e₁ = e') fun _ _ => False := by
    simp only [Engine.readRow, ends_bind]
    apply Ends.of_exit (holds.checkRowRef mem page)
    exact Ends.of_exit ran ⟨rfl, rfl⟩
  obtain ⟨_, _, exited, rfl, rfl⟩ := ends.exits
  exact ⟨_, st', exited, holds', kept⟩

/-- A slot of a page of the chain dies as in the heap file. -/
theorem deleteRow (holds : HoldsRows frames fid e st s h) (room : 0 < frames) {a : HeapPage}
    (mem : a ∈ h.pages) {ref : RowRef} (page : ref.page = ⟨fid, a.no⟩) :
    ∃ n e' st' s' h', (deleteRow ref).exit e = (.ok n, e') ∧
      (∀ count, HeapFile.deleteRow count h ref = .ok (h', n)) ∧
      HoldsRows frames fid e' st' s' h' ∧ OnlyFile s s' fid ∧ Leaves fid e st e' st' := by
  let own : PageId → Page → Prop := fun pid p => pid = ref.page ∧ pageValid p magicHeap = true
  have owned : ∀ pid p, own pid p → pid.fileId = fid ∧ pid.pageNo < 2 ^ 32 := by
    rintro _ _ ⟨rfl, -⟩
    rw [page]
    exact ⟨rfl, holds.file.no_lt mem⟩
  obtain ⟨n, e', st', s', ran, working', kept, leaves, h', deleted, file', only, -⟩ :=
    holds.program TableFile.plain_deleteSlot owned
      (deleteSlot_spec (fun p valid => ⟨rfl, valid⟩) holds.file mem page holds.logged
        (by rw [holds.unpinned]; exact room))
  -- the page is not behind the tail, and stays a data page
  have spares : Spares own fid h.tail := by
    have low := holds.file.wellFormed.no_le_tail mem
    refine ⟨fun no p own above => ?_, fun _ p own zero => ?_⟩
    · have no_eq : no = a.no := congrArg PageId.pageNo (own.1.trans page)
      omega
    · have valid := own.2
      rw [zero, BufferPool.not_pageValid_zero (show magicHeap ≠ 0 by decide)] at valid
      cases valid
  have same_tail := HeapFile.tail_of_nos
    (holds.file.wellFormed.deleteRow_nos mem (by rw [page]) (deleted 0))
  have ends : Ends (Engine.deleteRow ref) e (fun r e₁ => r = n ∧ e₁ = e') fun _ _ => False := by
    simp only [Engine.deleteRow, ends_bind]
    rw [page]
    apply Ends.of_exit (holds.working.checkTxn holds.none_dropped)
    apply Ends.of_exit (holds.checkRowRef mem page)
    exact Ends.of_exit ran ⟨rfl, rfl⟩
  obtain ⟨_, _, exited, rfl, rfl⟩ := ends.exits
  refine ⟨_, _, st', s', h', exited, deleted, ⟨working', file', ?_,
    only.pins.trans holds.unpinned, only.logged, leaves.same.drops.trans holds.none_dropped,
    holds.named⟩, only, leaves⟩
  rw [same_tail]
  exact holds.tail.keep kept spares

/-- References to pages of the chain. -/
def OnChain (fid : Nat) (h : HeapFile) (ref : RowRef) : Prop :=
  ∃ a ∈ h.pages, ref.page = ⟨fid, a.no⟩

/-- Slots die one after the other. -/
theorem deleteRefs (holds : HoldsRows frames fid e st s h) (room : 0 < frames)
    {refs : List RowRef} (all : ∀ ref ∈ refs, OnChain fid h ref) :
    ∃ e' st' s' h',
      (refs.forM fun ref => do let _ ← Engine.deleteRow ref : EngineM Unit).exit e = (.ok (), e') ∧
      (∀ count, refs.foldlM (fun h ref => do return (← HeapFile.deleteRow count h ref).1) h =
        .ok h') ∧
      HoldsRows frames fid e' st' s' h' ∧ OnlyFile s s' fid ∧ Leaves fid e st e' st' := by
  induction refs generalizing e st s h with
  | nil => exact ⟨e, st, s, h, rfl, fun _ => rfl, holds, .refl holds.logged, .refl ..⟩
  | cons ref refs inductionHypothesis =>
      obtain ⟨a, mem, page⟩ := all ref List.mem_cons_self
      obtain ⟨n, e₁, st₁, s₁, h₁, first, deleted, holds₁, only₁, leaves₁⟩ :=
        holds.deleteRow room mem page
      have nos := holds.file.wellFormed.deleteRow_nos mem (by rw [page]) (deleted 0)
      have later : ∀ ref ∈ refs, OnChain fid h₁ ref := by
        intro ref' mem'
        obtain ⟨b, b_mem, b_page⟩ := all ref' (List.mem_cons_of_mem _ mem')
        have among : b.no ∈ h₁.pages.map HeapPage.no := by
          rw [nos]
          exact List.mem_map_of_mem b_mem
        obtain ⟨b', b'_mem, same⟩ := List.mem_map.mp among
        exact ⟨b', b'_mem, by rw [b_page, same]⟩
      obtain ⟨e₂, st₂, s₂, h₂, rest, folded, holds₂, only₂, leaves₂⟩ :=
        inductionHypothesis holds₁ later
      have ends : Ends ((ref :: refs).forM fun ref => do
          let _ ← Engine.deleteRow ref : EngineM Unit) e (fun _ e' => e' = e₂) fun _ _ => False := by
        change Ends ((do let _ ← Engine.deleteRow ref : EngineM Unit) >>= fun _ => refs.forM _) e _ _
        simp only [ends_bind, ends_pure]
        apply Ends.of_exit first
        exact Ends.of_exit rest rfl
      obtain ⟨_, _, exited, rfl⟩ := ends.exits
      refine ⟨_, st₂, s₂, h₂, exited, fun count => ?_, holds₂, only₁.trans only₂,
        leaves₁.trans leaves₂⟩
      rw [List.foldlM_cons, deleted count]
      exact folded count

/-- All rows of the file die. -/
theorem deleteAllRows (holds : HoldsRows frames fid e st s h) (room : 0 < frames) :
    ∃ n e' st' s' h', (deleteAllRows fid).exit e = (.ok n, e') ∧
      (∀ count, HeapFile.deleteAllRows fid count h = .ok (h', n)) ∧
      HoldsRows frames fid e' st' s' h' ∧ OnlyFile s s' fid ∧ Leaves fid e st e' st' := by
  obtain ⟨e₁, st₁, walked, holds₁, kept₁, same₁⟩ := holds.reads TableFile.plain_walk
    (walk_refs holds.file holds.logged (by rw [holds.unpinned]; exact room))
  have leaves₁ : Leaves fid e st e₁ st₁ := kept₁.leaves (fun _ _ never => never.elim) same₁
  have all : ∀ ref ∈ h.refs fid, OnChain fid h ref := by
    intro ref mem
    obtain ⟨entry, entry_mem, rfl⟩ := List.mem_map.mp mem
    obtain ⟨a, a_mem, here⟩ := List.mem_flatMap.mp entry_mem
    obtain ⟨slot, -, rfl⟩ := List.mem_map.mp here
    exact ⟨a, a_mem, rfl⟩
  obtain ⟨e₂, st₂, s₂, h₂, deleted, folded, holds₂, only₂, leaves₂⟩ :=
    holds₁.deleteRefs room all
  have ends : Ends (Engine.deleteAllRows fid) e
      (fun n e' => n = (h.refs fid).length ∧ e' = e₂) fun _ _ => False := by
    simp only [Engine.deleteAllRows, ends_bind, ends_pure]
    apply Ends.of_exit (holds.working.checkTxn holds.none_dropped)
    apply Ends.of_exit walked
    exact Ends.of_exit deleted ⟨rfl, rfl⟩
  obtain ⟨_, _, exited, rfl, rfl⟩ := ends.exits
  refine ⟨_, _, st₂, s₂, h₂, exited, fun count => ?_, holds₂, only₂, leaves₁.trans leaves₂⟩
  rw [HeapFile.deleteAllRows]
  exact congrArg (· >>= fun h' => (pure (h', (h.refs fid).length) : Res _)) (folded count)

/-! ### Whole files -/

theorem readRows (holds : HoldsRows frames fid e st s h) (room : 0 < frames)
    {cols : List ColumnSpec} {rows : List (List Value)} (read : h.readRows cols = .ok rows) :
    ∃ e' st', (readRows fid cols).exit e = (.ok rows, e') ∧ HoldsRows frames fid e' st' s h ∧
      KeepsTails noPage e e' ∧ st.SameCommitted st' :=
  holds.reads TableFile.plain_walk
    (walk_values holds.file holds.logged (by rw [holds.unpinned]; exact room) read)

theorem rowCount (holds : HoldsRows frames fid e st s h) (room : 0 < frames) :
    ∃ e' st', (rowCount fid).exit e = (.ok h.rowCount, e') ∧ HoldsRows frames fid e' st' s h ∧
      KeepsTails noPage e e' ∧ st.SameCommitted st' := by
  obtain ⟨e', st', walked, holds', kept⟩ := holds.reads TableFile.plain_walk
    (walk_refs holds.file holds.logged (by rw [holds.unpinned]; exact room))
  have ends : Ends (Engine.rowCount fid) e (fun n e₁ => n = h.rowCount ∧ e₁ = e')
      fun _ _ => False := by
    simp only [Engine.rowCount, ends_bind, ends_pure]
    exact Ends.of_exit walked ⟨List.length_map _, rfl⟩
  obtain ⟨_, _, exited, rfl, rfl⟩ := ends.exits
  exact ⟨_, st', exited, holds', kept⟩

theorem scan (holds : HoldsRows frames fid e st s h) (room : 0 < frames)
    {cols : List ColumnSpec} {calls : Nat} {rows : List Row}
    (decoded : h.live.mapM (HeapFile.Scanner.rowAt fid cols) = .ok rows) :
    ∃ e' st', (PoolM.run (RowScanner.scan fid cols calls)).exit e =
        (.ok ((List.range calls).map fun i => rows[i]?), e') ∧
      HoldsRows frames fid e' st' s h ∧ KeepsTails noPage e e' ∧ st.SameCommitted st' :=
  holds.reads RowScanner.plain_scan (RowScanner.scan_spec holds.file holds.logged
    (by rw [holds.unpinned]; exact room) decoded)

end HoldsRows

/-! ## New files -/

/-- The header page of a table without rows. -/
def emptyHeader : Page :=
  initPage magicFileHeader .fileHeader

theorem initTable_spec (owned : own ⟨fid, 0⟩ emptyHeader) (new : s.top fid = 0)
    (zero : ∀ no, s.pages ⟨fid, no⟩ = Block.zero) (logged : s.unlogged = [])
    (room : s.pins.length < frames) :
    Prog.Returns (PoolView.strict frames own) (initTable fid) s fun _ s' =>
      RowFile s' fid {} ∧ OnlyFile s s' fid := by
  unfold initTable
  apply Prog.Returns.bind
  refine PoolView.strict_createTableFile new ?_
  apply Prog.Returns.bind
  refine PoolView.strict_allocate room (zero 0) ?_
  refine PoolView.strict_save owned rfl logged ?_
  refine PoolView.strict_flush (by simp [logged]) ?_
  have page : (Function.update s.pages ⟨fid, 0⟩ emptyHeader) ⟨fid, 0⟩ = emptyHeader :=
    Function.update_self ..
  refine ⟨⟨⟨.nil, by simp⟩, ?_, ?_, ?_, by simp, by simp, fun no above => ?_, ?_⟩, ⟨?_, ?_, ?_, rfl,
    rfl, logged⟩⟩
  · change pageValid (Function.update s.pages ⟨fid, 0⟩ emptyHeader ⟨fid, 0⟩) _ = true
    rw [page]
    exact pageValid_initPage _ _ (by decide)
  · change (Function.update s.pages ⟨fid, 0⟩ emptyHeader ⟨fid, 0⟩).nextPage = _
    rw [page]
    exact initPage_nextPage ..
  · change fileNextRowid (Function.update s.pages ⟨fid, 0⟩ emptyHeader ⟨fid, 0⟩) = _
    rw [page]
    exact fileNextRowid_initPage ..
  · have apart : (⟨fid, no⟩ : PageId) ≠ ⟨fid, 0⟩ := fun same =>
      above.ne' (congrArg PageId.pageNo same)
    exact (Function.update_of_ne apart ..).trans (zero no)
  · simp [HeapFile.tail]
  · intro pid apart
    have apart : pid ≠ ⟨fid, 0⟩ := fun same => apart (congrArg PageId.fileId same)
    exact Function.update_of_ne apart ..
  · intro f apart
    simp [Function.update_of_ne apart]
  · rw [new]
    exact Nat.zero_le _

/-- A file that is not there has its tail at the header page. -/
theorem Engine.NoFile.tailOnDisk (new : e.NoFile fid) (sound : e.files.Sound) : TailOnDisk e fid 0 where
  beyond no _ := by
    have zero : e.files.pages ⟨fid, no⟩ = Block.zero :=
      sound ⟨fid, no⟩ (by change e.files.pageCount fid ≤ no; rw [new.1]; exact Nat.zero_le no)
    exact ⟨zero, (baseline_of_absent (new.2 no)).trans zero⟩
  there some := absurd rfl some

/-- A new table has no rows. -/
theorem Working.initTableFile (working : Working frames noPage e st s) (room : 0 < frames)
    (none_dropped : st.drops = []) (named : fid ≠ 0 ∧ fid < 2 ^ 64) (unpinned : s.pins = [])
    (logged : s.unlogged = []) (new : e.NoFile fid) (top : s.top fid = 0)
    (untracked : e.tailPages fid = none) :
    ∃ e' st' s', (initTableFile fid).exit e = (.ok (), e') ∧
      HoldsRows frames fid e' st' s' {} ∧ OnlyFile s s' fid ∧ Leaves fid e st e' st' := by
  let own : PageId → Page → Prop := fun pid _ => pid = ⟨fid, 0⟩
  have owned : ∀ pid p, own pid p → pid.fileId = fid ∧ pid.pageNo < 2 ^ 32 := by
    rintro _ - rfl
    exact ⟨rfl, Nat.two_pow_pos 32⟩
  have zero : ∀ no, s.pages ⟨fid, no⟩ = Block.zero := by
    intro no
    rw [← working.shows.content, content_of_absent (new.2 no)]
    exact working.shows.backed.sound ⟨fid, no⟩
      (by change e.files.pageCount fid ≤ no; rw [new.1]; exact Nat.zero_le no)
  obtain ⟨_, e', st', s', ran, working', kept, leaves, file', only⟩ :=
    working.onFile none_dropped named plain_initTable owned
      (initTable_spec rfl top zero logged (by rw [unpinned]; exact room))
  have spares : Spares own fid 0 := by
    refine ⟨fun no p own above => ?_, fun some => absurd rfl some⟩
    cases own
    exact absurd above (Nat.lt_irrefl 0)
  have ends : Ends (Engine.initTableFile fid) e (fun _ e₁ => e₁ = e') fun _ _ => False := by
    simp only [Engine.initTableFile, ends_bind]
    apply Ends.of_exit (working.checkTxn none_dropped)
    exact Ends.of_exit ran rfl
  obtain ⟨_, _, exited, rfl⟩ := ends.exits
  exact ⟨_, st', s', exited, ⟨working', file', .inr ⟨(congrFun kept.tails fid).trans untracked,
    kept.disk spares (new.tailOnDisk working.shows.backed.sound)⟩, only.pins.trans unpinned, only.logged,
    leaves.same.drops.trans none_dropped, named⟩, only, leaves⟩

end MySimpleDb.Storage
