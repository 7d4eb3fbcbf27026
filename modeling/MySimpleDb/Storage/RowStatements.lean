import MySimpleDb.Storage.RowRun

/-!
# Statements in runs

The invariant of runs of statements on table files, and that each statement is answered as
by the heap files.
-/

namespace MySimpleDb.Storage

open MySimpleDb.Lib Attempt Engine

variable {fid tail : Nat} {e e' e₁ : Engine} {st st' : RowStore} {ts ts' : TxnStore} {s s' : PoolView}
  {h h' h'' : HeapFile} {top : Nat → Nat} {pages pages' : PageId → Page}

/-! ## Tables in pages -/

/-- Pages that hold a heap file, apart from what was allocated. -/
def RowsAt (pages : PageId → Page) (fid : Nat) (h : HeapFile) : Prop :=
  RowFile { pages, top := fun _ => 2 ^ 32, pins := [], unlogged := [], trees := fun _ => {} } fid h

theorem RowFile.rowsAt (file : RowFile s fid h) : RowsAt s.pages fid h :=
  ⟨file.wellFormed, file.header, file.first, file.rowid, file.laid, file.chained, file.beyond,
    file.tail_lt⟩

theorem RowsAt.congr (rows : RowsAt pages fid h)
    (same : ∀ no, pages' ⟨fid, no⟩ = pages ⟨fid, no⟩) : RowsAt pages' fid h :=
  RowFile.congr rows same le_rfl

theorem RowsAt.file (rows : RowsAt e.content fid h) (below : h.tail < top fid) :
    RowFile (e.view top) fid h :=
  ⟨rows.wellFormed, rows.header, rows.first, rows.rowid, rows.laid, rows.chained, rows.beyond,
    below⟩

theorem RowsAt.tail_ne_zero (rows : RowsAt pages fid h) (some : h.tail ≠ 0) :
    pages ⟨fid, h.tail⟩ ≠ Block.zero := by
  intro zero
  obtain ⟨a, mem, last, -⟩ := rows.tail_page (mt (HeapFile.tail_eq_zero rows.wellFormed).mpr some)
  have valid := (rows.laid a mem).valid
  rw [last] at valid
  change pageValid (pages ⟨fid, h.tail⟩) magicHeap = true at valid
  rw [zero, BufferPool.not_pageValid_zero (show magicHeap ≠ 0 by decide)] at valid
  cases valid

/-- Where disk and log agree with the pages, the tail is found on disk. -/
theorem RowsAt.tailOnDisk (rows : RowsAt pages fid h)
    (disk : ∀ no, e.files.pages ⟨fid, no⟩ = pages ⟨fid, no⟩)
    (baseline : ∀ no, e.baseline ⟨fid, no⟩ = pages ⟨fid, no⟩) : TailOnDisk e fid h.tail where
  beyond no above := ⟨(disk no).trans (rows.beyond no above), (baseline no).trans (rows.beyond no above)⟩
  there some := by
    rw [disk, baseline]
    exact ⟨rows.tail_ne_zero some, rows.tail_ne_zero some⟩

/-- A file that is not there holds no table. -/
theorem Engine.NoFile.not_rowsAt (new : e.NoFile fid) (sound : e.files.Sound) :
    ¬ RowsAt e.content fid h := by
  intro rows
  have header : pageValid (e.content ⟨fid, 0⟩) magicFileHeader = true := rows.header
  rw [content_of_absent (new.2 0),
    sound ⟨fid, 0⟩ (by change e.files.pageCount fid ≤ 0; rw [new.1]),
    BufferPool.not_pageValid_zero (show magicFileHeader ≠ 0 by decide)] at header
  cases header

/-! ## What an answer says of the change -/

namespace HeapFile

/-- A record that goes to a new page says which one. -/
theorem insertLoop_extended {count no slot : Nat} {rec : Bytes} {g : HeapFile}
    (looped : insertLoop count rec 1 g = .ok (h', no, slot)) :
    no = g.tail ∧ ∀ count', insertLoop count' rec 1 g = .ok (h', no, slot) := by
  unfold insertLoop at looped ⊢
  cases taken : (g.page? g.tail).bind fun p => p.append rec with
  | none =>
      rw [taken] at looped
      cases looped
  | some out =>
      obtain ⟨p, i⟩ := out
      rw [taken] at looped
      cases looped
      refine ⟨?_, fun _ => rfl⟩
      obtain ⟨q, found, appended⟩ := Option.bind_eq_some_iff.mp taken
      have q_no : q.no = g.tail := by simpa using List.find?_some found
      unfold HeapPage.append at appended
      split at appended <;> cases appended
      exact q_no

theorem insertLoop_unique {count count' no slot slot' : Nat} {rec : Bytes}
    (first : insertLoop count rec 2 h = .ok (h', no, slot))
    (second : insertLoop count' rec 2 h = .ok (h'', no, slot')) : h' = h'' := by
  unfold insertLoop at first second
  cases taken : (h.page? h.tail).bind fun p => p.append rec with
  | some out =>
      obtain ⟨p, i⟩ := out
      rw [taken] at first second
      cases first
      cases second
      rfl
  | none =>
      rw [taken] at first second
      obtain ⟨no_eq, first⟩ := insertLoop_extended first
      obtain ⟨no_eq', second⟩ := insertLoop_extended second
      have same : h.extend count = h.extend count' := by
        rw [no_eq, tail_extend, tail_extend] at no_eq'
        rw [extend, extend, no_eq']
      rw [same] at first
      cases (first 0).symm.trans (second 0)
      rfl

theorem insertRow_unique (wellFormed : h.WellFormed) {count count' rid : Nat} {ref : RowRef}
    {cols : List ColumnSpec} {values : List Value}
    (first : insertRow fid count h cols values = .ok (h', rid, ref))
    (second : insertRow fid count' h cols values = .ok (h'', rid, ref)) : h' = h'' := by
  unfold insertRow at first second
  obtain ⟨rec?, encoded, first⟩ := Res.bind_eq_ok.mp first
  obtain ⟨rec?', encoded', second⟩ := Res.bind_eq_ok.mp second
  obtain rfl := Except.ok.inj (encoded.symm.trans encoded')
  cases rec? with
  | none => cases first
  | some rec =>
      simp only at first second
      split at first
      · cases first
      · rename_i legal
        rw [if_neg legal] at second
        have linked := fun count => WellFormed.link_count (h := { h with nextRowid := (h.nextRowid + 1) % 2 ^ 64 })
          ⟨wellFormed.rising, wellFormed.positive⟩ count
        rw [← linked count] at first
        rw [← linked count'] at second
        obtain ⟨⟨g, no, slot⟩, looped, first⟩ := Res.bind_eq_ok.mp first
        obtain ⟨⟨g', no', slot'⟩, looped', second⟩ := Res.bind_eq_ok.mp second
        cases first
        cases second
        exact insertLoop_unique looped looped'

end HeapFile

/-! ## The invariant -/

/-- Table files in the pages of a content. -/
def TablesAt (pages : PageId → Page) (tables : Nat → Option HeapFile) : Prop :=
  ∀ fid h, tables fid = some h → (fid ≠ 0 ∧ fid < 2 ^ 64) ∧ RowsAt pages fid h

structure RowsHold (e : Engine) (st : RowStore) (ts : TxnStore) : Prop where
  reached : Reached e ts
  enough : 2 ≤ e.frames.length
  none_dropped : ts.drops = []
  mended : ts.mended = st.mended
  unpinned : ∀ pid, e.pinCount pid = 0
  logged : BufferPool.AllLogged e
  idle : e.txn = none → st.changed = []
  working : TablesAt e.content st.working
  committed : TablesAt ts.committed st.committed
  tails : ∀ fid n, e.tailPages fid = some n → ∃ h, st.working fid = some h ∧ n = h.tail
  onDisk : ∀ fid h, st.working fid = some h → e.tailPages fid = none → TailOnDisk e fid h.tail
  before : ∀ fid n, e.tailsBefore fid = some n → ∃ h, st.committed fid = some h ∧ n = h.tail
  unchanged : ∀ fid, fid ∉ st.changed →
    st.working fid = st.committed fid ∧ e.tailsBefore fid = e.tailPages fid
  undone : ∀ u ∈ e.undo, st.committed u.pid.fileId ≠ none → u.pid.fileId ∈ st.changed

namespace RowsHold

theorem knowsTail (holds : RowsHold e st ts) (table : st.working fid = some h) :
    e.KnowsTail fid h.tail := by
  cases tracked : e.tailPages fid with
  | none => exact .inr ⟨tracked, holds.onDisk fid h table tracked⟩
  | some n =>
      obtain ⟨h', table', rfl⟩ := holds.tails fid n tracked
      obtain rfl := Option.some.inj (table.symm.trans table')
      exact .inl tracked

/-- In a transaction, what callers of the pool see. -/
theorem view (holds : RowsHold e st ts) (active : e.txn.isSome = true) (backed : e.Backed top) :
    Working e.frames.length noPage e ts (e.view top) where
  shows := ⟨backed, rfl, rfl, fun pid => (holds.unpinned pid).symm,
    fun pid differs => absurd (holds.logged pid) differs, active, fun _ => rfl⟩
  reached := holds.reached
  own _ _ never := never.elim

theorem holdsRows (holds : RowsHold e st ts) (active : e.txn.isSome = true) (backed : e.Backed top)
    (table : st.working fid = some h) (below : h.tail < top fid) :
    HoldsRows e.frames.length fid e ts (e.view top) h :=
  have ⟨named, rows⟩ := holds.working fid h table
  ⟨holds.view active backed, rows.file below, holds.knowsTail table, rfl, rfl, holds.none_dropped,
    named⟩

/-- There is room for what is to be allocated. -/
theorem backed_low (holds : RowsHold e st ts) : ∃ top, e.Backed top ∧ ∀ f, 2 ^ 32 ≤ top f := by
  obtain ⟨top, earlier, current, accounted⟩ := holds.reached.durable
  exact ⟨fun f => max (top f) (2 ^ 32), BufferPool.backed_mono accounted.backed fun f => Nat.le_max_left ..,
    fun f => Nat.le_max_right ..⟩

theorem active_of (rows : HoldsRows e.frames.length fid e' ts' s' h') : e'.txn ≠ none := by
  intro idle
  have active := rows.working.shows.active
  rw [idle] at active
  cases active

/-- After a statement that read one table. -/
theorem after_read (holds : RowsHold e st ts)
    (rows : HoldsRows e.frames.length fid e' ts' (e.view top) h) (kept : KeepsTails noPage e e')
    (same : ts.SameCommitted ts') : RowsHold e' st ts' := by
  have content : e'.content = e.content := rows.working.shows.content
  have before : e'.tailsBefore = e.tailsBefore := by
    rw [tailsBefore, kept.tails, kept.tailUndo, tailsBefore]
  refine ⟨rows.working.reached, ?_, rows.none_dropped, same.mended.trans holds.mended,
    fun pid => (rows.working.shows.pins pid).symm, rows.working.allLogged rows.logged,
    fun idle => absurd idle (active_of rows), content ▸ holds.working, same.committed ▸ holds.committed,
    kept.tails ▸ holds.tails, fun f h₁ found untracked => ?_, before ▸ holds.before, ?_,
    fun u mem => ?_⟩
  · rw [rows.working.shows.length]
    exact holds.enough
  · rw [kept.tails] at untracked
    exact kept.disk ⟨fun _ _ never => never.elim, fun _ _ never => never.elim⟩
      (holds.onDisk f h₁ found untracked)
  · rw [before, kept.tails]
    exact holds.unchanged
  · rcases kept.undo u mem with mem | ⟨_, never⟩
    · exact holds.undone u mem
    · exact never.elim

/-- After a statement that changed one table. -/
theorem after_change (holds : RowsHold e st ts)
    (rows : HoldsRows e.frames.length fid e' ts' s' h') (only : OnlyFile (e.view top) s' fid)
    (leaves : Leaves fid e ts e' ts') : RowsHold e' (st.setTable fid h') ts' := by
  have content : e'.content = s'.pages := rows.working.shows.content
  have others : ∀ f, f ≠ fid → (st.setTable fid h').working f = st.working f :=
    fun f apart => Function.update_of_ne apart ..
  have own : (st.setTable fid h').working fid = some h' := Function.update_self ..
  refine ⟨rows.working.reached, ?_, rows.none_dropped, leaves.same.mended.trans holds.mended,
    fun pid => ?_, rows.working.allLogged rows.logged, fun idle => absurd idle (active_of rows),
    fun f h₁ found => ?_, leaves.same.committed ▸ holds.committed, fun f n tracked => ?_,
    fun f h₁ found untracked => ?_, leaves.before ▸ holds.before, fun f unchanged => ?_,
    fun u mem known => ?_⟩
  · rw [rows.working.shows.length]
    exact holds.enough
  · rw [← rows.working.shows.pins, rows.unpinned]
    rfl
  · by_cases here : f = fid
    · subst here
      obtain rfl := Option.some.inj (own.symm.trans found)
      rw [content]
      exact ⟨rows.named, rows.file.rowsAt⟩
    · rw [others f here] at found
      obtain ⟨named, at_pages⟩ := holds.working f h₁ found
      refine ⟨named, at_pages.congr fun no => ?_⟩
      rw [content]
      exact only.others ⟨f, no⟩ here
  · by_cases here : f = fid
    · subst here
      refine ⟨h', own, ?_⟩
      rcases rows.tail with remembered | ⟨forgotten, -⟩
      · exact Option.some.inj (tracked.symm.trans remembered)
      · rw [forgotten] at tracked
        cases tracked
    · rw [others f here]
      rw [leaves.tails f here] at tracked
      exact holds.tails f n tracked
  · by_cases here : f = fid
    · subst here
      obtain rfl := Option.some.inj (own.symm.trans found)
      rcases rows.tail with remembered | ⟨-, on_disk⟩
      · rw [remembered] at untracked
        cases untracked
      · exact on_disk
    · rw [others f here] at found
      rw [leaves.tails f here] at untracked
      exact leaves.disk here (holds.onDisk f h₁ found untracked)
  · have unchanged : f ∉ fid :: st.changed := unchanged
    rw [List.mem_cons, not_or] at unchanged
    obtain ⟨apart, unchanged⟩ := unchanged
    rw [others f apart, leaves.before, leaves.tails f apart]
    exact holds.unchanged f unchanged
  · rcases leaves.undo u mem with mem | here
    · exact List.mem_cons_of_mem _ (holds.undone u mem known)
    · exact here ▸ List.mem_cons_self

end RowsHold

/-! ## Statements -/

theorem Engine.HasRoom.backed (room : e.HasRoom fid) (backed : e.Backed top) :
    e.Backed (Function.update top fid (2 ^ 32 - 2)) := by
  refine ⟨backed.tidy, backed.clean, backed.opens, backed.sound, fun f => ?_, fun i valid => ?_⟩
  · by_cases here : f = fid
    · rw [here, Function.update_self]
      have := room.1
      omega
    · rw [Function.update_of_ne here]
      exact backed.sizes f
  · by_cases here : (e.frame i).page.fileId = fid
    · rw [here, Function.update_self]
      have := room.2 i valid here
      omega
    · rw [Function.update_of_ne here]
      exact backed.cached i valid

theorem Engine.HasRoom.tail_lt (room : e.HasRoom fid) (backed : e.Backed top)
    (rows : RowsAt e.content fid h) : h.tail < 2 ^ 32 - 2 := by
  by_cases empty : h.tail = 0
  · omega
  have there := rows.tail_ne_zero empty
  cases found : e.find ⟨fid, h.tail⟩ with
  | none =>
      rw [content_of_absent found] at there
      have below : h.tail < e.files.pageCount fid := by
        by_contra above
        exact there (backed.sound ⟨fid, h.tail⟩ (Nat.le_of_not_lt above))
      have := room.1
      omega
  | some i =>
      obtain ⟨-, valid, page⟩ := (backed.tidy.indexed.find_iff _ i).mp found
      have := room.2 i valid (by rw [page])
      rw [page] at this
      dsimp only at this
      omega

/-- The statement is answered as by the heap files, the answer says what they are then, and
the invariant is kept. -/
def RowsHold.Done (e : Engine) (st : RowStore) (op : RowOp) : Prop :=
  ∃ st' ts', st.Answers op (op.run.exit e).1 st' ∧
    (∀ st'', st.Answers op (op.run.exit e).1 st'' → st'' = st') ∧
    RowsHold (op.run.exit e).2 st' ts'

namespace RowsHold

/-- A statement whose outcome does not depend on what is on disk. -/
theorem done_of_ok {op : RowOp} {answer : RowAnswer} (exited : op.run.exit e = (.ok answer, e'))
    (applied : ∀ count, st.apply count op = .ok (st', answer)) (after : RowsHold e' st' ts') :
    RowsHold.Done e st op := by
  refine ⟨st', ts', ⟨0, ?_⟩, ?_, by rw [exited]; exact after⟩
  · rw [applied, exited]
    exact ⟨rfl, rfl⟩
  · rintro st'' ⟨count, outcome⟩
    rw [applied] at outcome
    exact outcome.2

theorem create (holds : RowsHold e st ts) (active : e.txn.isSome = true)
    (named : fid ≠ 0 ∧ fid < 2 ^ 64) (new : e.NoFile fid) : RowsHold.Done e st (.create fid) := by
  obtain ⟨top, earlier, current, accounted⟩ := holds.reached.durable
  have backed := accounted.backed.noFile new
  have untracked : e.tailPages fid = none := by
    by_contra tracked
    obtain ⟨n, tracked⟩ := Option.ne_none_iff_exists'.mp tracked
    obtain ⟨h, table, -⟩ := holds.tails fid n tracked
    exact new.not_rowsAt backed.sound (holds.working fid h table).2
  have enough := holds.enough
  obtain ⟨e', ts', s', ran, rows, only, leaves⟩ :=
    (holds.view active backed).initTableFile (by omega) holds.none_dropped named rfl rfl new
      (Function.update_self ..) untracked
  have exited : (RowOp.create fid).run.exit e = (.ok .created, e') := by
    have ends : Ends (RowOp.create fid).run e (fun a e₁ => a = .created ∧ e₁ = e')
        fun _ _ => False := by
      simp only [RowOp.run, ends_bind]
      exact Ends.of_exit ran ⟨rfl, rfl⟩
    obtain ⟨_, _, exited, rfl, rfl⟩ := ends.exits
    exact exited
  exact done_of_ok exited (fun _ => rfl) (holds.after_change rows only leaves)

theorem insert (holds : RowsHold e st ts) (active : e.txn.isSome = true)
    (table : st.working fid = some h) (room : e.HasRoom fid) (cols : List ColumnSpec)
    (values : List Value) : RowsHold.Done e st (.insert fid cols values) := by
  obtain ⟨top, earlier, current, accounted⟩ := holds.reached.durable
  have at_pages := (holds.working fid h table).2
  have below := room.tail_lt accounted.backed at_pages
  have enough := holds.enough
  have found : st.table fid = .ok h := by rw [RowStore.table, table]
  have rows := holds.holdsRows active (room.backed accounted.backed) table
    (by rw [Function.update_self]; exact below)
  have inserts := rows.insertRow (by omega) (by
    change Function.update top fid (2 ^ 32 - 2) fid + 1 < 2 ^ 32
    rw [Function.update_self]
    decide) cols values
  have applied : ∀ count, st.apply count (.insert fid cols values) =
      (HeapFile.insertRow fid count h cols values).map fun r =>
        (st.setTable fid r.1, .inserted r.2.1 r.2.2) := by
    intro count
    simp only [RowStore.apply, found, Res.bind_ok]
    cases HeapFile.insertRow fid count h cols values <;> rfl
  have ends : Ends (RowOp.insert fid cols values).run e
      (fun a e' => ∃ rid ref count h' ts', a = .inserted rid ref ∧
        HeapFile.insertRow fid count h cols values = .ok (h', rid, ref) ∧
        RowsHold e' (st.setTable fid h') ts')
      fun err e' => e' = e ∧ ∀ count, HeapFile.insertRow fid count h cols values = .error err := by
    simp only [RowOp.run, ends_bind, ends_pure]
    apply inserts.mono
    · rintro ⟨rid, ref⟩ e' ⟨count, ts', s', h', inserted, rows', only, leaves⟩
      exact ⟨rid, ref, count, h', ts', rfl, inserted, holds.after_change rows' only leaves⟩
    · exact fun _ _ refused => refused
  unfold Ends at ends
  unfold RowsHold.Done
  generalize (RowOp.insert fid cols values).run.exit e = out at ends ⊢
  rcases out with ⟨(err | answer), e'⟩
  · obtain ⟨rfl, refused⟩ := ends
    refine ⟨st, ts, ⟨0, ?_⟩, ?_, holds⟩
    · rw [applied, refused]
      exact ⟨rfl, rfl⟩
    · rintro st'' ⟨count, outcome⟩
      rw [applied, refused] at outcome
      exact outcome.2
  · obtain ⟨rid, ref, count, h', ts', rfl, inserted, after⟩ := ends
    refine ⟨_, ts', ⟨count, ?_⟩, ?_, after⟩
    · rw [applied, inserted]
      exact ⟨rfl, rfl⟩
    · rintro st'' ⟨count', outcome⟩
      rw [applied] at outcome
      cases inserted' : HeapFile.insertRow fid count' h cols values with
      | error err =>
          rw [inserted'] at outcome
          cases outcome.1
      | ok r =>
          obtain ⟨h'', rid', ref'⟩ := r
          rw [inserted'] at outcome
          obtain ⟨same, rfl⟩ := outcome
          cases same
          rw [HeapFile.insertRow_unique at_pages.wellFormed inserted inserted']

/-- A reference to a page of the chain is to a row of that file. -/
theorem delete (holds : RowsHold e st ts) (active : e.txn.isSome = true) {ref : RowRef}
    (table : st.working ref.page.fileId = some h)
    (on_chain : HoldsRows.OnChain ref.page.fileId h ref) : RowsHold.Done e st (.delete ref) := by
  obtain ⟨top, backed, low⟩ := holds.backed_low
  obtain ⟨a, mem, page⟩ := on_chain
  have enough := holds.enough
  have found : st.table ref.page.fileId = .ok h := by rw [RowStore.table, table]
  have rows := holds.holdsRows active backed table
    ((holds.working _ h table).2.tail_lt.trans_le (low _))
  obtain ⟨n, e', ts', s', h', ran, deleted, rows', only, leaves⟩ :=
    rows.deleteRow (by omega) mem page
  have ends : Ends (RowOp.delete ref).run e (fun a e₁ => a = .counted n ∧ e₁ = e')
      fun _ _ => False := by
    simp only [RowOp.run, ends_bind]
    exact Ends.of_exit ran ⟨rfl, rfl⟩
  obtain ⟨_, _, exited, rfl, rfl⟩ := ends.exits
  refine done_of_ok exited (fun count => ?_) (holds.after_change rows' only leaves)
  simp only [RowStore.apply, found, Res.bind_ok, deleted count]
  rfl

theorem deleteAll (holds : RowsHold e st ts) (active : e.txn.isSome = true)
    (table : st.working fid = some h) : RowsHold.Done e st (.deleteAll fid) := by
  obtain ⟨top, backed, low⟩ := holds.backed_low
  have enough := holds.enough
  have found : st.table fid = .ok h := by rw [RowStore.table, table]
  have rows := holds.holdsRows active backed table
    ((holds.working _ h table).2.tail_lt.trans_le (low _))
  obtain ⟨n, e', ts', s', h', ran, deleted, rows', only, leaves⟩ := rows.deleteAllRows (by omega)
  have ends : Ends (RowOp.deleteAll fid).run e (fun a e₁ => a = .counted n ∧ e₁ = e')
      fun _ _ => False := by
    simp only [RowOp.run, ends_bind]
    exact Ends.of_exit ran ⟨rfl, rfl⟩
  obtain ⟨_, _, exited, rfl, rfl⟩ := ends.exits
  refine done_of_ok exited (fun count => ?_) (holds.after_change rows' only leaves)
  simp only [RowStore.apply, found, Res.bind_ok, deleted count]
  rfl

/-- A statement that only reads one table. -/
theorem reading (holds : RowsHold e st ts) (active : e.txn.isSome = true)
    (table : st.working fid = some h) {op : RowOp} (answer : RowAnswer)
    (applied : ∀ count, st.apply count op = .ok (st, answer))
    (reads : ∀ s : PoolView, HoldsRows e.frames.length fid e ts s h → ∃ e' ts',
      op.run.exit e = (.ok answer, e') ∧ HoldsRows e.frames.length fid e' ts' s h ∧
        KeepsTails noPage e e' ∧ ts.SameCommitted ts') : RowsHold.Done e st op := by
  obtain ⟨top, backed, low⟩ := holds.backed_low
  have rows := holds.holdsRows active backed table
    ((holds.working _ h table).2.tail_lt.trans_le (low _))
  obtain ⟨e', ts', exited, rows', kept, same⟩ := reads _ rows
  exact done_of_ok exited applied (holds.after_read rows' kept same)

/-- What an answer is made of is what the engine returned. -/
theorem exit_answer {α : Type} {x : EngineM α} {a : α} (answer : α → RowAnswer)
    (ran : x.exit e = (.ok a, e')) :
    (do return answer (← x) : EngineM RowAnswer).exit e = (.ok (answer a), e') := by
  have ends : Ends (do return answer (← x) : EngineM RowAnswer) e
      (fun r e₁ => r = answer a ∧ e₁ = e') fun _ _ => False := by
    simp only [ends_bind, ends_pure]
    exact Ends.of_exit ran ⟨rfl, rfl⟩
  obtain ⟨_, _, exited, rfl, rfl⟩ := ends.exits
  exact exited

theorem table_of_ok (found : st.table fid = .ok h) : st.working fid = some h := by
  unfold RowStore.table at found
  split at found
  · cases found
  · rename_i table
    rw [table, Except.ok.inj found]

theorem read (holds : RowsHold e st ts) (active : e.txn.isSome = true) {ref : RowRef}
    {cols : List ColumnSpec} (table : st.working ref.page.fileId = some h)
    (on_chain : HoldsRows.OnChain ref.page.fileId h ref) {out : RowStore × RowAnswer}
    (readable : st.apply 0 (.read ref cols) = .ok out) : RowsHold.Done e st (.read ref cols) := by
  obtain ⟨a, mem, page⟩ := on_chain
  have enough := holds.enough
  have found : st.table ref.page.fileId = .ok h := by rw [RowStore.table, table]
  have wellFormed := (holds.working _ h table).2.wellFormed
  simp only [RowStore.apply, found, Res.bind_ok] at readable
  obtain ⟨row?, read, -⟩ := Res.bind_eq_ok.mp readable
  have reads_so : ∀ count, HeapFile.readRow count h ref cols = .ok row? := by
    intro count
    rw [← read, wellFormed.readRow_eq mem (by rw [page]), wellFormed.readRow_eq mem (by rw [page])]
  refine holds.reading active table (.row row?) (fun count => ?_) fun s rows => ?_
  · simp only [RowStore.apply, found, Res.bind_ok, reads_so count]
    rfl
  · obtain ⟨e', ts', ran, after⟩ := rows.readRow (by omega) mem page (reads_so 0)
    exact ⟨e', ts', exit_answer .row ran, after⟩

theorem readAll (holds : RowsHold e st ts) (active : e.txn.isSome = true) {cols : List ColumnSpec}
    {out : RowStore × RowAnswer} (readable : st.apply 0 (.readAll fid cols) = .ok out) :
    RowsHold.Done e st (.readAll fid cols) := by
  have enough := holds.enough
  obtain ⟨h, found, readable⟩ := Res.bind_eq_ok.mp readable
  obtain ⟨rows, read, -⟩ := Res.bind_eq_ok.mp readable
  refine holds.reading active (table_of_ok found) (.values rows) (fun count => ?_) fun s file => ?_
  · simp only [RowStore.apply, found, Res.bind_ok, read]
    rfl
  · obtain ⟨e', ts', ran, after⟩ := file.readRows (by omega) read
    exact ⟨e', ts', exit_answer .values ran, after⟩

theorem count (holds : RowsHold e st ts) (active : e.txn.isSome = true)
    {out : RowStore × RowAnswer} (readable : st.apply 0 (.count fid) = .ok out) :
    RowsHold.Done e st (.count fid) := by
  have enough := holds.enough
  obtain ⟨h, found, -⟩ := Res.bind_eq_ok.mp readable
  refine holds.reading active (table_of_ok found) (.counted h.rowCount) (fun count => ?_)
    fun s file => ?_
  · simp only [RowStore.apply, found, Res.bind_ok]
    rfl
  · obtain ⟨e', ts', ran, after⟩ := file.rowCount (by omega)
    exact ⟨e', ts', exit_answer .counted ran, after⟩

theorem scan (holds : RowsHold e st ts) (active : e.txn.isSome = true) {cols : List ColumnSpec}
    {calls : Nat} {out : RowStore × RowAnswer}
    (readable : st.apply 0 (.scan fid cols calls) = .ok out) :
    RowsHold.Done e st (.scan fid cols calls) := by
  have enough := holds.enough
  obtain ⟨h, found, readable⟩ := Res.bind_eq_ok.mp readable
  obtain ⟨rows, decoded, -⟩ := Res.bind_eq_ok.mp readable
  refine holds.reading active (table_of_ok found)
    (.scanned ((List.range calls).map fun i => rows[i]?)) (fun count => ?_) fun s file => ?_
  · simp only [RowStore.apply, found, Res.bind_ok, decoded]
    rfl
  · obtain ⟨e', ts', ran, after⟩ := file.scan (by omega) decoded
    exact ⟨e', ts', exit_answer .scanned ran, after⟩

theorem statement (holds : RowsHold e st ts) {op : RowOp} (legal : op.Legal e st) :
    RowsHold.Done e st op := by
  obtain ⟨active, legal⟩ := legal
  cases op with
  | create fid => exact holds.create active legal.1 legal.2
  | insert fid cols values =>
      obtain ⟨⟨h, table⟩, room⟩ := legal
      exact holds.insert active table room cols values
  | delete ref =>
      obtain ⟨h, table, on_chain⟩ := legal
      exact holds.delete active table on_chain
  | deleteAll fid =>
      obtain ⟨h, table⟩ := legal
      exact holds.deleteAll active table
  | read ref cols =>
      obtain ⟨⟨h, table, on_chain⟩, out, readable⟩ := legal
      exact holds.read active table on_chain readable
  | readAll fid cols => exact holds.readAll active legal.choose_spec
  | count fid => exact holds.count active legal.choose_spec
  | scan fid cols calls => exact holds.scan active legal.choose_spec

end RowsHold

end MySimpleDb.Storage
