import MySimpleDb.Storage.CrashProgram
import MySimpleDb.Storage.RowScan

/-!
# Tails of table files

Where the engine does not remember the tail of a table file, it looks for the highest
page that is not zero on disk.  That is the tail of the chain as long as no page behind
it was ever accounted for as anything but zero, whatever was evicted.
-/

namespace MySimpleDb.Storage

open MySimpleDb.Lib Attempt Engine

variable {frames fid : Nat} {own : PageId → Page → Prop} {e e' e'' : Engine} {st : TxnStore}
  {s : PoolView} {top : Nat → Nat} {c : PoolCall}

/-! ## What calls leave alone -/

/-- The undo entries of the active transaction. -/
def Engine.undo (e : Engine) : List UndoEntry :=
  e.txn.elim [] TxnContext.undo

/-- The tails that the active transaction has moved. -/
def Engine.tailUndo (e : Engine) : List TailUndo :=
  e.txn.elim [] TxnContext.tailUndo

/-- What a call does beside the view: tails stay, what is written to disk was logged, and a
page is accounted for anew when it is marked dirty. -/
structure Marks (c : PoolCall) (e e' : Engine) : Prop where
  length : e'.frames.length = e.frames.length
  active : e'.txn.isSome = e.txn.isSome
  tails : e'.tailPages = e.tailPages
  tailUndo : e'.tailUndo = e.tailUndo
  undo : ∀ u ∈ e'.undo, u ∈ e.undo ∨ c = .markDirty u.pid
  written : ∀ pid, e'.files.pages pid = e.files.pages pid ∨ e'.files.pages pid = e.baseline pid
  baseline : ∀ pid, e'.baseline pid = e.baseline pid ∨
    c = .markDirty pid ∧ e'.baseline pid = e.content pid

theorem Marks.of_kept (kept : Kept e e') (baseline : ∀ pid, e'.baseline pid = e.baseline pid) :
    Marks c e e' where
  length := kept.length
  active := by rw [kept.txn]
  tails := kept.tails
  tailUndo := by rw [Engine.tailUndo, kept.txn, Engine.tailUndo]
  undo u mem := by
    rw [Engine.undo, kept.txn] at mem
    exact .inl mem
  written := kept.written
  baseline pid := .inl (baseline pid)

theorem Engine.Moved.marks (moved : Moved e e') : Marks c e e' :=
  .of_kept moved.kept moved.baseline

theorem Marks.refl (c : PoolCall) (e : Engine) : Marks c e e :=
  (Moved.refl e).marks

/-- What a call of a run does beside the view. -/
theorem call_marks (backed : e.Backed top) (orderly : e.Orderly c) :
    Ends (Engine.call c) e (fun _ e' => Marks c e e') fun _ e' => Marks c e e' := by
  cases c with
  | createTableFile fid =>
      simp only [Engine.call, onFiles, ends_onPart, FileManager.createTableFile, ends_bind,
        ends_modify]
      have opening : ∀ files : FileManager, (files = e.files ∨ files = e.files.opened fid) →
          Marks (.createTableFile fid) e { e with files := files.truncated fid } := by
        intro files opened
        obtain ⟨moved, backed'⟩ := BufferPool.opened_moved backed opened
        have still_empty : files.pageCount fid = 0 := by
          rcases opened with rfl | rfl
          · exact orderly
          · exact (FileManager.pageCount_opened fid).trans orderly
        exact (moved.trans (BufferPool.truncated_moved backed' still_empty).1).marks
      apply FileManager.fdFor_ends.mono
      · rintro - files (⟨-, rfl⟩ | ⟨-, rfl⟩)
        · exact opening _ (.inl rfl)
        · exact opening _ (.inr rfl)
      · rintro err files ⟨rfl, -, -⟩
        exact .refl _ e
  | tableFileExists fid => exact .refl _ e
  | pageCount fid => exact .refl _ e
  | allocate pid =>
      simp only [Engine.call, ends_bind, ends_pure]
      apply (BufferPool.allocate_moved backed).mono
      · rintro idx e' ⟨-, kept, -, -, moved | ⟨absent, -, baseline⟩⟩
        · exact moved.marks
        · refine .of_kept kept fun other => ?_
          rw [baseline, ← orderly absent, ← baseline_of_absent absent, Function.update_eq_self]
      · rintro err e' ⟨-, -, -, moved, -, -⟩
        exact moved.marks
  | read pid magic =>
      simp only [Engine.call, ends_bind, ends_pure]
      apply (BufferPool.read_moved backed orderly).mono
      · rintro idx e' ⟨-, moved, -, -⟩
        exact moved.marks
      · rintro err e' ⟨moved, -, -, -⟩
        exact moved.marks
  | peek pid =>
      simp only [Engine.call, ends_bind, ends_get, ends_pure]
      apply BufferPool.pointer_ends.mono
      · rintro idx _ ⟨rfl, -⟩
        exact .refl _ _
      · rintro err _ ⟨rfl, -⟩
        exact .refl _ _
  | poke pid p =>
      simp only [Engine.call, ends_bind, BufferPool.poke, ends_modify]
      apply BufferPool.pointer_ends.mono
      · rintro idx _ ⟨rfl, found⟩
        obtain ⟨-, valid, page⟩ := (backed.tidy.indexed.find_iff pid idx).mp found
        have pinned := orderly.2
        rw [pinCount_of_find found] at pinned
        obtain ⟨-, kept, -, baseline, -⟩ := BufferPool.held_backed
          (f := { e.frame idx with data := p }) backed found page valid
          (fun none => absurd none (Nat.pos_iff_ne_zero.mp pinned))
          (fun clean => page ▸ backed.clean idx valid clean)
        refine .of_kept kept fun other => ?_
        rw [baseline, ← baseline_of_find found, Function.update_eq_self]
      · rintro err _ ⟨rfl, -⟩
        exact .refl _ _
  | markDirty pid =>
      simp only [Engine.call, ends_bind]
      apply BufferPool.pointer_ends.mono
      · rintro idx _ ⟨rfl, found⟩
        obtain ⟨inRange, valid, page⟩ := (backed.tidy.indexed.find_iff pid idx).mp found
        have index : BufferPool.frameIndex e idx = some idx := if_pos ⟨inRange, valid⟩
        simp only [BufferPool.markDirty, ends_bind, ends_get, index]
        cases active : e.txn with
        | none => exact .refl _ e
        | some txn =>
            obtain ⟨-, -, baseline, -⟩ := BufferPool.logPageDiff_moved txn backed found
            refine ⟨List.length_set .., ?_, rfl, ?_, fun u mem => ?_, fun _ => .inl rfl,
              fun other => ?_⟩
            · rw [active]
              rfl
            · rw [tailUndo, tailUndo, active]
              rfl
            · rw [undo, active]
              rcases List.mem_append.mp mem with mem | mem
              · exact .inl mem
              · obtain ⟨region, -, rfl⟩ := List.mem_map.mp mem
                exact .inr (congrArg PoolCall.markDirty page.symm)
            · rw [baseline]
              by_cases same : other = pid
              · subst same
                exact .inr ⟨rfl, Function.update_self ..⟩
              · exact .inl (Function.update_of_ne same ..)
      · rintro err _ ⟨rfl, -⟩
        exact .refl _ _
  | unpin pid =>
      simp only [Engine.call, ends_bind]
      apply BufferPool.pointer_ends.mono
      · rintro idx _ ⟨rfl, found⟩
        obtain ⟨inRange, valid, page⟩ := (backed.tidy.indexed.find_iff pid idx).mp found
        have index : BufferPool.frameIndex e idx = some idx := if_pos ⟨inRange, valid⟩
        simp only [BufferPool.unpin, ends_bind, ends_get, index]
        obtain ⟨pinned, logged⟩ := orderly
        rw [pinCount_of_find found] at pinned logged
        obtain ⟨-, kept, -, baseline, -⟩ := BufferPool.held_backed
          (f := { e.frame idx with pin := (e.frame idx).pin - 1 }) backed found page valid
          (fun none => by
            have last := logged (by dsimp only at none; omega)
            rw [baseline_of_find found, content_of_find found] at last
            exact last)
          (fun clean => page ▸ backed.clean idx valid clean)
        refine .of_kept kept fun other => ?_
        rw [baseline, ← baseline_of_find found, Function.update_eq_self]
      · rintro err _ ⟨rfl, -⟩
        exact .refl _ _
  | flush pid =>
      simp only [Engine.call, BufferPool.flush, ends_bind, ends_get]
      cases found : e.find pid with
      | none => exact .refl _ e
      | some idx =>
          have logged : e.baseline pid = e.content pid := orderly
          rw [baseline_of_find found, content_of_find found] at logged
          apply (BufferPool.writeBack_moved backed fun _ _ => logged).mono
          · rintro - e' ⟨⟨moved, -, -⟩, -⟩
            exact moved.marks
          · exact fun _ _ never => never.elim
  | tree fid => exact .refl _ e
  | setTree fid t =>
      exact ⟨rfl, rfl, rfl, rfl, fun _ => .inl, fun _ => .inl rfl, fun _ => .inl rfl⟩

/-! ## The tail on disk -/

/-- On disk and in the log's account, the file has nothing behind the page `tail`, and
something in it. -/
structure TailOnDisk (e : Engine) (fid tail : Nat) : Prop where
  beyond : ∀ no, tail < no →
    e.files.pages ⟨fid, no⟩ = Block.zero ∧ e.baseline ⟨fid, no⟩ = Block.zero
  there : tail ≠ 0 →
    e.files.pages ⟨fid, tail⟩ ≠ Block.zero ∧ e.baseline ⟨fid, tail⟩ ≠ Block.zero

/-- The contents that a caller gives to pages leave the tail where it is. -/
structure Spares (own : PageId → Page → Prop) (fid tail : Nat) : Prop where
  beyond : ∀ no p, own ⟨fid, no⟩ p → tail < no → p = Block.zero
  there : tail ≠ 0 → ∀ p, own ⟨fid, tail⟩ p → p ≠ Block.zero

theorem TailOnDisk.marks {tail : Nat} (on_disk : TailOnDisk e fid tail) (marks : Marks c e e')
    (spares : Spares own fid tail)
    (allowed : ∀ pid, c = .markDirty pid → own pid (e.content pid)) : TailOnDisk e' fid tail where
  beyond no above := by
    obtain ⟨disk, baseline⟩ := on_disk.beyond no above
    constructor
    · rcases marks.written ⟨fid, no⟩ with same | logged
      · exact same.trans disk
      · exact logged.trans baseline
    · rcases marks.baseline ⟨fid, no⟩ with same | ⟨marked, made⟩
      · exact same.trans baseline
      · exact made.trans (spares.beyond no _ (allowed _ marked) above)
  there some := by
    obtain ⟨disk, baseline⟩ := on_disk.there some
    constructor
    · rcases marks.written ⟨fid, tail⟩ with same | logged
      · rwa [same]
      · rwa [logged]
    · rcases marks.baseline ⟨fid, tail⟩ with same | ⟨marked, made⟩
      · rwa [same]
      · rw [made]
        exact spares.there some _ (allowed _ marked)

theorem TailOnDisk.moved {tail : Nat} (on_disk : TailOnDisk e fid tail) (moved : Moved e e') :
    TailOnDisk e' fid tail :=
  on_disk.marks (show Marks (.pageCount fid) e e' from moved.marks)
    (show Spares (fun _ _ => False) fid tail from
      ⟨fun _ _ never => never.elim, fun _ _ never => never.elim⟩) (by rintro pid ⟨⟩)

/-- Tails are kept in memory, and on disk as far as the caller spares them; what is undone
besides is about the caller's pages. -/
structure KeepsTails (own : PageId → Page → Prop) (e e' : Engine) : Prop where
  tails : e'.tailPages = e.tailPages
  tailUndo : e'.tailUndo = e.tailUndo
  undo : ∀ u ∈ e'.undo, u ∈ e.undo ∨ ∃ p, own u.pid p
  disk : ∀ {fid tail}, Spares own fid tail → TailOnDisk e fid tail → TailOnDisk e' fid tail

theorem KeepsTails.refl (own : PageId → Page → Prop) (e : Engine) : KeepsTails own e e :=
  ⟨rfl, rfl, fun _ => .inl, fun _ on_disk => on_disk⟩

theorem KeepsTails.trans (first : KeepsTails own e e') (second : KeepsTails own e' e'') :
    KeepsTails own e e'' :=
  ⟨second.tails.trans first.tails, second.tailUndo.trans first.tailUndo,
    fun u mem => (second.undo u mem).elim (first.undo u) .inr,
    fun spares on_disk => second.disk spares (first.disk spares on_disk)⟩

theorem Engine.Moved.keepsTails (moved : Moved e e') : KeepsTails own e e' :=
  have marks : Marks (.pageCount 0) e e' := moved.marks
  ⟨marks.tails, marks.tailUndo, fun u mem => .inl ((marks.undo u mem).resolve_right nofun),
    fun _ on_disk => on_disk.moved moved⟩

/-! ## Programs -/

namespace Working

/-- A call as runs have it keeps the tails, or the contract says nothing of it. -/
theorem call_tails (working : Working frames own e st s) (covered : Covered c)
    {r : Except Err c.Result} (called : Engine.sem c e r e') :
    (∃ s', PoolView.strict frames own c s r s' ∧ Working frames own e' (st.call c) s' ∧
      KeepsTails own e e') ∨ ∀ r s', PoolView.strict frames own c s r s' := by
  have allowed : (∀ pid, c = .markDirty pid → own pid (e.content pid)) ∨
      ∀ r s', PoolView.strict frames own c s r s' := by
    by_cases owned : ∀ pid, c = .markDirty pid → own pid (e.content pid)
    · exact .inl owned
    · obtain ⟨pid, marked⟩ := not_forall.mp owned
      obtain ⟨rfl, stray⟩ := Classical.not_imp.mp marked
      rw [working.shows.content] at stray
      exact .inr fun r s' => .inr stray
  rcases allowed with allowed | wild
  · rcases working.orderly covered with orderly | wild
    · have marks : Marks c e e' := by
        have ends := (call_marks working.shows.backed orderly).state
        have called : (Engine.call c).exit e = (r, e') := called
        rwa [called] at ends
      rcases working.call covered called with ⟨s', step, working'⟩ | wild
      · refine .inl ⟨s', step, working', marks.tails, marks.tailUndo, fun u mem => ?_,
          fun spares on_disk => on_disk.marks marks spares allowed⟩
        rcases marks.undo u mem with mem | marked
        · exact .inl mem
        · exact .inr ⟨_, allowed _ marked⟩
      · exact .inr wild
    · exact .inr wild
  · exact .inr wild

/-- A program that returns by the stricter contract keeps the tails besides. -/
theorem program_tails {α : Type} {p : PoolM α} {post : α → PoolView → Prop}
    (working : Working frames own e st s) (plain : Prog.Plain Covered p)
    (returns : Prog.Returns (PoolView.strict frames own) p s post) :
    ∃ a e' st' s', (PoolM.run p).exit e = (.ok a, e') ∧ Working frames own e' st' s' ∧
      st.SameCommitted st' ∧ KeepsTails own e e' ∧ post a s' := by
  have step : ∀ c (e₁ : Engine) (s : PoolView) r e₂, Covered c →
      (∃ st', Working frames own e₁ st' s ∧ st.SameCommitted st' ∧ KeepsTails own e e₁) →
        Engine.sem c e₁ r e₂ →
      (∃ s', PoolView.strict frames own c s r s' ∧
        ∃ st', Working frames own e₂ st' s' ∧ st.SameCommitted st' ∧ KeepsTails own e e₂) ∨
      ∀ r s', PoolView.strict frames own c s r s' := by
    rintro c e₁ s r e₂ covered ⟨st', working, same, kept⟩ called
    rcases working.call_tails covered called with ⟨s', step, working', kept'⟩ | wild
    · exact .inl ⟨s', step, _, working', same.trans (.call st' c), kept.trans kept'⟩
    · exact .inr wild
  have : Nonempty Err := ⟨.crash ""⟩
  have run := plain.returns step ⟨st, working, .refl st, .refl own e⟩ returns
  rcases exited : (PoolM.run p).exit e with ⟨r, e'⟩
  obtain ⟨a, rfl, s', ⟨st', working', same, kept⟩, holds⟩ := run r e' (PoolM.runs_iff.mpr exited)
  exact ⟨a, e', st', s', rfl, working', same, kept, holds⟩

end Working

end MySimpleDb.Storage
