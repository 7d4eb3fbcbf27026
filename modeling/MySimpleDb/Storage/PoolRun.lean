import MySimpleDb.Storage.PoolClock

/-!
# Runs of the pool

Calls to the pool in any order, with what its callers and the rest of the system
do in between, whether the calls return or raise.  A step keeps the table exact
and pinned frames in place; a page enters the cache only as it is allocated or
read, and then carries the bytes that its readers and writers gave it.
-/

namespace MySimpleDb.Storage

open MySimpleDb.Lib

/-! ## Steps -/

/-- A call to the pool, or something that happens between calls. -/
inductive PoolOp
  | read (pid : PageId) (magic : Nat)
  | allocate (pid : PageId)
  | unpin (idx : Nat)
  | markDirty (idx : Nat)
  | flush (pid : PageId)
  | flushAll
  | restoreRegion (pid : PageId) (off : Nat) (before : List UInt8)
  | dropTable (fid : Nat)
  /-- Bytes that a caller puts into a frame. -/
  | poke (idx : Nat) (p : Page)
  /-- What the system does to the files, the log and the transaction. -/
  | outside (files : FileManager) (wal : Wal) (txn : Option TxnContext)

namespace PoolOp

def run : PoolOp → EngineM Unit
  | .read pid magic => do let _ ← BufferPool.read pid magic
  | .allocate pid => do let _ ← BufferPool.allocate pid
  | .unpin idx => BufferPool.unpin idx
  | .markDirty idx => BufferPool.markDirty idx
  | .flush pid => BufferPool.flush pid
  | .flushAll => BufferPool.flushAll
  | .restoreRegion pid off before => BufferPool.restoreRegion pid off before
  | .dropTable fid => BufferPool.dropTable fid
  | .poke idx p => BufferPool.poke idx p
  | .outside files wal txn => modify fun e => { e with files, wal, txn }

/-- The state after a step, whether it returned or raised. -/
def after (op : PoolOp) (e : Engine) : Engine :=
  (op.run.exit e).2

def afterAll (ops : List PoolOp) (e : Engine) : Engine :=
  ops.foldl (fun e op => op.after e) e

/-- What callers observe: bytes are changed in pinned frames and marked dirty before the
last pin is given up, and no page of a dropped file is pinned. -/
def Allowed (e : Engine) : PoolOp → Prop
  | .unpin idx => (e.frame idx).pin = 1 → (e.frame idx).before = (e.frame idx).data
  | .poke idx _ => 0 < (e.frame idx).pin
  | .dropTable fid => ∀ i, 0 < (e.frame i).pin → (e.frame i).page.fileId ≠ fid
  | _ => True

/-- What a step makes of the bytes of a page that stays in its frame. -/
def edit (op : PoolOp) (pid : PageId) (idx : Nat) (data : Page) : Page :=
  match op with
  | .restoreRegion pid' off before => if pid' = pid then data.write off before else data
  | .poke idx' p => if idx' = idx then p else data
  | _ => data

end PoolOp

namespace Engine

def AllPinned (e : Engine) : Prop :=
  ∀ i < e.frames.length, 0 < (e.frame i).pin

/-- The files of the changed pages that are not pinned can be opened. -/
def VictimsOpen (e : Engine) : Prop :=
  ∀ i < e.frames.length, (e.frame i).pin = 0 → (e.frame i).valid = true →
    (e.frame i).dirty = true → e.files.Opens (e.frame i).page.fileId

end Engine

namespace PoolOp

/-- A page that is not cached comes in only where the files that this takes can be opened:
its own, unless no frame is free for it, and those of changed pages that may have to leave. -/
def Opens (e : Engine) : PoolOp → Prop
  | .read pid _ => e.find pid = none →
      e.VictimsOpen ∧ (e.AllPinned ∨ e.files.Opens pid.fileId)
  | .allocate pid => e.find pid = none → e.VictimsOpen
  | _ => True

/-- Bytes with which a step brings a page into the cache. -/
def Brings (e : Engine) (pid : PageId) (data : Page) : PoolOp → Prop
  | .allocate pid' => pid' = pid
  | .read pid' magic => pid' = pid ∧ ((PoolOp.read pid' magic).Opens e →
      pageValid data magic = true ∧ data = e.files.pages pid)
  | _ => False

end PoolOp

open PoolOp Engine Attempt

variable {e e' : Engine} {op : PoolOp} {pid : PageId} {idx i : Nat}

/-- The invariant of the pool: a pinned frame holds a page, and what was changed in a frame
is logged when its last pin is given up. -/
structure Engine.Tidy (e : Engine) : Prop where
  indexed : e.Indexed
  pinned : ∀ i, 0 < (e.frame i).pin → (e.frame i).valid = true
  logged : ∀ i, (e.frame i).pin = 0 → (e.frame i).before = (e.frame i).data

/-- What a step can do. -/
structure Stepped (op : PoolOp) (e e' : Engine) : Prop where
  tidy : e'.Tidy
  /-- Pinned frames keep their pages. -/
  pinned : ∀ i, 0 < (e.frame i).pin → (e'.frame i).valid = true ∧
    (e'.frame i).page = (e.frame i).page
  /-- A page that is cached then was so in the same frame, or came in. -/
  frames : ∀ i, (e'.frame i).valid = true →
    ((e.frame i).valid = true ∧ (e'.frame i).page = (e.frame i).page ∧
      (e'.frame i).data = op.edit (e.frame i).page i (e.frame i).data) ∨
    (e.find (e'.frame i).page = none ∧ op.Brings e (e'.frame i).page (e'.frame i).data)

/-! ## Steps on single frames -/

theorem Engine.Tidy.of_core (tidy : e.Tidy) (indexed : e'.Indexed)
    (core : ∀ i, (e'.frame i).core = (e.frame i).core) : e'.Tidy where
  indexed := indexed
  pinned i := by
    rw [pin_of_core (core i), valid_of_core (core i)]
    exact tidy.pinned i
  logged i := by
    rw [pin_of_core (core i), before_of_core (core i), data_of_core (core i)]
    exact tidy.logged i

/-- A step that leaves the frames alone. -/
theorem Stepped.of_core (tidy : e.Tidy) (indexed : e'.Indexed)
    (core : ∀ i, (e'.frame i).core = (e.frame i).core)
    (same : ∀ i, (e.frame i).valid = true →
      op.edit (e.frame i).page i (e.frame i).data = (e.frame i).data) : Stepped op e e' where
  tidy := tidy.of_core indexed core
  pinned i pinned := by
    rw [valid_of_core (core i)]
    exact ⟨tidy.pinned i pinned, page_of_core (core i)⟩
  frames i valid := by
    rw [valid_of_core (core i)] at valid
    exact .inl ⟨valid, page_of_core (core i), (data_of_core (core i)).trans (same i valid).symm⟩

theorem Stepped.of_calm (tidy : e.Tidy) (calm : Calm e e')
    (same : ∀ pid i data, op.edit pid i data = data) : Stepped op e e' :=
  Stepped.of_core tidy (calm.indexed tidy.indexed) calm.core fun _ _ => same ..

/-- A step that changes one frame and leaves its page there. -/
theorem Stepped.of_setFrame (tidy : e.Tidy) {f : PageFrame}
    (frames : e'.frames = (e.setFrame idx f).frames) (table : e'.pageTable = e.pageTable)
    (page : f.page = (e.frame idx).page) (valid : f.valid = (e.frame idx).valid)
    (pinned : 0 < f.pin → (e.frame idx).valid = true) (logged : f.pin = 0 → f.before = f.data)
    (data : f.data = op.edit (e.frame idx).page idx (e.frame idx).data)
    (others : ∀ i, i ≠ idx → (e.frame i).valid = true →
      op.edit (e.frame i).page i (e.frame i).data = (e.frame i).data) : Stepped op e e' := by
  have frame : ∀ i, e'.frame i = (e.setFrame idx f).frame i := by
    intro i
    rw [Engine.frame, frames, Engine.frame]
  have length : e'.frames.length = (e.setFrame idx f).frames.length := by rw [frames]
  have cases_on : ∀ i, (i = idx ∧ e'.frame i = f) ∨ e'.frame i = e.frame i := by
    intro i
    rw [frame, frame_setFrame_eq]
    split
    · rename_i here
      exact .inl ⟨here.1, rfl⟩
    · exact .inr rfl
  have indexed : e'.Indexed :=
    (tidy.indexed.setFrame page valid).congr table length (fun i => by rw [frame])
      fun i => by rw [frame]
  refine ⟨⟨indexed, ?_, ?_⟩, ?_, ?_⟩
  · intro i
    rcases cases_on i with ⟨rfl, at_f⟩ | kept
    · rw [at_f, valid]
      exact pinned
    · rw [kept]
      exact tidy.pinned i
  · intro i
    rcases cases_on i with ⟨rfl, at_f⟩ | kept
    · rw [at_f]
      exact logged
    · rw [kept]
      exact tidy.logged i
  · intro i was
    rcases cases_on i with ⟨rfl, at_f⟩ | kept
    · rw [at_f, valid]
      exact ⟨tidy.pinned i was, page⟩
    · rw [kept]
      exact ⟨tidy.pinned i was, rfl⟩
  · intro i now
    by_cases here : i = idx
    · subst here
      rcases cases_on i with ⟨-, at_f⟩ | kept
      · rw [at_f] at now ⊢
        exact .inl ⟨valid ▸ now, page, data⟩
      · rw [kept] at now ⊢
        by_cases inRange : i < e.frames.length
        · rw [frame, frame_setFrame inRange] at kept
          exact .inl ⟨now, rfl, kept ▸ data⟩
        · rw [frame_out_of_range (Nat.le_of_not_lt inRange)] at now
          exact absurd now (by decide)
    · rcases cases_on i with ⟨equal, -⟩ | kept
      · exact absurd equal here
      · rw [kept] at now ⊢
        exact .inl ⟨now, rfl, (others i here now).symm⟩

/-- A step that uses one frame, which was not pinned, for a page that comes in or for none. -/
theorem Stepped.of_others (tidy : e.Tidy) (indexed : e'.Indexed) (unpinned : (e.frame idx).pin = 0)
    (core : ∀ i, i ≠ idx → (e'.frame i).core = (e.frame i).core)
    (same : ∀ pid i data, op.edit pid i data = data)
    (pinned : 0 < (e'.frame idx).pin → (e'.frame idx).valid = true)
    (logged : (e'.frame idx).pin = 0 → (e'.frame idx).before = (e'.frame idx).data)
    (comes : (e'.frame idx).valid = true → e.find (e'.frame idx).page = none ∧
      op.Brings e (e'.frame idx).page (e'.frame idx).data) : Stepped op e e' := by
  refine ⟨⟨indexed, ?_, ?_⟩, ?_, ?_⟩
  · intro i
    by_cases here : i = idx
    · exact here ▸ pinned
    · rw [pin_of_core (core i here), valid_of_core (core i here)]
      exact tidy.pinned i
  · intro i
    by_cases here : i = idx
    · exact here ▸ logged
    · rw [pin_of_core (core i here), before_of_core (core i here), data_of_core (core i here)]
      exact tidy.logged i
  · intro i was
    have apart : i ≠ idx := by
      rintro rfl
      omega
    exact ⟨(valid_of_core (core i apart)).trans (tidy.pinned i was), page_of_core (core i apart)⟩
  · intro i valid
    by_cases here : i = idx
    · subst here
      exact .inr (comes valid)
    · rw [valid_of_core (core i here)] at valid
      exact .inl ⟨valid, page_of_core (core i here),
        (data_of_core (core i here)).trans (same ..).symm⟩

/-! ## Calls on frames -/

namespace BufferPool

theorem frameIndex_eq_some {found : Nat} (indexed : frameIndex e idx = some found) :
    found = idx ∧ idx < e.frames.length ∧ (e.frame idx).valid = true := by
  rw [frameIndex] at indexed
  split at indexed
  · rename_i both
    exact ⟨(Option.some.inj indexed).symm, both⟩
  · cases indexed

/-- A step ends in a `Stepped` state, whether it returns or raises. -/
def StepEnds (op : PoolOp) (e : Engine) : Prop :=
  Ends op.run e (fun _ => Stepped op e) fun _ => Stepped op e

theorem unpin_step (tidy : e.Tidy) (allowed : (PoolOp.unpin idx).Allowed e) :
    StepEnds (.unpin idx) e := by
  simp only [StepEnds, PoolOp.run, unpin, ends_bind, ends_get]
  rcases found : frameIndex e idx with _ | idx'
  · exact Stepped.of_core tidy tidy.indexed (fun _ => rfl) fun _ _ => rfl
  · obtain ⟨rfl, -, valid⟩ := frameIndex_eq_some found
    refine Stepped.of_setFrame tidy rfl rfl rfl rfl (fun _ => valid) ?_ rfl fun _ _ _ => rfl
    intro last
    change (e.frame idx').before = (e.frame idx').data
    have few : (e.frame idx').pin = 0 ∨ (e.frame idx').pin = 1 := by
      have last : (e.frame idx').pin - 1 = 0 := last
      omega
    rcases few with none | one
    · exact tidy.logged idx' none
    · exact allowed one

theorem markDirty_step (tidy : e.Tidy) : StepEnds (.markDirty idx) e := by
  simp only [StepEnds, PoolOp.run, markDirty, ends_bind, ends_get]
  have kept : Stepped (.markDirty idx) e e :=
    Stepped.of_core tidy tidy.indexed (fun _ => rfl) fun _ _ => rfl
  rcases found : frameIndex e idx with _ | idx'
  · exact kept
  · rcases active : e.txn with _ | txn
    · exact kept
    · obtain ⟨rfl, -, valid⟩ := frameIndex_eq_some found
      exact Stepped.of_setFrame tidy rfl rfl rfl rfl (fun _ => valid) (fun _ => rfl) rfl
        fun _ _ _ => rfl

theorem poke_step (tidy : e.Tidy) {p : Page} (allowed : (PoolOp.poke idx p).Allowed e) :
    StepEnds (.poke idx p) e := by
  have pinned : 0 < (e.frame idx).pin := allowed
  refine Stepped.of_setFrame tidy rfl rfl rfl rfl (tidy.pinned idx) ?_ ?_ ?_
  · intro unpinned
    exact absurd unpinned (Nat.pos_iff_ne_zero.mp pinned)
  · exact (if_pos rfl).symm
  · intro i apart _
    exact if_neg fun same => apart same.symm

theorem outside_step (tidy : e.Tidy) {files : FileManager} {wal : Wal} {txn : Option TxnContext} :
    StepEnds (.outside files wal txn) e :=
  Stepped.of_core tidy (tidy.indexed.congr rfl rfl (fun _ => rfl) fun _ => rfl) (fun _ => rfl)
    fun _ _ => rfl

theorem flush_step (tidy : e.Tidy) : StepEnds (.flush pid) e := by
  simp only [StepEnds, PoolOp.run, flush, ends_bind, ends_get]
  rcases e.find pid with _ | idx
  · exact Stepped.of_calm tidy (Calm.refl e) fun _ _ _ => rfl
  · apply (writeBack_ends tidy.indexed).mono
    · exact fun _ _ calm => Stepped.of_calm tidy calm fun _ _ _ => rfl
    · rintro - _ ⟨rfl, -⟩
      exact Stepped.of_calm tidy (Calm.refl _) fun _ _ _ => rfl

/-- Frames are written back one after another. -/
theorem writeBackAll_ends (indexed : e.Indexed) (frames : List Nat) :
    Ends (frames.forM writeBack) e (fun _ => Calm e) fun _ => Calm e := by
  induction frames generalizing e with
  | nil => exact Calm.refl e
  | cons idx frames inductionHypothesis =>
      change Ends (writeBack idx >>= fun _ => frames.forM writeBack) e _ _
      rw [ends_bind]
      apply (writeBack_ends indexed).mono
      · intro _ e₁ first
        exact (inductionHypothesis (first.indexed indexed)).mono
          (fun _ _ rest => first.trans rest) fun _ _ rest => first.trans rest
      · rintro - _ ⟨rfl, -⟩
        exact Calm.refl _

theorem flushAll_step (tidy : e.Tidy) : StepEnds .flushAll e := by
  simp only [StepEnds, PoolOp.run, flushAll, ends_bind, ends_get]
  exact (writeBackAll_ends tidy.indexed _).mono
    (fun _ _ calm => Stepped.of_calm tidy calm fun _ _ _ => rfl)
    fun _ _ calm => Stepped.of_calm tidy calm fun _ _ _ => rfl

theorem restoreRegion_step (tidy : e.Tidy) {off : Nat} {before : List UInt8} :
    StepEnds (.restoreRegion pid off before) e := by
  simp only [StepEnds, PoolOp.run, restoreRegion, ends_bind, ends_get]
  rcases found : e.find pid with _ | idx
  · have elsewhere : ∀ i, (e.frame i).valid = true →
        (PoolOp.restoreRegion pid off before).edit (e.frame i).page i (e.frame i).data =
          (e.frame i).data := by
      intro i valid
      refine if_neg ?_
      rintro rfl
      rw [(tidy.indexed.find_iff _ i).mpr ⟨range_of_valid valid, valid, rfl⟩] at found
      cases found
    have kept : ∀ files : FileManager,
        Stepped (.restoreRegion pid off before) e { e with files } := fun files =>
      Stepped.of_core tidy (tidy.indexed.congr rfl rfl (fun _ => rfl) fun _ => rfl)
        (fun _ => rfl) elsewhere
    simp only [onFiles, ends_bind, ends_onPart]
    apply FileManager.readPage_opens.mono
    · intro data files _
      exact FileManager.writePage_opens.mono (fun _ files' _ => kept files')
        fun _ files' _ => kept files'
    · exact fun _ files _ => kept files
  · obtain ⟨inRange, valid, page⟩ := (tidy.indexed.find_iff pid idx).mp found
    refine Stepped.of_setFrame tidy rfl rfl rfl rfl (fun _ => valid) ?_ ?_ ?_
    · intro unpinned
      exact congrArg (fun p : Page => p.write off before) (tidy.logged idx unpinned)
    · exact (if_pos page.symm).symm
    · intro i apart i_valid
      refine if_neg ?_
      rintro rfl
      exact apart (tidy.indexed.unique (range_of_valid i_valid) inRange i_valid valid page.symm)

/-! ## Dropping the pages of a file -/

/-- Each frame is as before, or held a page of the file and is reset. -/
structure Dropped (fid : Nat) (e e' : Engine) : Prop where
  indexed : e'.Indexed
  frames : ∀ i, (e'.frame i).core = (e.frame i).core ∨
    ((e.frame i).page.fileId = fid ∧ (e'.frame i).core = ({} : PageFrame).core)

theorem Dropped.calm {fid : Nat} {e'' : Engine} (dropped : Dropped fid e e') (calm : Calm e' e'') :
    Dropped fid e e'' where
  indexed := calm.indexed dropped.indexed
  frames i := by
    rw [calm.core i]
    exact dropped.frames i

/-- One more page is dropped. -/
theorem Dropped.discard {fid : Nat} (dropped : Dropped fid e e') (found : e'.find pid = some idx)
    (own : pid.fileId = fid) : Dropped fid e ((e'.setFrame idx {}).erase pid) := by
  obtain ⟨inRange, valid, page⟩ := (dropped.indexed.find_iff pid idx).mp found
  refine ⟨dropped.indexed.discard found rfl, fun i => ?_⟩
  change ((e'.setFrame idx {}).frame i).core = _ ∨ _ ∧ ((e'.setFrame idx {}).frame i).core = _
  by_cases here : i = idx
  · subst here
    rw [frame_setFrame inRange]
    refine .inr ⟨?_, rfl⟩
    rcases dropped.frames i with core | ⟨-, reset⟩
    · rw [← page_of_core core, page, own]
    · rw [valid_of_core reset] at valid
      cases valid
  · rw [frame_setFrame_of_ne here]
    exact dropped.frames i

theorem dropPages_ends {fid : Nat} (entries : List (PageId × Nat))
    (keys : (entries.map Prod.fst).Nodup) (dropped : Dropped fid e e')
    (held : ∀ entry ∈ entries, e'.find entry.1 = some entry.2) :
    Ends (entries.forM fun (pid, idx) => do
      if pid.fileId = fid then
        writeBack idx
        modify fun e => (e.setFrame idx {}).erase pid : EngineM Unit) e'
      (fun _ => Dropped fid e) fun _ => Dropped fid e := by
  induction entries generalizing e' with
  | nil => exact dropped
  | cons entry entries inductionHypothesis =>
      obtain ⟨pid, idx⟩ := entry
      rw [List.map_cons, List.nodup_cons] at keys
      have rest := fun {e' : Engine} => @inductionHypothesis e' keys.2
      change Ends ((if pid.fileId = fid then do
          writeBack idx
          modify fun e => (e.setFrame idx {}).erase pid
        else pure () : EngineM Unit) >>= fun _ => entries.forM _) e' _ _
      simp only [ends_bind, ends_ite, ends_pure, ends_modify]
      by_cases own : pid.fileId = fid
      · rw [if_pos own]
        apply (writeBack_ends dropped.indexed).mono
        · intro _ e₁ calm
          have found : e₁.find pid = some idx :=
            (calm.find pid).trans (held (pid, idx) List.mem_cons_self)
          apply rest ((dropped.calm calm).discard found own)
          intro entry mem
          have apart : entry.1 ≠ pid := fun same =>
            keys.1 (List.mem_map.mpr ⟨entry, mem, same⟩)
          rw [find_erase, if_neg apart]
          exact (calm.find entry.1).trans (held entry (List.mem_cons_of_mem _ mem))
        · rintro - _ ⟨rfl, -⟩
          exact dropped
      · rw [if_neg own]
        exact rest dropped fun entry mem => held entry (List.mem_cons_of_mem _ mem)

theorem dropTable_step (tidy : e.Tidy) {fid : Nat} (allowed : (PoolOp.dropTable fid).Allowed e) :
    StepEnds (.dropTable fid) e := by
  have stepped : ∀ e', Dropped fid e e' → Stepped (.dropTable fid) e e' := by
    intro e' dropped
    refine ⟨⟨dropped.indexed, ?_, ?_⟩, ?_, ?_⟩
    · intro i
      rcases dropped.frames i with core | ⟨-, core⟩
      · rw [pin_of_core core, valid_of_core core]
        exact tidy.pinned i
      · rw [pin_of_core core]
        exact fun none => absurd none (Nat.lt_irrefl 0)
    · intro i
      rcases dropped.frames i with core | ⟨-, core⟩
      · rw [pin_of_core core, before_of_core core, data_of_core core]
        exact tidy.logged i
      · rw [before_of_core core, data_of_core core]
        exact fun _ => rfl
    · intro i pinned
      rcases dropped.frames i with core | ⟨own, -⟩
      · exact ⟨(valid_of_core core).trans (tidy.pinned i pinned), page_of_core core⟩
      · exact absurd own (allowed i pinned)
    · intro i valid
      rcases dropped.frames i with core | ⟨-, core⟩
      · exact .inl ⟨(valid_of_core core) ▸ valid, page_of_core core, data_of_core core⟩
      · rw [valid_of_core core] at valid
        cases valid
  simp only [StepEnds, PoolOp.run, dropTable, ends_bind, ends_get]
  exact (dropPages_ends e.pageTable tidy.indexed.keys ⟨tidy.indexed, fun _ => .inl rfl⟩
    fun _ => tidy.indexed.find_of_mem).mono (fun _ => stepped) fun _ => stepped

/-! ## Bringing a page in -/

/-- A page that was not cached is in the frame, and the pages of the others are cached as
before. -/
structure Filled (e : Engine) (pid : PageId) (idx : Nat) (f : PageFrame) (e' : Engine) : Prop where
  indexed : e'.Indexed
  found : e'.find pid = some idx
  frame : e'.frame idx = f
  absent : e.find pid = none
  unpinned : (e.frame idx).pin = 0
  inRange : idx < e.frames.length
  core : ∀ i, i ≠ idx → (e'.frame i).core = (e.frame i).core
  opens : ∀ fid, e'.files.Opens fid ↔ e.files.Opens fid
  onDisk : e'.files.pages pid = e.files.pages pid

theorem Evicted.fill {e₁ : Engine} {f : PageFrame} (evicted : Evicted e idx e₁)
    (absent : e.find pid = none) (valid : f.valid = true) (page : f.page = pid) :
    Filled e pid idx f ((e₁.setFrame idx f).emplace pid idx) := by
  have absent₁ : e₁.find pid = none := evicted.absent pid absent
  have absent' : (e₁.setFrame idx f).find pid = none := absent₁
  have same : (e₁.setFrame idx f).emplace pid idx =
      { e₁.setFrame idx f with pageTable := (pid, idx) :: e₁.pageTable } := by
    rw [emplace, absent']
    rfl
  have indexed := evicted.indexed.fill evicted.inRange evicted.vacant absent₁ valid page
  have found : ((e₁.setFrame idx f).emplace pid idx).find pid = some idx := by
    rw [find_emplace absent', if_pos rfl]
  rw [same] at indexed found ⊢
  refine ⟨indexed, found, frame_setFrame evicted.inRange f, absent, evicted.unpinned,
    evicted.length ▸ evicted.inRange, ?_, evicted.opens, evicted.pages pid absent⟩
  intro i apart
  exact (congrArg PageFrame.core (frame_setFrame_of_ne apart f)).trans (evicted.core i apart)

theorem Filled.setFrame {f g : PageFrame} (filled : Filled e pid idx f e') (page : g.page = f.page)
    (valid : g.valid = f.valid) : Filled e pid idx g (e'.setFrame idx g) := by
  have inRange := filled.indexed.inRange filled.found
  refine ⟨?_, filled.found, frame_setFrame inRange g, filled.absent, filled.unpinned,
    filled.inRange, ?_, filled.opens, filled.onDisk⟩
  · apply filled.indexed.setFrame
    · rw [page, filled.frame]
    · rw [valid, filled.frame]
  · intro i apart
    rw [frame_setFrame_of_ne apart]
    exact filled.core i apart

theorem Filled.files {f : PageFrame} {files : FileManager} (filled : Filled e pid idx f e')
    (pages : files.pages = e'.files.pages)
    (opens : ∀ fid, files.Opens fid ↔ e'.files.Opens fid) :
    Filled e pid idx f { e' with files } :=
  ⟨filled.indexed.congr rfl rfl (fun _ => rfl) fun _ => rfl, filled.found, filled.frame,
    filled.absent, filled.unpinned, filled.inRange, filled.core,
    fun fid => (opens fid).trans (filled.opens fid),
    (congrFun pages pid).trans filled.onDisk⟩

theorem Filled.step {f : PageFrame} (filled : Filled e pid idx f e') (tidy : e.Tidy)
    (same : ∀ pid i data, op.edit pid i data = data) (valid : f.valid = true) (page : f.page = pid)
    (pinned : 0 < f.pin) (brings : op.Brings e pid f.data) : Stepped op e e' := by
  refine Stepped.of_others tidy filled.indexed filled.unpinned filled.core same ?_ ?_ ?_
  · rw [filled.frame]
    exact fun _ => valid
  · rw [filled.frame]
    intro none
    omega
  · rw [filled.frame, page]
    exact fun _ => ⟨filled.absent, brings⟩

/-- A page taken out again at once. -/
theorem Filled.discarded {f : PageFrame} (filled : Filled e pid idx f e') (tidy : e.Tidy)
    (same : ∀ pid i data, op.edit pid i data = data) :
    Stepped op e ((e'.erase pid).setFrame idx {}) ∧ (op.Opens e →
      ((e'.erase pid).setFrame idx {}).find pid = none ∧
      ∀ i, (((e'.erase pid).setFrame idx {}).frame i).pin ≤ (e.frame i).pin) := by
  have frame : ((e'.erase pid).setFrame idx {}).frame idx = {} :=
    frame_setFrame (filled.indexed.inRange filled.found) {}
  have core : ∀ i, i ≠ idx →
      (((e'.erase pid).setFrame idx {}).frame i).core = (e.frame i).core := fun i apart =>
    (congrArg PageFrame.core (frame_setFrame_of_ne apart {})).trans (filled.core i apart)
  refine ⟨?_, fun _ => ⟨?_, fun i => ?_⟩⟩
  · apply Stepped.of_others tidy (filled.indexed.discard filled.found rfl) filled.unpinned core same
    · rw [frame]
      exact fun none => absurd none (Nat.lt_irrefl 0)
    · rw [frame]
      exact fun _ => rfl
    · rw [frame]
      exact fun valid => nomatch valid
  · change (e'.erase pid).find pid = none
    rw [find_erase, if_pos rfl]
  · by_cases here : i = idx
    · rw [here, frame]
      exact Nat.zero_le _
    · exact Nat.le_of_eq (pin_of_core (core i here))

/-- A frame was free, so the file of a page that was not read is one that cannot be opened. -/
theorem Filled.refused {f : PageFrame} {magic : Nat} (filled : Filled e pid idx f e')
    (closed : ¬ e'.files.Opens pid.fileId) : ¬ (PoolOp.read pid magic).Opens e := by
  intro opens
  rcases (opens filled.absent).2 with all | own
  · have pinned := all idx filled.inRange
    rw [filled.unpinned] at pinned
    exact Nat.lt_irrefl 0 pinned
  · exact closed ((filled.opens _).mpr own)

/-- Where the files of the pages that may leave can be opened, only pins stop an eviction. -/
theorem allPinned_of_raised {err : Err} (tidy : e.Tidy)
    (victims : e.VictimsOpen)
    (why : (err = PoolView.noFrame ∧ ∀ i < e.frames.length, 0 < (e.frame i).pin) ∨
      ∃ idx < e.frames.length, (e.frame idx).pin = 0 ∧ e.Stuck idx) : e.AllPinned := by
  rcases why with ⟨-, all⟩ | ⟨idx, inRange, unpinned, valid, dirty, reason⟩
  · exact all
  · rcases reason with unlogged | closed
    · exact absurd (tidy.logged idx unpinned) unlogged
    · exact absurd (victims idx inRange unpinned valid dirty) closed

theorem evict_raises (tidy : e.Tidy) (victims : e.VictimsOpen) :
    (∃ err, (evict.exit e).1 = .error err) ↔ e.AllPinned := by
  constructor
  · rintro ⟨err, raised⟩
    have ends := evict_ends tidy.indexed
    unfold Ends at ends
    rcases exited : evict.exit e with ⟨_ | _, e'⟩
    · rw [exited] at ends
      exact allPinned_of_raised tidy victims ends.2
    · rw [exited] at raised
      cases raised
  · intro all
    have ends := evict_pinned all
    unfold Ends at ends
    rcases exited : evict.exit e with ⟨err | idx, e'⟩
    · exact ⟨err, rfl⟩
    · rw [exited] at ends
      exact ends.elim

theorem allocate_step (tidy : e.Tidy) : StepEnds (.allocate pid) e := by
  simp only [StepEnds, PoolOp.run, allocate, ends_bind, ends_get]
  rcases found : e.find pid with _ | idx
  · simp only [ends_bind, ends_modify, ends_pure]
    apply (evict_ends tidy.indexed).mono
    · intro idx e₁ evicted
      exact (evicted.fill found rfl rfl).step tidy (fun _ _ _ => rfl) rfl rfl Nat.one_pos rfl
    · exact fun _ _ why => Stepped.of_calm tidy why.1 fun _ _ _ => rfl
  · have valid := ((tidy.indexed.find_iff pid idx).mp found).2.1
    refine Stepped.of_setFrame tidy rfl rfl rfl rfl (fun _ => valid) ?_ rfl fun _ _ _ => rfl
    exact fun none => absurd none (Nat.succ_ne_zero _)

/-- A read that returns finds the page in the frame it returns.  Where the files that it takes
can be opened, a read that raises leaves the page out of the cache and no frame pinned for
it; where its own file is the one that cannot be, the page stays. -/
theorem read_ends (tidy : e.Tidy) {magic : Nat} :
    Ends (read pid magic) e
      (fun idx e' => Stepped (.read pid magic) e e' ∧ e'.find pid = some idx ∧
        (e.VictimsOpen → (PoolOp.read pid magic).Opens e))
      fun _ e' => Stepped (.read pid magic) e e' ∧
        ((PoolOp.read pid magic).Opens e →
          e'.find pid = none ∧ ∀ i, (e'.frame i).pin ≤ (e.frame i).pin) ∧
        (e.VictimsOpen → ¬ (PoolOp.read pid magic).Opens e → e'.find pid ≠ none) := by
  simp only [read, ends_bind, ends_get]
  rcases found : e.find pid with _ | idx
  · simp only [onFiles, ends_bind, ends_modify, ends_onPart]
    apply (evict_ends tidy.indexed).mono
    · intro idx e₁ evicted
      have filled := evicted.fill found (f := { page := pid, valid := true, ref := true, pin := 1 })
        rfl rfl
      generalize (e₁.setFrame idx _).emplace pid idx = e₂ at filled ⊢
      apply FileManager.readPage_opens.mono
      · rintro data files ⟨rfl, pages, opens, own⟩
        have opened : e.VictimsOpen → (PoolOp.read pid magic).Opens e := fun victims _ =>
          ⟨victims, .inr ((filled.opens _).mp own)⟩
        have taken := filled.files pages opens
        have loaded := taken.setFrame
          (g := { ({ e₂ with files } : Engine).frame idx with data := e₂.files.pages pid })
          (by rw [taken.frame]) (by rw [taken.frame])
        generalize ({ e₂ with files } : Engine).setFrame idx _ = e₃ at loaded ⊢
        rw [taken.frame] at loaded
        simp only [ends_ite, ends_bind, ends_modify, ends_pure, ends_throw]
        by_cases valid : pageValid (e₂.files.pages pid) magic = true
        · rw [if_pos valid]
          have settled := loaded.setFrame
            (g := { e₃.frame idx with before := e₂.files.pages pid })
            (by rw [loaded.frame]) (by rw [loaded.frame])
          have data : (e₃.frame idx).data = e₂.files.pages pid := by rw [loaded.frame]
          refine ⟨settled.step tidy (fun _ _ _ => rfl) ?_ ?_ ?_ ?_, settled.found, opened⟩
          · rw [loaded.frame]
          · rw [loaded.frame]
          · rw [loaded.frame]
            exact Nat.one_pos
          · refine ⟨rfl, fun _ => ⟨?_, data.trans filled.onDisk⟩⟩
            change pageValid (e₃.frame idx).data magic = true
            rw [data]
            exact valid
        · rw [if_neg valid]
          obtain ⟨stepped, absent⟩ := @Filled.discarded _ _ (.read pid magic) _ _ _ loaded tidy
            fun _ _ _ => rfl
          exact ⟨stepped, absent, fun victims closed => absurd (opened victims) closed⟩
      · rintro err files ⟨rfl, closed⟩
        refine ⟨filled.step tidy (fun _ _ _ => rfl) rfl rfl Nat.one_pos ⟨rfl, ?_⟩, ?_, ?_⟩
        · exact fun opens => absurd opens (filled.refused closed)
        · exact fun opens => absurd opens (filled.refused closed)
        · intro _ _ absent
          have found₂ := filled.found
          rw [show e₂.find pid = none from absent] at found₂
          cases found₂
    · rintro err e' ⟨calm, why⟩
      refine ⟨Stepped.of_calm tidy calm fun _ _ _ => rfl, fun _ => ⟨?_, ?_⟩, ?_⟩
      · exact (calm.find pid).trans found
      · exact fun i => Nat.le_of_eq (pin_of_core (calm.core i))
      · intro victims closed
        exact absurd (fun _ => ⟨victims, .inl (allPinned_of_raised tidy victims why)⟩) closed
  · have valid := ((tidy.indexed.find_iff pid idx).mp found).2.1
    refine ⟨Stepped.of_setFrame tidy rfl rfl rfl rfl (fun _ => valid) ?_ rfl fun _ _ _ => rfl,
      found, ?_⟩
    · exact fun none => absurd none (Nat.succ_ne_zero _)
    · intro _ absent
      rw [found] at absent
      cases absent

end BufferPool

end MySimpleDb.Storage
