import MySimpleDb.Storage.PoolRefine

/-!
# Flushing, dropping and restoring pages

All frames written back, the frames of a file given up, and the undo entries of a
transaction put back, as they change what the pool holds.
-/

namespace MySimpleDb.Storage

open MySimpleDb.Lib Engine Attempt

namespace BufferPool

variable {e e' : Engine} {pid : PageId} {idx fid : Nat} {top : Nat → Nat}

/-- Every change in a frame is logged. -/
def AllLogged (e : Engine) : Prop :=
  ∀ pid, e.baseline pid = e.content pid

theorem AllLogged.moved (logged : AllLogged e) (moved : Moved e e') : AllLogged e' := fun pid =>
  (moved.baseline pid).trans ((logged pid).trans (moved.content pid).symm)

theorem AllLogged.frame (logged : AllLogged e) (backed : e.Backed top)
    (valid : (e.frame idx).valid = true) : (e.frame idx).before = (e.frame idx).data := by
  have found := (backed.tidy.indexed.find_iff _ idx).mpr ⟨range_of_valid valid, valid, rfl⟩
  rw [← baseline_of_find found, logged, content_of_find found]

/-! ## Flushing -/

/-- Frames written back one after another are clean then, and contents stay. -/
theorem writeBackAll_moved (backed : e.Backed top) (logged : AllLogged e) (frames : List Nat) :
    Ends (frames.forM writeBack) e
      (fun _ e' => Moved e e' ∧ e'.Backed top ∧ Calm e e' ∧
        ∀ i ∈ frames, (e'.frame i).valid = true → (e'.frame i).dirty = false)
      fun _ _ => False := by
  induction frames generalizing e with
  | nil =>
      refine ⟨Moved.refl e, backed, Calm.refl e, ?_⟩
      rintro i ⟨⟩
  | cons idx frames inductionHypothesis =>
      change Ends (writeBack idx >>= fun _ => frames.forM writeBack) e _ _
      rw [ends_bind]
      apply (writeBack_moved backed fun valid _ => logged.frame backed valid).mono
      · rintro - e₁ ⟨⟨moved, backed₁, calm⟩, clean⟩
        apply (inductionHypothesis backed₁ (logged.moved moved)).mono
        · rintro - e₂ ⟨moved', backed₂, calm', rest⟩
          refine ⟨moved.trans moved', backed₂, calm.trans calm', ?_⟩
          intro i mem valid
          rcases List.mem_cons.mp mem with rfl | mem
          · rw [valid_of_core (calm'.core i)] at valid
            have was_clean := clean valid
            by_contra dirty
            rw [calm'.dirty i (Bool.not_eq_false _ ▸ dirty)] at was_clean
            cases was_clean
          · exact rest i mem valid
        · exact fun _ _ never => never
      · exact fun _ _ never => never

theorem flushAll_moved (backed : e.Backed top) (logged : AllLogged e) :
    Ends flushAll e
      (fun _ e' => Moved e e' ∧ e'.Backed top ∧ (∀ pid, e'.pinCount pid = e.pinCount pid) ∧
        ∀ i, (e'.frame i).valid = true → (e'.frame i).dirty = false)
      fun _ _ => False := by
  simp only [flushAll, ends_bind, ends_get]
  apply (writeBackAll_moved backed logged _).mono
  · rintro - e' ⟨moved, backed', calm, clean⟩
    refine ⟨moved, backed', calm.pinCount, fun i valid => clean i ?_ valid⟩
    rw [List.mem_range, ← calm.length]
    exact range_of_valid valid
  · exact fun _ _ never => never

/-! ## Dropping -/

/-- The frame of a page given up and cleared. -/
theorem discard_moved (backed : e.Backed top) (found : e.find pid = some idx)
    (unpinned : (e.frame idx).pin = 0) (clean : (e.frame idx).dirty = false) :
    Moved e ((e.setFrame idx {}).erase pid) ∧ ((e.setFrame idx {}).erase pid).Backed top ∧
      ∀ other, ((e.setFrame idx {}).erase pid).pinCount other = e.pinCount other := by
  obtain ⟨inRange, valid, page⟩ := (backed.tidy.indexed.find_iff pid idx).mp found
  obtain ⟨moved, backed', pins⟩ := vacated_moved backed inRange unpinned fun _ => clean
  have vacant : ((vacated e idx).frame idx).valid = false := by
    rw [frame_vacated inRange, if_pos rfl]
  obtain ⟨moved', backed'', pins'⟩ :=
    clear_moved (f := {}) backed' vacant rfl rfl rfl
  have cleared : (vacated e idx).setFrame idx {} =
      { (e.setFrame idx {}).erase pid with clockHand := (idx + 1) % e.frames.length } := by
    rw [vacated, if_pos valid, page]
    simp [setFrame, erase]
  have gone := moved.trans moved'
  rw [cleared] at gone backed''
  refine ⟨⟨⟨gone.kept.length, rfl, rfl, rfl, rfl, rfl, rfl, gone.kept.written⟩, gone.content,
    gone.baseline⟩, backed''.congr rfl rfl rfl, fun other => ?_⟩
  have total := (pins' other).trans (pins other)
  rw [cleared] at total
  exact total

/-- The frames of a file are given up; contents stay. -/
theorem dropPages_moved (entries : List (PageId × Nat)) (keys : (entries.map Prod.fst).Nodup)
    (backed : e.Backed top) (logged : AllLogged e)
    (unpinned : ∀ pid, pid.fileId = fid → e.pinCount pid = 0)
    (held : ∀ entry ∈ entries, e.find entry.1 = some entry.2) :
    Ends (entries.forM fun (pid, idx) => do
      if pid.fileId = fid then
        writeBack idx
        modify fun e => (e.setFrame idx {}).erase pid : EngineM Unit) e
      (fun _ e' => Moved e e' ∧ e'.Backed top ∧ ∀ pid, e'.pinCount pid = e.pinCount pid)
      fun _ _ => False := by
  induction entries generalizing e with
  | nil => exact ⟨Moved.refl e, backed, fun _ => rfl⟩
  | cons entry entries inductionHypothesis =>
      obtain ⟨pid, idx⟩ := entry
      rw [List.map_cons, List.nodup_cons] at keys
      have found := held (pid, idx) List.mem_cons_self
      obtain ⟨-, valid, -⟩ := (backed.tidy.indexed.find_iff pid idx).mp found
      change Ends ((if pid.fileId = fid then do
          writeBack idx
          modify fun e => (e.setFrame idx {}).erase pid
        else pure () : EngineM Unit) >>= fun _ => entries.forM _) e _ _
      simp only [ends_bind, ends_ite, ends_pure, ends_modify]
      by_cases own : pid.fileId = fid
      · rw [if_pos own]
        apply (writeBack_moved backed fun valid _ => logged.frame backed valid).mono
        · rintro - e₁ ⟨⟨moved, backed₁, calm⟩, clean⟩
          have found₁ : e₁.find pid = some idx := (calm.find pid).trans found
          have valid₁ : (e₁.frame idx).valid = true := (valid_of_core (calm.core idx)).trans valid
          have unpinned₁ : (e₁.frame idx).pin = 0 := by
            rw [← pinCount_of_find found₁, calm.pinCount]
            exact unpinned pid own
          obtain ⟨moved', backed₂, pins⟩ :=
            discard_moved backed₁ found₁ unpinned₁ (clean valid₁)
          have gone := moved.trans moved'
          have pins₂ : ∀ other, ((e₁.setFrame idx {}).erase pid).pinCount other =
              e.pinCount other := fun other => (pins other).trans (calm.pinCount other)
          apply (inductionHypothesis keys.2 backed₂ (logged.moved gone)
            (fun other same => (pins₂ other).trans (unpinned other same)) ?_).mono
          · rintro - e₃ ⟨moved₃, backed₃, pins₃⟩
            exact ⟨gone.trans moved₃, backed₃, fun other => (pins₃ other).trans (pins₂ other)⟩
          · exact fun _ _ never => never
          · intro entry mem
            have apart : entry.1 ≠ pid := fun same =>
              keys.1 (List.mem_map.mpr ⟨entry, mem, same⟩)
            rw [find_erase, if_neg apart]
            exact (calm.find entry.1).trans (held entry (List.mem_cons_of_mem _ mem))
        · exact fun _ _ never => never
      · rw [if_neg own]
        exact inductionHypothesis keys.2 backed logged unpinned
          fun entry mem => held entry (List.mem_cons_of_mem _ mem)

theorem dropTable_moved (backed : e.Backed top) (logged : AllLogged e)
    (unpinned : ∀ pid, pid.fileId = fid → e.pinCount pid = 0) :
    Ends (dropTable fid) e
      (fun _ e' => Moved e e' ∧ e'.Backed top ∧ ∀ pid, e'.pinCount pid = e.pinCount pid)
      fun _ _ => False := by
  simp only [dropTable, ends_bind, ends_get]
  exact dropPages_moved e.pageTable backed.tidy.indexed.keys backed logged unpinned
    fun _ => backed.tidy.indexed.find_of_mem

/-! ## Restoring -/

/-- What restoring a region keeps. -/
structure Restored (top : Nat → Nat) (pid : PageId) (off : Nat) (before : List UInt8)
    (e e' : Engine) : Prop where
  backed : e'.Backed top
  content : e'.content = Function.update e.content pid ((e.content pid).write off before)
  baseline : e'.baseline = Function.update e.baseline pid ((e.baseline pid).write off before)
  pins : e'.pinCount = e.pinCount
  length : e'.frames.length = e.frames.length
  wal : e'.wal = e.wal
  txn : e'.txn = e.txn
  refused : e'.files.refused = e.files.refused
  keeps : e'.files.kept = e.files.kept
  tails : e'.tailPages = e.tailPages
  others : ∀ other, other ≠ pid → e'.files.pages other = e.files.pages other

/-- A page that is not cached, written on disk. -/
theorem stored_restored (backed : e.Backed top) (absent : e.find pid = none)
    (below : pid.pageNo < top pid.fileId) {files : FileManager} {off logged : Nat}
    {before : List UInt8} (opened : files = e.files ∨ files = e.files.opened pid.fileId) :
    Restored top pid off before e
      { e with files := files.stored pid ((e.files.pages pid).write off before) logged } := by
  obtain ⟨moved, backed₁⟩ := opened_moved backed opened
  have pages : files.pages = e.files.pages := by
    rcases opened with rfl | rfl <;> rfl
  have onDisk : ∀ (p : Page) (inFrame : PageFrame → Page),
      (fun other => (e.find other).elim (Function.update files.pages pid p other)
        fun i => inFrame (e.frame i)) =
      Function.update (fun other => (e.find other).elim (e.files.pages other)
        fun i => inFrame (e.frame i)) pid p := by
    intro p inFrame
    funext other
    by_cases same : other = pid
    · rw [same, absent, Option.elim_none, Function.update_self, Function.update_self]
    · rw [Function.update_of_ne same, Function.update_of_ne same, pages]
  refine ⟨⟨?_, ?_, backed₁.opens, backed₁.sound.stored, ?_, backed₁.cached⟩, ?_, ?_, rfl, rfl,
    rfl, rfl, moved.kept.refused, moved.kept.keeps, rfl, fun other apart =>
      (Function.update_of_ne apart ..).trans (congrFun pages other)⟩
  · exact backed.tidy.of_core (backed.tidy.indexed.congr rfl rfl (fun _ => rfl) fun _ => rfl)
      fun _ => rfl
  · intro i valid clean
    have valid : (e.frame i).valid = true := valid
    have apart : (e.frame i).page ≠ pid := by
      intro same
      have found := (backed.tidy.indexed.find_iff _ i).mpr ⟨range_of_valid valid, valid, same⟩
      rw [absent] at found
      cases found
    refine (Function.update_of_ne apart ..).trans ?_
    exact backed₁.clean i valid clean
  · intro fid
    refine (FileManager.pageCount_stored fid).trans_le ?_
    split
    · rename_i own
      rw [own]
      exact Nat.max_le.mpr ⟨backed₁.sizes _, below⟩
    · exact backed₁.sizes fid
  · refine (onDisk _ _).trans ?_
    rw [content_of_absent absent]
    rfl
  · refine (onDisk _ _).trans ?_
    rw [baseline_of_absent absent]
    rfl

theorem restoreRegion_restored (backed : e.Backed top) (below : pid.pageNo < top pid.fileId)
    (off : Nat) (before : List UInt8) :
    Ends (restoreRegion pid off before) e (fun _ e' => Restored top pid off before e e')
      fun _ _ => False := by
  simp only [restoreRegion, ends_bind, ends_get]
  cases found : e.find pid with
  | some idx =>
      obtain ⟨-, valid, page⟩ := (backed.tidy.indexed.find_iff pid idx).mp found
      obtain ⟨backed', kept, content, baseline, pins⟩ := held_backed
        (f := { e.frame idx with
          data := (e.frame idx).data.write off before
          before := (e.frame idx).before.write off before
          dirty := true }) backed found page valid
        (fun unpinned => congrArg (fun p : Page => p.write off before)
          (backed.tidy.logged idx unpinned)) (by simp)
      refine ⟨backed', ?_, ?_, ?_, kept.length, kept.wal, kept.txn, kept.refused, kept.keeps,
        kept.tails, fun _ _ => rfl⟩
      · rw [content_of_find found]
        exact content
      · rw [baseline_of_find found]
        exact baseline
      · refine pins.trans ?_
        rw [← pinCount_of_find found, Function.update_eq_self]
  | none =>
      simp only [onFiles, ends_bind, ends_onPart]
      apply (FileManager.readPage_loaded (backed.opens _)).mono
      · rintro data files ⟨rfl, opened⟩
        obtain ⟨-, backed₁⟩ := opened_moved backed opened
        apply (FileManager.writePage_stored (backed₁.opens _)).mono
        · rintro - files' (rfl | rfl)
          · exact stored_restored backed found below opened
          · have again : FileManager.opened files pid.fileId = e.files.opened pid.fileId := by
              rcases opened with rfl | rfl
              · rfl
              · simp [FileManager.opened, FileManager.pageCount]
            exact stored_restored backed found below (.inr again)
        · exact fun _ _ never => never
      · exact fun _ _ never => never

end BufferPool

end MySimpleDb.Storage
