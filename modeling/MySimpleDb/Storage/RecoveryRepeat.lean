import MySimpleDb.Lib.Replay
import MySimpleDb.Storage.Recovery

/-!
# Recovery after a recovery that was interrupted

Each step of recovery overwrites a byte of a page or leaves it, and grows a file
or removes it, so a pass over the log after a part of a pass ends as one pass.
-/

namespace MySimpleDb.Storage

open MySimpleDb.Lib
open MySimpleDb.Lib.Attempt
open MySimpleDb.Lib.Replay (Overwrites Repeatable)

/-! ## What a step does to one file and to one byte -/

namespace RecoveryStep

def onSize (fid : Nat) : RecoveryStep → Option Nat → Option Nat
  | .patch rec _, size =>
      if rec.fileId = fid then some (max (size.getD 0) (rec.pageNo + 1)) else size
  | .drop rec, size => if rec.fileId = fid then none else size

def onByte (pid : PageId) (i : Nat) : RecoveryStep → UInt8 → UInt8
  | .patch rec undo, b =>
      if rec.pid = pid ∧ rec.offset ≤ i then ((rec.half undo)[i - rec.offset]?).getD b else b
  | .drop rec, b => if rec.fileId = pid.fileId then 0 else b

theorem onSize_cases (fid : Nat) (s : RecoveryStep) :
    Overwrites (s.onSize fid) ∨ (∀ size, s.onSize fid size = size) ∨
      ∃ n, ∀ size, s.onSize fid size = some (max (size.getD 0) n) := by
  cases s with
  | patch rec undo =>
      by_cases same : rec.fileId = fid
      · right; right
        exact ⟨rec.pageNo + 1, fun size => if_pos same⟩
      · right; left
        exact fun size => if_neg same
  | drop rec =>
      by_cases same : rec.fileId = fid
      · left
        intro v w
        simp only [onSize, if_pos same]
      · right; left
        exact fun size => if_neg same

theorem onByte_cases (pid : PageId) (i : Nat) (s : RecoveryStep) :
    Overwrites (s.onByte pid i) ∨ ∀ b, s.onByte pid i b = b := by
  cases s with
  | patch rec undo =>
      by_cases covered : rec.pid = pid ∧ rec.offset ≤ i
      · rcases byte : (rec.half undo)[i - rec.offset]? with _ | b
        · right
          intro b
          simp only [onByte, if_pos covered, byte, Option.getD_none]
        · left
          intro v w
          simp only [onByte, if_pos covered, byte, Option.getD_some]
      · right
        exact fun b => if_neg covered
  | drop rec =>
      by_cases same : rec.fileId = pid.fileId
      · left
        intro v w
        simp only [onByte, if_pos same]
      · right
        exact fun b => if_neg same

theorem onSize_repeatable (fid : Nat) (steps : List RecoveryStep) :
    Repeatable (steps.map (onSize fid)) := by
  intro f f_mem
  obtain ⟨s, -, rfl⟩ := List.mem_map.mp f_mem
  rcases onSize_cases fid s with overwrites | keeps | ⟨n, grows⟩
  · exact .inl overwrites
  · right
    constructor
    · intro size
      rw [keeps, keeps]
    · intro g g_mem
      exact .inr fun size => by rw [keeps, keeps]
  · right
    constructor
    · intro size
      simp only [grows, Option.getD_some]
      congr 1
      omega
    · intro g g_mem
      obtain ⟨t, -, rfl⟩ := List.mem_map.mp g_mem
      rcases onSize_cases fid t with overwrites | keeps | ⟨m, grows'⟩
      · exact .inl overwrites
      · exact .inr fun size => by rw [keeps, keeps]
      · right
        intro size
        simp only [grows, grows', Option.getD_some]
        congr 1
        omega

theorem onByte_repeatable (pid : PageId) (i : Nat) (steps : List RecoveryStep) :
    Repeatable (steps.map (onByte pid i)) := by
  intro f f_mem
  obtain ⟨s, -, rfl⟩ := List.mem_map.mp f_mem
  rcases onByte_cases pid i s with overwrites | keeps
  · exact .inl overwrites
  · right
    constructor
    · intro b
      rw [keeps, keeps]
    · intro g g_mem
      exact .inr fun b => by rw [keeps, keeps]

end RecoveryStep

/-! ## What steps do to the data files -/

namespace FileManager

/-- A file that does not exist has no bytes. -/
def AbsentEmpty (files : FileManager) : Prop :=
  ∀ pid, files.sizes pid.fileId = none → files.pages pid = Block.zero

/-- There is a file that the operating system does not let the process open or unlink. -/
def Blocked (files : FileManager) : Prop :=
  ∃ fid, files.refused fid = true ∨ files.kept fid = true

/-- The files after the steps, started on `files`. -/
structure Reached (files : FileManager) (steps : List RecoveryStep) (files' : FileManager) :
    Prop where
  absent : files'.AbsentEmpty
  sizes : ∀ fid, files'.sizes fid =
    Replay.run (steps.map (RecoveryStep.onSize fid)) (files.sizes fid)
  bytes : ∀ pid i, i < pageSize → (files'.pages pid).get i =
    Replay.run (steps.map (RecoveryStep.onByte pid i)) ((files.pages pid).get i)
  refused : files'.refused = files.refused
  kept : files'.kept = files.kept

variable {files files' files'' : FileManager} {steps more : List RecoveryStep}

theorem Reached.refl (absent : files.AbsentEmpty) : Reached files [] files :=
  ⟨absent, fun _ => rfl, fun _ _ _ => rfl, rfl, rfl⟩

theorem Reached.trans (first : Reached files steps files')
    (later : Reached files' more files'') : Reached files (steps ++ more) files'' where
  absent := later.absent
  sizes fid := by rw [later.sizes, first.sizes, List.map_append, Replay.run_append]
  bytes pid i inside := by
    rw [later.bytes pid i inside, first.bytes pid i inside, List.map_append, Replay.run_append]
  refused := later.refused.trans first.refused
  kept := later.kept.trans first.kept

theorem Reached.blocked (reached : Reached files steps files') (blocked : files'.Blocked) :
    files.Blocked := by
  obtain ⟨fid, why⟩ := blocked
  rw [reached.refused, reached.kept] at why
  exact ⟨fid, why⟩

theorem AbsentEmpty.opened (absent : files.AbsentEmpty) (fid : Nat) :
    (files.opened fid).AbsentEmpty := by
  intro pid none_left
  apply absent
  by_cases same : pid.fileId = fid
  · rw [same] at none_left
    simp [FileManager.opened] at none_left
  · simpa [FileManager.opened, same] using none_left

/-- Opened and written, a file is as the patch says. -/
theorem Reached.patch (absent : files.AbsentEmpty) (rec : WalRecord) (undo : Bool)
    (logged : Nat) (fds : Nat → Bool) {size : Option Nat}
    (size_eq : size.getD 0 = (files.sizes rec.fileId).getD 0) :
    Reached files [.patch rec undo]
      ({ files with fds, sizes := Function.update files.sizes rec.fileId size }.stored rec.pid
        ((files.pages rec.pid).write rec.offset (rec.half undo)) logged) where
  absent := by
    intro pid none_left
    by_cases same : pid.fileId = rec.fileId
    · rw [same] at none_left
      simp [FileManager.stored, WalRecord.pid] at none_left
    · have apart : pid ≠ rec.pid := by
        rintro rfl
        exact same rfl
      have unchanged : files.sizes pid.fileId = none := by
        simpa [FileManager.stored, WalRecord.pid, same] using none_left
      simpa [FileManager.stored, apart] using absent pid unchanged
  sizes fid := by
    by_cases same : fid = rec.fileId
    · subst same
      simp [FileManager.stored, WalRecord.pid, pageCount, RecoveryStep.onSize, size_eq]
    · have apart : rec.fileId ≠ fid := fun equal => same equal.symm
      simp [FileManager.stored, WalRecord.pid, RecoveryStep.onSize, same, apart]
  bytes pid i inside := by
    by_cases same : pid = rec.pid
    · subst same
      simp [FileManager.stored, RecoveryStep.onByte, Block.get_write _ _ _ i inside]
    · have apart : rec.pid ≠ pid := fun equal => same equal.symm
      simp [FileManager.stored, RecoveryStep.onByte, same, apart]
  refused := rfl
  kept := rfl

theorem applyPatch_ends (absent : files.AbsentEmpty) (rec : WalRecord) (undo : Bool)
    (logged : Nat) :
    Ends (applyPatch rec undo logged) files
      (fun _ files' => Reached files [.patch rec undo] files')
      fun _ files' => files' = files ∧ files.Blocked := by
  simp only [applyPatch, readPage, writePage, ends_bind, ends_get, ends_pure, ends_modify]
  have again : ∀ files₁ : FileManager, files₁.fds rec.fileId = true →
      Ends (fdFor rec.fileId) files₁ (fun _ files' => files' = files₁)
        fun _ _ => False := by
    intro files₁ isOpen
    simp only [fdFor, ends_bind, ends_get, ends_ite, ends_pure]
    rw [if_pos isOpen]
    trivial
  apply fdFor_ends.mono
  · rintro - files₁ (⟨isOpen, rfl⟩ | ⟨-, rfl⟩)
    · apply (again files₁ isOpen).mono
      · rintro - files₂ rfl
        have reached := @Reached.patch files₂ absent rec undo logged files₂.fds
          (files₂.sizes rec.fileId) rfl
        rwa [Function.update_eq_self] at reached
      · intro _ _ impossible
        exact impossible.elim
    · apply (again (files.opened rec.fileId) (Function.update_self ..)).mono
      · rintro - files₂ rfl
        exact Reached.patch absent rec undo logged _ rfl
      · intro _ _ impossible
        exact impossible.elim
  · rintro - files₁ ⟨rfl, -, refused⟩
    exact ⟨rfl, _, .inl refused⟩

/-- The drop of a file. -/
theorem Reached.drop (absent : files.AbsentEmpty) (rec : WalRecord) (fds : Nat → Bool) :
    Reached files [.drop rec] ({ files with fds }.unlinked rec.fileId) where
  absent := by
    intro pid none_left
    by_cases same : pid.fileId = rec.fileId
    · simp [unlinked, cut, same]
    · have unchanged : files.sizes pid.fileId = none := by
        simpa [unlinked, same] using none_left
      simpa [unlinked, cut, same] using absent pid unchanged
  sizes fid := by
    by_cases same : fid = rec.fileId
    · subst same
      simp [unlinked, RecoveryStep.onSize]
    · have apart : rec.fileId ≠ fid := fun equal => same equal.symm
      simp [unlinked, RecoveryStep.onSize, same, apart]
  bytes pid i inside := by
    by_cases same : pid.fileId = rec.fileId
    · simp [unlinked, cut, RecoveryStep.onByte, same, Block.get_zero]
    · have apart : rec.fileId ≠ pid.fileId := fun equal => same equal.symm
      simp [unlinked, cut, RecoveryStep.onByte, same, apart]
  refused := rfl
  kept := rfl

/-- The drop of a file that does not exist is skipped. -/
theorem Reached.skip (absent : files.AbsentEmpty) {rec : WalRecord}
    (missing : files.sizes rec.fileId = none) : Reached files [.drop rec] files where
  absent := absent
  sizes fid := by
    by_cases same : rec.fileId = fid
    · subst same
      simp [RecoveryStep.onSize, missing]
    · simp [RecoveryStep.onSize, same]
  bytes pid i inside := by
    by_cases same : rec.fileId = pid.fileId
    · have zero := absent pid (same ▸ missing)
      simp [RecoveryStep.onByte, same, zero, Block.get_zero]
    · simp [RecoveryStep.onByte, same]
  refused := rfl
  kept := rfl

/-- A step that raises has done nothing, and a file was in its way. -/
theorem step_ends (absent : files.AbsentEmpty) (s : RecoveryStep) (stats : RecoveryStats) :
    Ends (s.run stats) files
      (fun stats' files' => Reached files [s] files' ∧ stats'.replayed = stats.replayed)
      fun _ files' => Reached files [] files' ∧ files.Blocked := by
  cases s with
  | patch rec undo =>
      simp only [RecoveryStep.run, ends_bind, ends_pure]
      apply (applyPatch_ends absent rec undo stats.replayed).mono
      · intro _ files' reached
        refine ⟨reached, ?_⟩
        split <;> rfl
      · rintro - files' ⟨rfl, blocked⟩
        exact ⟨.refl absent, blocked⟩
  | drop rec =>
      simp only [RecoveryStep.run, removeTableFile, ends_bind, ends_get, ends_ite, ends_pure,
        ends_modify, ends_throw]
      by_cases present : files.tableFileExists rec.fileId = true
      · rw [if_pos present]
        by_cases kept : files.kept rec.fileId = true
        · rw [if_pos kept]
          exact ⟨⟨absent, fun _ => rfl, fun _ _ _ => rfl, rfl, rfl⟩, _, .inr kept⟩
        · rw [if_neg kept]
          exact ⟨Reached.drop absent rec _, trivial⟩
      · rw [if_neg present]
        have missing : files.sizes rec.fileId = none := by
          simpa [tableFileExists] using present
        exact ⟨Reached.skip absent missing, trivial⟩

/-- Steps that are cut short by an error have done a part of them. -/
theorem runSteps_ends (absent : files.AbsentEmpty) (steps : List RecoveryStep)
    (stats : RecoveryStats) :
    Ends (runSteps steps stats) files
      (fun stats' files' => Reached files steps files' ∧ stats'.replayed = stats.replayed)
      fun _ files' => (∃ done, (∀ s ∈ done, s ∈ steps) ∧ Reached files done files') ∧
        files.Blocked := by
  induction steps generalizing files stats with
  | nil => exact ⟨.refl absent, rfl⟩
  | cons s steps inductionHypothesis =>
      simp only [runSteps, List.foldlM_cons, ends_bind]
      apply (step_ends absent s stats).mono
      · rintro stats₁ files₁ ⟨first, replayed⟩
        apply (inductionHypothesis first.absent stats₁).mono
        · rintro stats₂ files₂ ⟨later, replayed'⟩
          exact ⟨first.trans later, replayed'.trans replayed⟩
        · rintro - files₂ ⟨⟨done, among, later⟩, blocked⟩
          refine ⟨⟨s :: done, ?_, first.trans later⟩, first.blocked blocked⟩
          intro t t_mem
          rcases List.mem_cons.mp t_mem with rfl | t_mem
          · exact List.mem_cons_self
          · exact List.mem_cons_of_mem _ (among t t_mem)
      · rintro - files₁ ⟨nothing, blocked⟩
        refine ⟨⟨[], ?_, nothing⟩, blocked⟩
        rintro t ⟨⟩

/-- Steps run over what a part of them has left end as they do without it. -/
theorem Reached.again {steps done : List RecoveryStep} {whole stopped restarted rerun : FileManager}
    (among : ∀ s ∈ done, s ∈ steps) (once : Reached files steps whole)
    (first : Reached files done stopped) (sizes : restarted.sizes = stopped.sizes)
    (pages : restarted.pages = stopped.pages) (second : Reached restarted steps rerun) :
    rerun.sizes = whole.sizes ∧ rerun.pages = whole.pages := by
  have mapped : ∀ {V : Type} (f : RecoveryStep → V → V),
      ∀ g ∈ done.map f, g ∈ steps.map f := by
    intro V f g g_mem
    obtain ⟨s, s_mem, rfl⟩ := List.mem_map.mp g_mem
    exact List.mem_map_of_mem (among s s_mem)
  constructor
  · funext fid
    rw [second.sizes, sizes, first.sizes, once.sizes]
    exact Replay.run_again (RecoveryStep.onSize_repeatable fid steps) (mapped _) _
  · funext pid
    apply Block.ext
    intro i inside
    rw [second.bytes pid i inside, pages, first.bytes pid i inside, once.bytes pid i inside]
    exact Replay.run_again (RecoveryStep.onByte_repeatable pid i steps) (mapped _) _

end FileManager

/-! ## Recovery and what it reads -/

/-- What recovery asks of a record. -/
def WalRecord.WellFormed (rec : WalRecord) : Prop :=
  (rec.op = opPagePatch ∧ rec.fileId ≠ 0 ∧ rec.len ≠ 0 ∧ rec.offset + rec.len ≤ pageSize ∧
      rec.payload.length = walPatchHeaderSize + 2 * rec.len) ∨
    (rec.op = opDropFile ∧ rec.payload.length = 8 ∧ rec.fileId ≠ 0) ∨
    ((rec.op = opCommit ∨ rec.op = opAbort) ∧ rec.payload = [])

theorem Collected.add_ok (c : Collected) {rec : WalRecord} (wellFormed : rec.WellFormed) :
    ∃ c', c.add rec = .ok c' := by
  rcases wellFormed with ⟨op, fileId, len, inside, payload⟩ | ⟨op, payload, fileId⟩ |
    ⟨op | op, payload⟩
  · have within : ¬ (pageSize < rec.offset ∨ rec.len = 0 ∨ pageSize - rec.offset < rec.len) := by
      omega
    simp [add, op, validatePatch, fileId, within, payload, Res.pure_eq_ok]
  · simp [add, op, validateDrop, payload, fileId, opDropFile, opPagePatch, Res.pure_eq_ok]
  · simp [add, op, payload, opCommit, opAbort, opDropFile, opPagePatch, Res.pure_eq_ok]
  · simp [add, op, payload, opCommit, opAbort, opDropFile, opPagePatch, Res.pure_eq_ok]

theorem collect_ok {records : List WalRecord}
    (wellFormed : ∀ rec ∈ records, rec.WellFormed) : ∃ c, collect records = .ok c := by
  have fold : ∀ c : Collected, ∃ c', records.foldlM Collected.add c = .ok c' := by
    induction records with
    | nil => exact fun c => ⟨c, rfl⟩
    | cons rec records inductionHypothesis =>
        intro c
        obtain ⟨c₁, added⟩ := c.add_ok (wellFormed rec List.mem_cons_self)
        obtain ⟨c₂, rest⟩ := inductionHypothesis
          (fun rec mem => wellFormed rec (List.mem_cons_of_mem _ mem)) c₁
        refine ⟨c₂, ?_⟩
        rw [List.foldlM_cons, added]
        exact rest
  exact fold {}

theorem ofExcept_ends {α : Type} {a : α} {dir : Directory} {returned : α → Directory → Prop}
    {raised : Err → Directory → Prop} (holds : returned a dir) :
    Ends (MonadExcept.ofExcept (.ok a : Res α) : RecoverM α) dir returned raised :=
  holds

section

variable {dir : Directory} {c : Collected}

/-- Recovery that returns has taken all of its steps, and one that raises found a file in
its way. -/
theorem recover_ends (collected : collect (recordsOf dir.wal.bytes) = .ok c)
    (absent : dir.files.AbsentEmpty) (chunks : Nat → Nat) :
    Ends (recover chunks) dir
      (fun _ dir' => ∃ files, dir.files.Reached c.steps files ∧
        dir'.files.sizes = files.sizes ∧ dir'.files.pages = files.pages)
      fun _ _ => dir.files.Blocked := by
  simp only [recover, onDirectory, ends_bind, ends_get, ends_onPart, readAll_create, collected]
  apply ofExcept_ends
  apply (FileManager.runSteps_ends absent c.redoSteps _).mono
  · rintro stats files₁ ⟨redone, replayed⟩
    apply (FileManager.runSteps_ends redone.absent c.undoSteps stats).mono
    · rintro stats' files₂ ⟨undone, replayed'⟩
      have reached : dir.files.Reached c.steps files₂ := redone.trans undone
      simp only [ends_ite, ends_bind, ends_modify, ends_pure]
      split
      · split
        · exact ⟨files₂, reached, rfl, rfl⟩
        · exact ⟨files₂, reached, rfl, rfl⟩
      · exact ⟨files₂, reached, rfl, rfl⟩
    · rintro - files₂ ⟨-, blocked⟩
      exact redone.blocked blocked
  · rintro - files₁ ⟨-, blocked⟩
    exact blocked

/-- Recovery stopped after the first `k` of its steps. -/
def recoverUpTo (chunks : Nat → Nat) (k : Nat) : RecoverM RecoveryStats := do
  let dir ← get
  let c ← MonadExcept.ofExcept (collect (WalReader.create dir.wal.bytes chunks).readAll)
  onDirectory (runSteps (c.steps.take k) { replayed := c.replayed })

theorem recoverUpTo_ends (collected : collect (recordsOf dir.wal.bytes) = .ok c)
    (absent : dir.files.AbsentEmpty) (chunks : Nat → Nat) (k : Nat) :
    dir.wal = ((recoverUpTo chunks k).exit dir).2.wal ∧
      ∃ done, (∀ s ∈ done, s ∈ c.steps) ∧
        dir.files.Reached done ((recoverUpTo chunks k).exit dir).2.files := by
  let post := fun dir' : Directory => dir.wal = dir'.wal ∧
    ∃ done, (∀ s ∈ done, s ∈ c.steps) ∧ dir.files.Reached done dir'.files
  suffices ends : Ends (recoverUpTo chunks k) dir (fun _ => post) fun _ => post from ends.state
  simp only [recoverUpTo, onDirectory, ends_bind, ends_get, ends_onPart, readAll_create,
    collected]
  apply ofExcept_ends
  apply (FileManager.runSteps_ends absent (c.steps.take k) _).mono
  · rintro - files ⟨reached, -⟩
    exact ⟨rfl, _, fun s mem => List.mem_of_mem_take mem, reached⟩
  · rintro - files ⟨⟨done, among, reached⟩, -⟩
    exact ⟨rfl, done, fun s mem => List.mem_of_mem_take (among s mem), reached⟩

/-- A new process on the directory, where the operating system may refuse other files. -/
def Directory.restarted (dir : Directory) (refused kept : Nat → Bool) : Directory :=
  { dir with files := { dir.files with fds := fun _ => false, refused, kept } }

/-- Recovery after one that was stopped after any of its steps leaves the files that one
recovery alone leaves; it returns unless a file cannot be opened or unlinked. -/
theorem recover_again (wellFormed : ∀ rec ∈ recordsOf dir.wal.bytes, rec.WellFormed)
    (absent : dir.files.AbsentEmpty) (k : Nat) (refused kept : Nat → Bool)
    (chunks chunks' chunks'' : Nat → Nat) :
    let whole := (recover chunks).exit dir
    let stopped := ((recoverUpTo chunks' k).exit dir).2.restarted refused kept
    let rerun := (recover chunks'').exit stopped
    (∀ stats stats', whole.1 = .ok stats → rerun.1 = .ok stats' →
      rerun.2.files.sizes = whole.2.files.sizes ∧ rerun.2.files.pages = whole.2.files.pages) ∧
    (¬ dir.files.Blocked → ∃ stats, whole.1 = .ok stats) ∧
    (¬ stopped.files.Blocked → ∃ stats, rerun.1 = .ok stats) := by
  obtain ⟨c, collected⟩ := collect_ok wellFormed
  intro whole stopped rerun
  obtain ⟨wal, done, among, first⟩ := recoverUpTo_ends collected absent chunks' k
  have collected' : collect (recordsOf stopped.wal.bytes) = .ok c := by
    change collect (recordsOf ((recoverUpTo chunks' k).exit dir).2.wal.bytes) = .ok c
    rw [← wal, collected]
  have once := recover_ends collected absent chunks
  have second := recover_ends collected' (show stopped.files.AbsentEmpty from first.absent) chunks''
  refine ⟨?_, ?_, ?_⟩
  · intro stats stats' returned returned'
    obtain ⟨files, reached, sizes, pages⟩ := once.of_returned returned
    obtain ⟨files', reached', sizes', pages'⟩ := second.of_returned returned'
    rw [sizes, pages, sizes', pages']
    have same_sizes : stopped.files.sizes = _ := rfl
    have same_pages : stopped.files.pages = _ := rfl
    exact FileManager.Reached.again among reached first same_sizes same_pages reached'
  · intro free
    exact once.returns fun _ _ blocked => free blocked
  · intro free
    exact second.returns fun _ _ blocked => free blocked

/-- A committed patch, applied before and after a restart. -/
theorem recover_again_patch :
    let patch : WalRecord :=
      ⟨1, 9, 1, toBytes 8 7 ++ toBytes 4 2 ++ toBytes 4 8 ++ toBytes 4 1 ++ [5, 0]⟩
    let log : Bytes := [patch, ⟨2, 9, 3, []⟩].flatMap WalRecord.bytes ++ []
    let dir : Directory := { wal := { bytes := log } }
    let whole := (recover fun _ => 25).exit dir
    let stopped := ((recoverUpTo (fun _ => 7) 1).exit dir).2.restarted (fun _ => false) fun _ => false
    let rerun := (recover fun _ => 1).exit stopped
    rerun.2.files.sizes = whole.2.files.sizes ∧ rerun.2.files.pages = whole.2.files.pages := by
  intro patch log dir whole stopped rerun
  have read : recordsOf dir.wal.bytes = _ := recordsOf_written (by
    unfold WalRecord.InRange
    decide) (by decide)
  have wellFormed : ∀ rec ∈ recordsOf dir.wal.bytes, rec.WellFormed := by
    rw [read]
    unfold WalRecord.WellFormed
    decide
  obtain ⟨same, returns, returns'⟩ := recover_again wellFormed (fun _ _ => rfl) 1
    (fun _ => false) (fun _ => false) (fun _ => 25) (fun _ => 7) (fun _ => 1)
  have free : ¬ dir.files.Blocked := by
    rintro ⟨fid, refused | kept⟩
    · exact Bool.false_ne_true refused
    · exact Bool.false_ne_true kept
  have free' : ¬ stopped.files.Blocked := by
    rintro ⟨fid, refused | kept⟩
    · exact Bool.false_ne_true refused
    · exact Bool.false_ne_true kept
  obtain ⟨stats, returned⟩ := returns free
  obtain ⟨stats', returned'⟩ := returns' free'
  exact same stats stats' returned returned'

end

end MySimpleDb.Storage
