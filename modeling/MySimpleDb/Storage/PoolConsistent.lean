import MySimpleDb.Storage.PoolRun

/-!
# The pool over whole runs

The invariant of the pool holds in every state that a run from a fresh pool
reaches, and a page that a read brought in carries bytes that passed the check.
A read whose data file cannot be opened is the one that leaves its page behind:
the frame is registered before the file is opened, and is not given back.
-/

namespace MySimpleDb.Storage

open MySimpleDb.Lib PoolOp Engine Attempt

variable {e : Engine} {op : PoolOp} {ops : List PoolOp} {pid : PageId} {idx : Nat}

/-! ## One step -/

theorem after_step (tidy : e.Tidy) (allowed : op.Allowed e) : Stepped op e (op.after e) := by
  have ends : BufferPool.StepEnds op e := by
    cases op with
    | read pid magic =>
        simp only [BufferPool.StepEnds, PoolOp.run, ends_bind, ends_pure]
        exact (BufferPool.read_ends tidy).mono (fun _ _ returned => returned.1)
          fun _ _ raised => raised.1
    | allocate pid => exact BufferPool.allocate_step tidy
    | unpin idx => exact BufferPool.unpin_step tidy allowed
    | markDirty idx => exact BufferPool.markDirty_step tidy
    | flush pid => exact BufferPool.flush_step tidy
    | flushAll => exact BufferPool.flushAll_step tidy
    | restoreRegion pid off before => exact BufferPool.restoreRegion_step tidy
    | dropTable fid => exact BufferPool.dropTable_step tidy allowed
    | poke idx p => exact BufferPool.poke_step tidy allowed
    | outside files wal txn => exact BufferPool.outside_step tidy
  exact Ends.state ends

theorem after_read (pid : PageId) (magic : Nat) (e : Engine) :
    (PoolOp.read pid magic).after e = ((BufferPool.read pid magic).exit e).2 := by
  simp only [after, PoolOp.run, exit, ExceptT.run_bind, StateT.run_bind]
  rcases (BufferPool.read pid magic).run.run e with ⟨_ | _, e'⟩ <;> rfl

/-! ## Runs -/

/-- Each step of a run meets a condition in the state it is taken in. -/
def Along (P : Engine → PoolOp → Prop) : List PoolOp → Engine → Prop
  | [], _ => True
  | op :: ops, e => P e op ∧ Along P ops (op.after e)

theorem afterAll_append (first second : List PoolOp) (e : Engine) :
    afterAll (first ++ second) e = afterAll second (afterAll first e) :=
  List.foldl_append

theorem along_append {P : Engine → PoolOp → Prop} {first second : List PoolOp} :
    Along P (first ++ second) e ↔ Along P first e ∧ Along P second (afterAll first e) := by
  induction first generalizing e with
  | nil => exact ⟨fun rest => ⟨trivial, rest⟩, And.right⟩
  | cons op first inductionHypothesis =>
      change P e op ∧ Along P (first ++ second) (op.after e) ↔ _
      rw [inductionHypothesis, ← and_assoc]
      rfl

theorem afterAll_tidy (tidy : e.Tidy) (allowed : Along Allowed ops e) : (afterAll ops e).Tidy := by
  induction ops generalizing e with
  | nil => exact tidy
  | cons op ops inductionHypothesis =>
      exact inductionHypothesis (after_step tidy allowed.1).tidy allowed.2

/-- The page was read from disk in the run, passed its check then, and has the bytes that
were read but for what was written over them since. -/
def FromDisk (pid : PageId) (idx : Nat) (ops : List PoolOp) (e : Engine) : Prop :=
  ∃ earlier magic later, ops = earlier ++ .read pid magic :: later ∧
    (afterAll earlier e).find pid = none ∧
    pageValid ((afterAll earlier e).files.pages pid) magic = true ∧
    ((afterAll ops e).frame idx).data =
      later.foldl (fun data op => op.edit pid idx data) ((afterAll earlier e).files.pages pid)

/-- A page that is not cached, and not allocated, is cached later only as it was read. -/
theorem fromDisk (tidy : e.Tidy) (absent : e.find pid = none) (allowed : Along Allowed ops e)
    (opens : Along Opens ops e) (unallocated : PoolOp.allocate pid ∉ ops)
    (found : (afterAll ops e).find pid = some idx) : FromDisk pid idx ops e := by
  induction ops using List.reverseRecOn with
  | nil =>
      rw [show afterAll [] e = e from rfl, absent] at found
      cases found
  | append_singleton ops op inductionHypothesis =>
      rw [along_append] at allowed opens
      have tidy₁ := afterAll_tidy tidy allowed.1
      have stepped := after_step tidy₁ allowed.2.1
      have last : afterAll (ops ++ [op]) e = op.after (afterAll ops e) := afterAll_append ..
      rw [last] at found
      obtain ⟨inRange, valid, page⟩ := (stepped.tidy.indexed.find_iff pid idx).mp found
      rcases stepped.frames idx valid with ⟨was, same, data⟩ | ⟨absent₁, brings⟩
      · -- the page stayed in its frame
        have found₁ : (afterAll ops e).find pid = some idx :=
          (tidy₁.indexed.find_iff pid idx).mpr ⟨range_of_valid was, was, same.symm.trans page⟩
        obtain ⟨earlier, magic, later, rfl, outside, passed, read⟩ := inductionHypothesis allowed.1
          opens.1 (fun mem => unallocated (List.mem_append_left _ mem)) found₁
        refine ⟨earlier, magic, later ++ [op], by simp, outside, passed, ?_⟩
        rw [last, data, read, same.symm.trans page, List.foldl_append]
        rfl
      · -- the page came in
        rw [page] at absent₁ brings
        cases op with
        | allocate pid' =>
            have same : pid' = pid := brings
            exact absurd (same ▸ List.mem_append_right _ (List.mem_singleton_self _)) unallocated
        | read pid' magic =>
            obtain ⟨rfl, bytes⟩ := brings
            obtain ⟨passed, read⟩ := bytes opens.2.1
            refine ⟨ops, magic, [], rfl, absent₁, ?_, ?_⟩
            · rw [← read]
              exact passed
            · rw [last]
              exact read
        | _ => exact brings.elim

/-- A pool as it is built: no frame holds a page. -/
def Engine.Fresh (e : Engine) : Prop :=
  e.pageTable = [] ∧ ∀ f ∈ e.frames, f = {}

theorem Engine.Fresh.tidy (fresh : e.Fresh) : e.Tidy := by
  have frame : ∀ i, e.frame i = {} := by
    intro i
    by_cases inRange : i < e.frames.length
    · have there : e.frame i = e.frames[i] := by simp [Engine.frame, inRange]
      exact there.trans (fresh.2 _ (List.getElem_mem inRange))
    · exact frame_out_of_range (Nat.le_of_not_lt inRange)
  refine ⟨⟨?_, ?_⟩, ?_, ?_⟩
  · intro pid i
    rw [find, fresh.1, frame]
    constructor
    · intro found
      cases found
    · intro held
      cases held.2.1
  · rw [fresh.1]
    exact List.nodup_nil
  · intro i
    rw [frame]
    exact fun none => absurd none (Nat.lt_irrefl 0)
  · intro i
    rw [frame]
    exact fun _ => rfl

/-! ## The pool -/

/-- Where the files of the pages that may have to leave can be opened, a read that raises
cleans up after itself exactly if it can open its own file. -/
theorem read_cleans_iff (tidy : e.Tidy) (victims : e.VictimsOpen) {magic : Nat} :
    (PoolOp.read pid magic).Opens e ↔
      ∀ err, ((BufferPool.read pid magic).exit e).1 = .error err →
        ((PoolOp.read pid magic).after e).find pid = none ∧
        ∀ i, (((PoolOp.read pid magic).after e).frame i).pin ≤ (e.frame i).pin := by
  have ends := @BufferPool.read_ends e pid tidy magic
  rw [after_read]
  unfold Ends at ends
  rcases exited : (BufferPool.read pid magic).exit e with ⟨err | idx, e'⟩
  · rw [exited] at ends
    obtain ⟨-, cleans, stays⟩ := ends
    constructor
    · exact fun opens _ _ => cleans opens
    · intro cleaned
      by_contra closed
      exact stays victims closed (cleaned err rfl).1
  · rw [exited] at ends
    constructor
    · intro _ _ raised
      cases raised
    · exact fun _ => ends.2.2 victims

/-- In every state that a run reaches, after calls that returned and calls that raised: the
table is exact and no page is in two frames; no step takes a pinned frame away; where the
files of the pages that may have to leave can be opened, eviction raises exactly if all
frames are pinned, and a read that raises leaves its page out exactly if its file can be
opened; and a page that was not cached, and not allocated since, is then read with bytes
that came from disk and passed the check, if the steps in between could open their files. -/
theorem pool_consistent {e₀ : Engine} (fresh : e₀.Fresh) {ops : List PoolOp}
    (allowed : Along Allowed ops e₀) :
    let e := afterAll ops e₀
    (∀ pid i, e.find pid = some i ↔
      i < e.frames.length ∧ (e.frame i).valid = true ∧ (e.frame i).page = pid) ∧
    (∀ i < e.frames.length, ∀ j < e.frames.length, (e.frame i).valid = true →
      (e.frame j).valid = true → (e.frame i).page = (e.frame j).page → i = j) ∧
    (∀ op : PoolOp, op.Allowed e → ∀ i, 0 < (e.frame i).pin →
      ((op.after e).frame i).valid = true ∧ ((op.after e).frame i).page = (e.frame i).page) ∧
    (e.VictimsOpen →
      ((∃ err, (BufferPool.evict.exit e).1 = .error err) ↔ e.AllPinned) ∧
      ∀ pid magic, (PoolOp.read pid magic).Opens e ↔
        ∀ err, ((BufferPool.read pid magic).exit e).1 = .error err →
          ((PoolOp.read pid magic).after e).find pid = none ∧
          ∀ i, (((PoolOp.read pid magic).after e).frame i).pin ≤ (e.frame i).pin) ∧
    ∀ earlier later pid magic idx, ops = earlier ++ later →
      (afterAll earlier e₀).find pid = none → PoolOp.allocate pid ∉ later →
      Along Opens (later ++ [.read pid magic]) (afterAll earlier e₀) →
      ((BufferPool.read pid magic).exit e).1 = .ok idx →
      FromDisk pid idx (later ++ [.read pid magic]) (afterAll earlier e₀) := by
  have tidy := afterAll_tidy fresh.tidy allowed
  refine ⟨tidy.indexed.find_iff, ?_, ?_, ?_, ?_⟩
  · intro i i_range j j_range i_valid j_valid same
    exact tidy.indexed.unique i_range j_range i_valid j_valid same
  · exact fun op allowed => (after_step tidy allowed).pinned
  · exact fun victims => ⟨BufferPool.evict_raises tidy victims, fun _ _ => read_cleans_iff tidy victims⟩
  · rintro earlier later pid magic idx rfl absent unallocated opens returned
    rw [along_append] at allowed
    have tidy_earlier := afterAll_tidy fresh.tidy allowed.1
    apply fromDisk tidy_earlier absent _ opens
    · intro mem
      rcases List.mem_append.mp mem with within | last
      · exact unallocated within
      · exact absurd (List.mem_singleton.mp last) (by simp)
    · rw [afterAll_append, ← afterAll_append earlier later]
      change ((PoolOp.read pid magic).after _).find pid = some idx
      rw [after_read]
      exact ((BufferPool.read_ends tidy).of_returned returned).2.1
    · rw [along_append]
      exact ⟨allowed.2, trivial, trivial⟩

/-- A page that fails its check, read in a fresh pool of one frame. -/
theorem pool_consistent_bad_page :
    let e : Engine := { frames := [{}] }
    ((PoolOp.read ⟨1, 0⟩ magicHeap).after e).find ⟨1, 0⟩ = none := by
  intro e
  have fresh : e.Fresh := ⟨rfl, by simp [e]⟩
  have victims : e.VictimsOpen := by
    intro i inRange _ valid
    have first : i = 0 := by
      change i < 1 at inRange
      omega
    subst first
    cases valid
  have opens : (PoolOp.read ⟨1, 0⟩ magicHeap).Opens e := fun _ => ⟨victims, .inr (.inr rfl)⟩
  have holds := @pool_consistent e fresh [] trivial
  exact ((holds.2.2.2.1 victims).2 ⟨1, 0⟩ magicHeap |>.mp opens
    (PoolView.badPage ⟨1, 0⟩ magicHeap) rfl).1

/-- A read raises because its file cannot be opened, and leaves the page cached and pinned;
once files can be opened, the next read returns the page, which no one read from disk. -/
theorem pool_keeps_unread :
    let pid : PageId := ⟨1, 0⟩
    let e₀ : Engine := { files := { refused := fun _ => true }, frames := [{}] }
    let e₁ := (PoolOp.read pid magicHeap).after e₀
    let e₂ := (PoolOp.outside {} {} none).after e₁
    e₀.Fresh ∧ ((BufferPool.read pid magicHeap).exit e₀).1 = .error FileManager.openFailed ∧
      e₁.find pid = some 0 ∧ (e₁.frame 0).pin = 1 ∧
      ((BufferPool.read pid magicHeap).exit e₂).1 = .ok 0 ∧
      pageValid (((PoolOp.read pid magicHeap).after e₂).frame 0).data magicHeap = false := by
  have unread : pageValid (Block.zero : Page) magicHeap = false := by decide
  exact ⟨⟨rfl, by simp⟩, rfl, rfl, rfl, rfl, unread⟩

end MySimpleDb.Storage
