import MySimpleDb.Storage.PoolContent

/-!
# The pool keeps its contract

Frames, page table and data files show their callers one content for each page, as
the contract of the pool has it.  What code over the pool does by the contract it
therefore does on the engine, with any evictions in between.
-/

namespace MySimpleDb.Storage

open MySimpleDb.Lib Engine Attempt

variable {e e' : Engine} {pid : PageId} {idx i frames : Nat} {top : Nat → Nat} {s : PoolView}

/-! ## Calls -/

namespace BufferPool

theorem backed_mono {top' : Nat → Nat} (backed : e.Backed top) (le : ∀ fid, top fid ≤ top' fid) :
    e.Backed top' where
  tidy := backed.tidy
  clean := backed.clean
  opens := backed.opens
  sound := backed.sound
  sizes fid := (backed.sizes fid).trans (le fid)
  cached i valid := lt_of_lt_of_le (backed.cached i valid) (le _)

/-- The bound of a file raised to hold a page. -/
def raised (top : Nat → Nat) (pid : PageId) : Nat → Nat :=
  Function.update top pid.fileId (max (top pid.fileId) (pid.pageNo + 1))

theorem le_raised (top : Nat → Nat) (pid : PageId) (fid : Nat) : top fid ≤ raised top pid fid := by
  unfold raised
  by_cases same : fid = pid.fileId
  · subst same
    rw [Function.update_self]
    exact Nat.le_max_left ..
  · rw [Function.update_of_ne same]

theorem lt_raised (top : Nat → Nat) (pid : PageId) : pid.pageNo < raised top pid pid.fileId := by
  rw [raised, Function.update_self]
  exact Nat.lt_of_lt_of_le (Nat.lt_succ_self _) (Nat.le_max_right ..)

/-- A page allocated is as it was, or zero if it was not cached. -/
theorem allocate_moved (backed : e.Backed top) :
    Ends (allocate pid) e
      (fun idx e' => e'.find pid = some idx ∧ Kept e e' ∧ e'.Backed (raised top pid) ∧
        e'.pinCount = Function.update e.pinCount pid (e.pinCount pid + 1) ∧
        (Moved e e' ∨ (e.find pid = none ∧
          e'.content = Function.update e.content pid Block.zero ∧
          e'.baseline = Function.update e.baseline pid Block.zero)))
      fun err e' => err = PoolView.noFrame ∧ e.find pid = none ∧
        (∀ i < e.frames.length, 0 < (e.frame i).pin) ∧ Moved e e' ∧ e'.Backed top ∧
        ∀ other, e'.pinCount other = e.pinCount other := by
  simp only [allocate, ends_bind, ends_get]
  cases found : e.find pid with
  | some idx =>
      obtain ⟨moved, backed', pins⟩ := pin_moved (e.frame idx).ref backed found
      exact ⟨found, moved.kept, backed_mono backed' (le_raised top pid), pins, .inl moved⟩
  | none =>
      simp only [ends_bind, ends_modify, ends_pure]
      apply (evict_moved backed).mono
      · rintro idx e₁ ⟨⟨moved, backed₁, pins⟩, evicted⟩
        have absent := evicted.absent pid found
        rw [emplace_setFrame absent]
        obtain ⟨backed₂, kept, content, baseline, pins₂⟩ := filled_backed pid
          (backed_mono backed₁ (le_raised top pid)) evicted.inRange evicted.vacant absent rfl rfl
          Nat.one_pos (lt_raised top pid)
          (f := { page := pid, valid := true, dirty := true, ref := true, pin := 1 })
          (by simp)
        refine ⟨?_, moved.then_kept kept, backed₂, ?_, .inr ⟨trivial, ?_, ?_⟩⟩
        · rw [find_filled absent, if_pos rfl]
        · rw [pins₂, pinCount_of_absent found, funext pins]
        · rw [content, funext moved.content]
        · rw [baseline, funext moved.baseline]
      · rintro err e' ⟨rfl, all, moved, backed', pins⟩
        exact ⟨rfl, trivial, all, moved, backed', pins⟩

end BufferPool

/-! ## What callers see -/

/-- The engine, in a transaction and with all its files at hand, shows its callers the
view `s`. -/
structure Shows (frames : Nat) (e : Engine) (s : PoolView) : Prop where
  backed : e.Backed s.top
  length : e.frames.length = frames
  content : e.content = s.pages
  pins : ∀ pid, s.pins.count pid = e.pinCount pid
  unlogged : ∀ pid, e.baseline pid ≠ e.content pid → pid ∈ s.unlogged
  active : e.txn.isSome = true
  trees : ∀ fid, (e.trees fid).getD {} = s.trees fid

/-- Calls that the contract has as the pool does: a check is for a magic number that an
empty page does not have, and the directory is not asked for files. -/
def Covered : PoolCall → Prop
  | .read _ magic => magic ≠ 0
  | .tableFileExists _ => False
  | _ => True

/-- The contract allows the outcome, or it says nothing of the call. -/
def Conforms (frames : Nat) (c : PoolCall) (s : PoolView) (r : Except Err c.Result) (e' : Engine) :
    Prop :=
  (∃ s', PoolView.Step frames c s r s' ∧ Shows frames e' s') ∨
    ∀ r s', PoolView.Step frames c s r s'

namespace Shows

/-- A page that callers have pinned is cached. -/
theorem find_of_mem (shows : Shows frames e s) (mem : pid ∈ s.pins) :
    ∃ idx, e.find pid = some idx ∧ 0 < (e.frame idx).pin := by
  have pinned : 0 < e.pinCount pid := by
    rw [← shows.pins]
    exact List.count_pos_iff.mpr mem
  cases found : e.find pid with
  | none =>
      rw [pinCount_of_absent found] at pinned
      exact absurd pinned (Nat.lt_irrefl 0)
  | some idx =>
      rw [pinCount_of_find found] at pinned
      exact ⟨idx, rfl, pinned⟩

theorem content_of_mem (shows : Shows frames e s) (found : e.find pid = some idx) :
    (e.frame idx).data = s.pages pid := by
  rw [← shows.content, content_of_find found]

/-- Where every frame is pinned, callers hold a pin for each. -/
theorem full (shows : Shows frames e s) (all : ∀ i < e.frames.length, 0 < (e.frame i).pin)
    (absent : e.find pid = none) : s.MayRefuse frames pid := by
  have indexed := shows.backed.tidy.indexed
  constructor
  · intro mem
    obtain ⟨idx, found, -⟩ := shows.find_of_mem mem
    rw [absent] at found
    cases found
  · have held : ∀ i < e.frames.length, e.find (e.frame i).page = some i := by
      intro i inRange
      exact (indexed.find_iff _ i).mpr ⟨inRange, shows.backed.tidy.pinned i (all i inRange), rfl⟩
    have distinct : ((List.range e.frames.length).map fun i => (e.frame i).page).Nodup := by
      apply List.Nodup.map_on _ List.nodup_range
      intro i i_mem j j_mem same
      have at_i := held i (List.mem_range.mp i_mem)
      rw [same, held j (List.mem_range.mp j_mem)] at at_i
      exact (Option.some.inj at_i).symm
    have among : ((List.range e.frames.length).map fun i => (e.frame i).page) ⊆ s.pins := by
      intro pid mem
      obtain ⟨i, i_mem, rfl⟩ := List.mem_map.mp mem
      have inRange := List.mem_range.mp i_mem
      apply List.count_pos_iff.mp
      rw [shows.pins, pinCount_of_find (held i inRange)]
      exact all i inRange
    have few := (distinct.subperm among).length_le
    rw [List.length_map, List.length_range, shows.length] at few
    exact few

/-- Moved contents are seen as before. -/
theorem moved (shows : Shows frames e s) (moved : Moved e e') (backed : e'.Backed s.top)
    {pins : List PageId} (counts : ∀ pid, pins.count pid = e'.pinCount pid) :
    Shows frames e' { s with pins := pins } where
  backed := backed
  length := moved.kept.length.trans shows.length
  content := (funext moved.content).trans shows.content
  pins := counts
  unlogged pid := by
    rw [moved.baseline, moved.content]
    exact shows.unlogged pid
  active := by
    rw [moved.kept.txn]
    exact shows.active
  trees fid := by
    rw [moved.kept.trees]
    exact shows.trees fid

theorem count_cons (shows : Shows frames e s) (pid other : PageId) :
    (pid :: s.pins).count other = Function.update e.pinCount pid (e.pinCount pid + 1) other := by
  by_cases same : other = pid
  · subst same
    rw [List.count_cons_self, Function.update_self, shows.pins]
  · rw [List.count_cons_of_ne (Ne.symm same), Function.update_of_ne same, shows.pins]

end Shows

/-! ## Each call keeps the contract -/

namespace BufferPool

/-- A call returns or raises as the contract has it. -/
def Keeps (frames : Nat) (c : PoolCall) (e : Engine) (s : PoolView) : Prop :=
  Ends (Engine.call c) e (fun a e' => Conforms frames c s (.ok a) e')
    fun err e' => Conforms frames c s (.error err) e'

theorem read_keeps (shows : Shows frames e s) {magic : Nat} (magic_ne : magic ≠ 0) :
    Keeps frames (.read pid magic) e s := by
  simp only [Keeps, Engine.call, ends_bind, ends_pure]
  apply (read_moved shows.backed magic_ne).mono
  · rintro idx e' ⟨found, moved, backed, pins⟩
    refine .inl ⟨_, .read pid magic s, shows.moved moved backed fun other => ?_⟩
    rw [pins]
    exact shows.count_cons pid other
  · rintro err e' ⟨moved, backed, pins, why⟩
    have shows' : Shows frames e' s :=
      shows.moved moved backed fun other => (shows.pins other).trans (pins other).symm
    rcases why with ⟨rfl, absent, all⟩ | ⟨rfl, invalid⟩
    · exact .inl ⟨s, .readRefused pid magic s (shows.full all absent), shows'⟩
    · rw [shows.content] at invalid
      exact .inl ⟨s, .readInvalid pid magic s invalid, shows'⟩

theorem allocate_keeps (shows : Shows frames e s) : Keeps frames (.allocate pid) e s := by
  simp only [Keeps, Engine.call, ends_bind, ends_pure]
  apply (allocate_moved shows.backed).mono
  · rintro idx e' ⟨found, kept, backed, pins, changed⟩
    rcases changed with moved | ⟨absent, content, baseline⟩
    · refine .inl ⟨_, .allocate pid s (s.pages pid) (.inl rfl), ?_⟩
      refine ⟨backed, moved.kept.length.trans shows.length, ?_, fun other => ?_, ?_, ?_, ?_⟩
      · simp only [PoolView.setPage_pages, Function.update_eq_self]
        exact (funext moved.content).trans shows.content
      · rw [pins]
        exact shows.count_cons pid other
      · intro other
        rw [moved.baseline, moved.content]
        exact shows.unlogged other
      · rw [kept.txn]
        exact shows.active
      · intro fid
        rw [kept.trees]
        exact shows.trees fid
    · refine .inl ⟨_, .allocate pid s Block.zero (.inr rfl), ?_⟩
      refine ⟨backed, kept.length.trans shows.length, ?_, fun other => ?_, ?_, ?_, ?_⟩
      · rw [content, shows.content]
        rfl
      · rw [pins]
        exact shows.count_cons pid other
      · intro other
        rw [baseline, content]
        by_cases same : other = pid
        · rw [same, Function.update_self, Function.update_self]
          exact fun ne => absurd rfl ne
        · rw [Function.update_of_ne same, Function.update_of_ne same]
          exact shows.unlogged other
      · rw [kept.txn]
        exact shows.active
      · intro fid
        rw [kept.trees]
        exact shows.trees fid
  · rintro err e' ⟨rfl, absent, all, moved, backed, pins⟩
    exact .inl ⟨s, .allocateRefused pid s (shows.full all absent),
      shows.moved moved backed fun other => (shows.pins other).trans (pins other).symm⟩

theorem pointer_ends :
    Ends (Engine.pointer pid) e (fun idx e' => e = e' ∧ e.find pid = some idx)
      fun _ e' => e = e' ∧ e.find pid = none := by
  simp only [pointer, ends_bind, ends_get]
  cases found : e.find pid with
  | none => exact ⟨rfl, rfl⟩
  | some idx => exact ⟨rfl, rfl⟩

/-- A call of a page that callers have not pinned is one of which the contract says nothing. -/
theorem of_pinned (pid : PageId) {c : PoolCall}
    (stray : pid ∉ s.pins → ∀ r s', PoolView.Step frames c s r s')
    (keeps : pid ∈ s.pins → Keeps frames c e s) : Keeps frames c e s := by
  by_cases mem : pid ∈ s.pins
  · exact keeps mem
  · have wild := stray mem
    unfold Keeps Ends
    split
    · exact .inr wild
    · exact .inr wild

theorem peek_keeps (shows : Shows frames e s) : Keeps frames (.peek pid) e s := by
  refine of_pinned pid (fun stray r s' => ?_) ?_
  · exact .peekStray pid s s' r stray
  intro mem
  obtain ⟨idx, found, -⟩ := shows.find_of_mem mem
  simp only [Keeps, Engine.call, ends_bind, ends_get, ends_pure]
  apply pointer_ends.mono
  · rintro idx' _ ⟨rfl, found'⟩
    rw [found] at found'
    obtain rfl := Option.some.inj found'
    rw [shows.content_of_mem found]
    exact .inl ⟨s, .peek pid s mem, shows⟩
  · rintro err _ ⟨rfl, absent⟩
    rw [found] at absent
    cases absent

theorem poke_keeps (shows : Shows frames e s) {p : Page} : Keeps frames (.poke pid p) e s := by
  refine of_pinned pid (fun stray r s' => ?_) ?_
  · exact .pokeStray pid p s s' r stray
  intro mem
  obtain ⟨idx, found, pinned⟩ := shows.find_of_mem mem
  obtain ⟨-, valid, page⟩ := (shows.backed.tidy.indexed.find_iff pid idx).mp found
  simp only [Keeps, Engine.call, ends_bind, poke, ends_modify]
  apply pointer_ends.mono
  · rintro idx' _ ⟨rfl, found'⟩
    rw [found] at found'
    obtain rfl := Option.some.inj found'
    obtain ⟨backed, kept, content, baseline, pins⟩ := held_backed
      (f := { e.frame idx with data := p }) shows.backed found page valid
      (fun none => absurd none (Nat.pos_iff_ne_zero.mp pinned))
      (fun clean => page ▸ shows.backed.clean idx valid clean)
    refine .inl ⟨_, .poke pid p s mem, ?_⟩
    refine ⟨backed, kept.length.trans shows.length, ?_, fun other => ?_, ?_, shows.active,
      shows.trees⟩
    · rw [content, shows.content]
      rfl
    · rw [pins, ← pinCount_of_find found, Function.update_eq_self]
      exact shows.pins other
    · intro other differs
      by_cases same : other = pid
      · exact same ▸ List.mem_cons_self ..
      · apply List.mem_cons_of_mem
        apply shows.unlogged
        rw [content, baseline, Function.update_of_ne same, Function.update_of_ne same] at differs
        exact differs
  · rintro err _ ⟨rfl, absent⟩
    rw [found] at absent
    cases absent

/-- A page marked dirty is logged, and its content is as before. -/
theorem logPageDiff_moved (txn : TxnContext) (backed : e.Backed top) (found : e.find pid = some idx) :
    (logPageDiff txn idx e).Backed top ∧
      (logPageDiff txn idx e).content = e.content ∧
      (logPageDiff txn idx e).baseline = Function.update e.baseline pid (e.content pid) ∧
      (logPageDiff txn idx e).pinCount = e.pinCount := by
  obtain ⟨-, valid, page⟩ := (backed.tidy.indexed.find_iff pid idx).mp found
  obtain ⟨backed', -, content, baseline, pins⟩ := held_backed
    (f := { e.frame idx with before := (e.frame idx).data, dirty := true }) backed found page valid
    (fun _ => rfl) (by simp)
  refine ⟨backed'.congr rfl rfl rfl, ?_, ?_, ?_⟩
  · refine content.trans ?_
    rw [← content_of_find found, Function.update_eq_self]
  · refine baseline.trans ?_
    rw [content_of_find found]
  · refine pins.trans ?_
    rw [← pinCount_of_find found, Function.update_eq_self]

theorem markDirty_keeps (shows : Shows frames e s) : Keeps frames (.markDirty pid) e s := by
  refine of_pinned pid (fun stray r s' => ?_) ?_
  · exact .markDirtyStray pid s s' r stray
  intro mem
  obtain ⟨idx, found, -⟩ := shows.find_of_mem mem
  obtain ⟨inRange, valid, -⟩ := (shows.backed.tidy.indexed.find_iff pid idx).mp found
  obtain ⟨txn, active⟩ := Option.isSome_iff_exists.mp shows.active
  simp only [Keeps, Engine.call, ends_bind]
  apply pointer_ends.mono
  · rintro idx' _ ⟨rfl, found'⟩
    rw [found] at found'
    obtain rfl := Option.some.inj found'
    have index : frameIndex e idx = some idx := if_pos ⟨inRange, valid⟩
    obtain ⟨backed, content, baseline, pins⟩ := logPageDiff_moved txn shows.backed found
    simp only [markDirty, ends_bind, ends_get, index, active]
    refine .inl ⟨_, .markDirty pid s mem, ?_⟩
    refine ⟨backed, (length_setFrame ..).trans shows.length, content.trans shows.content, ?_, ?_,
      rfl, shows.trees⟩
    · intro other
      rw [pins]
      exact shows.pins other
    · intro other differs
      rw [content, baseline] at differs
      by_cases same : other = pid
      · rw [same, Function.update_self] at differs
        exact absurd rfl differs
      · rw [Function.update_of_ne same] at differs
        exact List.mem_filter.mpr ⟨shows.unlogged other differs, by simpa using same⟩
  · rintro err _ ⟨rfl, absent⟩
    rw [found] at absent
    cases absent

theorem unpin_keeps (shows : Shows frames e s) : Keeps frames (.unpin pid) e s := by
  refine of_pinned pid (fun stray r s' => ?_) ?_
  · exact .unpinStray pid s s' r (.inl stray)
  intro mem
  obtain ⟨idx, found, pinned⟩ := shows.find_of_mem mem
  obtain ⟨inRange, valid, page⟩ := (shows.backed.tidy.indexed.find_iff pid idx).mp found
  by_cases unlogged : pid ∈ s.unlogged
  · unfold Keeps Ends
    split
    · exact .inr fun r s' => .unpinStray pid s s' r (.inr unlogged)
    · exact .inr fun r s' => .unpinStray pid s s' r (.inr unlogged)
  · have logged : (e.frame idx).before = (e.frame idx).data := by
      by_contra differs
      apply unlogged
      apply shows.unlogged
      rw [baseline_of_find found, content_of_find found]
      exact differs
    simp only [Keeps, Engine.call, ends_bind]
    apply pointer_ends.mono
    · rintro idx' _ ⟨rfl, found'⟩
      rw [found] at found'
      obtain rfl := Option.some.inj found'
      have index : frameIndex e idx = some idx := if_pos ⟨inRange, valid⟩
      simp only [unpin, ends_bind, ends_get, index]
      obtain ⟨backed, kept, content, baseline, pins⟩ := held_backed
        (f := { e.frame idx with pin := (e.frame idx).pin - 1 }) shows.backed found page valid
        (fun _ => logged) (fun clean => page ▸ shows.backed.clean idx valid clean)
      have moved : Moved e (e.setFrame idx { e.frame idx with pin := (e.frame idx).pin - 1 }) := by
        refine ⟨kept, fun other => ?_, fun other => ?_⟩
        · rw [content, ← content_of_find found, Function.update_eq_self]
        · rw [baseline, ← baseline_of_find found, Function.update_eq_self]
      refine .inl ⟨_, .unpin pid s mem unlogged, shows.moved moved backed fun other => ?_⟩
      rw [pins, ← pinCount_of_find found, List.count_erase, shows.pins]
      by_cases same : other = pid
      · subst same
        simp
      · rw [Function.update_of_ne same, beq_eq_false_iff_ne.mpr (Ne.symm same)]
        simp
    · rintro err _ ⟨rfl, absent⟩
      rw [found] at absent
      cases absent

theorem flush_keeps (shows : Shows frames e s) : Keeps frames (.flush pid) e s := by
  by_cases unlogged : pid ∈ s.unlogged
  · unfold Keeps Ends
    split
    · exact .inr fun r s' => .flushUnlogged pid s s' r unlogged
    · exact .inr fun r s' => .flushUnlogged pid s s' r unlogged
  · simp only [Keeps, Engine.call, flush, ends_bind, ends_get]
    cases found : e.find pid with
    | none => exact .inl ⟨s, .flush pid s unlogged, shows⟩
    | some idx =>
        have logged : (e.frame idx).before = (e.frame idx).data := by
          by_contra differs
          apply unlogged
          apply shows.unlogged
          rw [baseline_of_find found, content_of_find found]
          exact differs
        apply (writeBack_moved shows.backed fun _ _ => logged).mono
        · rintro - e' ⟨⟨moved, backed, calm⟩, -⟩
          refine .inl ⟨s, .flush pid s unlogged, shows.moved moved backed fun other => ?_⟩
          rw [calm.pinCount]
          exact shows.pins other
        · exact fun _ _ never => never.elim

/-- A file created anew, where there was none or an empty one. -/
theorem truncated_moved {fid : Nat} (backed : e.Backed top) (empty : e.files.pageCount fid = 0) :
    Moved e { e with files := e.files.truncated fid } ∧
      Engine.Backed { e with files := e.files.truncated fid } (raised top ⟨fid, 0⟩) := by
  have pages : (e.files.truncated fid).pages = e.files.pages := by
    funext pid
    change FileManager.cut e.files.pages fid 1 pid = _
    unfold FileManager.cut
    split
    · rename_i cutOff
      symm
      apply backed.sound
      rw [cutOff.1, empty]
      exact Nat.zero_le _
    · rfl
  refine ⟨⟨⟨rfl, rfl, rfl, rfl, rfl, rfl, rfl, fun pid => .inl (congrFun pages pid)⟩, ?_, ?_⟩,
    ⟨?_, ?_, backed.opens, backed.sound.truncated, ?_, ?_⟩⟩
  · intro pid
    change (e.find pid).elim ((e.files.truncated fid).pages pid) _ = _
    rw [pages]
    rfl
  · intro pid
    change (e.find pid).elim ((e.files.truncated fid).pages pid) _ = _
    rw [pages]
    rfl
  · exact backed.tidy.of_core (backed.tidy.indexed.congr rfl rfl (fun _ => rfl) fun _ => rfl)
      fun _ => rfl
  · intro i valid clean
    change (e.files.truncated fid).pages _ = _
    rw [pages]
    exact backed.clean i valid clean
  · intro other
    by_cases same : other = fid
    · subst same
      have one : (e.files.truncated other).pageCount other = 1 := by
        simp [FileManager.pageCount, FileManager.truncated]
      exact one.trans_le (lt_raised top ⟨other, 0⟩)
    · have kept : (e.files.truncated fid).pageCount other = e.files.pageCount other := by
        simp [FileManager.pageCount, FileManager.truncated, same]
      exact kept.trans_le ((backed.sizes other).trans (le_raised ..))
  · intro i valid
    exact lt_of_lt_of_le (backed.cached i valid) (le_raised ..)

theorem createTableFile_keeps (shows : Shows frames e s) {fid : Nat} :
    Keeps frames (.createTableFile fid) e s := by
  by_cases new : s.top fid = 0
  · have raised_eq : raised s.top ⟨fid, 0⟩ = Function.update s.top fid 1 := by
      simp [raised, new]
    simp only [Keeps, Engine.call, onFiles, ends_onPart, FileManager.createTableFile, ends_bind,
      ends_modify]
    have opening : ∀ files : FileManager, (files = e.files ∨ files = e.files.opened fid) →
        Conforms frames (.createTableFile fid) s (.ok ())
          { e with files := files.truncated fid } := by
      intro files opened
      obtain ⟨moved, backed⟩ := opened_moved shows.backed opened
      have empty : files.pageCount fid = 0 := Nat.le_zero.mp (new ▸ backed.sizes fid)
      obtain ⟨moved', backed'⟩ := truncated_moved backed empty
      rw [raised_eq] at backed'
      have gone := moved.trans moved'
      refine .inl ⟨_, .createTableFile fid s new, ⟨backed', shows.length, ?_, shows.pins, ?_,
        shows.active, shows.trees⟩⟩
      · exact (funext gone.content).trans shows.content
      · intro pid differs
        apply shows.unlogged
        rw [← gone.content, ← gone.baseline]
        exact differs
    apply FileManager.fdFor_ends.mono
    · rintro - files (⟨-, rfl⟩ | ⟨-, rfl⟩)
      · exact opening _ (.inl rfl)
      · exact opening _ (.inr rfl)
    · rintro err files ⟨-, closed, refused⟩
      rcases shows.backed.opens fid with isOpen | allowed
      · rw [closed] at isOpen
        cases isOpen
      · rw [refused] at allowed
        cases allowed
  · unfold Keeps Ends
    split
    · exact .inr fun r s' => .recreateTableFile fid s s' r new
    · exact .inr fun r s' => .recreateTableFile fid s s' r new

theorem setTree_keeps (shows : Shows frames e s) {fid : Nat} {t : BTree} :
    Keeps frames (.setTree fid t) e s := by
  refine .inl ⟨_, .setTree fid t s, ⟨shows.backed.congr rfl rfl rfl, shows.length, shows.content,
    shows.pins, shows.unlogged, shows.active, ?_⟩⟩
  intro other
  change (Function.update e.trees fid (some t) other).getD {} = Function.update s.trees fid t other
  by_cases same : other = fid
  · rw [same, Function.update_self, Function.update_self]
    rfl
  · rw [Function.update_of_ne same, Function.update_of_ne same]
    exact shows.trees other

theorem call_keeps (shows : Shows frames e s) {c : PoolCall} (covered : Covered c) :
    Keeps frames c e s := by
  cases c with
  | createTableFile fid => exact createTableFile_keeps shows
  | tableFileExists fid => exact covered.elim
  | pageCount fid =>
      exact .inl ⟨s, .pageCount fid _ s (shows.backed.sizes fid), shows⟩
  | allocate pid => exact allocate_keeps shows
  | read pid magic => exact read_keeps shows covered
  | peek pid => exact peek_keeps shows
  | poke pid p => exact poke_keeps shows
  | markDirty pid => exact markDirty_keeps shows
  | unpin pid => exact unpin_keeps shows
  | flush pid => exact flush_keeps shows
  | tree fid =>
      refine .inl ⟨s, ?_, shows⟩
      rw [shows.trees fid]
      exact .tree fid s
  | setTree fid t => exact setTree_keeps shows

end BufferPool

/-! ## Programs -/

/-- The pool as the meaning of its calls. -/
def Engine.sem : Prog.Semantics poolInterface Err Engine := fun c e r e' =>
  (Engine.call c).exit e = (r, e')

theorem PoolM.runs_iff {α : Type} {p : PoolM α} {r : Except Err α} :
    Prog.Runs Engine.sem p e r e' ↔ (PoolM.run p).exit e = (r, e') := by
  induction p generalizing e with
  | done result =>
      change r = result ∧ e' = e ↔ (result, e) = (r, e')
      rw [Prod.mk.injEq, eq_comm, @eq_comm _ e']
  | call c next inductionHypothesis =>
      rw [Prog.runs_call]
      change _ ↔ (PoolM.run (next ((Engine.call c).exit e).1)).exit ((Engine.call c).exit e).2 = _
      constructor
      · rintro ⟨r₀, middle, called, rest⟩
        have called : (Engine.call c).exit e = (r₀, middle) := called
        rw [called]
        exact (inductionHypothesis r₀).mp rest
      · intro exited
        exact ⟨_, _, rfl, (inductionHypothesis _).mpr exited⟩

/-- A program that handles no error and returns by the contract of the pool returns on the
engine, with a result and a view that the contract allows. -/
theorem pool_refines {α : Type} {p : PoolM α} {post : α → PoolView → Prop}
    (plain : Prog.Plain Covered p) (shows : Shows frames e s)
    (returns : Prog.Returns (PoolView.sem frames) p s post) :
    ∃ a e' s', (PoolM.run p).exit e = (.ok a, e') ∧ Shows frames e' s' ∧ post a s' := by
  have step : ∀ c (e : Engine) (s : PoolView) r e', Covered c → Shows frames e s →
      Engine.sem c e r e' → (∃ s', PoolView.sem frames c s r s' ∧ Shows frames e' s') ∨
        ∀ r s', PoolView.sem frames c s r s' := by
    intro c e s r e' covered shows called
    have called : (Engine.call c).exit e = (r, e') := called
    have keeps := BufferPool.call_keeps shows covered
    unfold BufferPool.Keeps Ends at keeps
    rw [called] at keeps
    cases r with
    | ok a => exact keeps
    | error err => exact keeps
  have : Nonempty Err := ⟨.crash ""⟩
  have run := plain.returns step shows returns
  rcases exited : (PoolM.run p).exit e with ⟨r, e'⟩
  obtain ⟨a, rfl, s', shows', holds⟩ := run r e' (PoolM.runs_iff.mpr exited)
  exact ⟨a, e', s', rfl, shows', holds⟩

end MySimpleDb.Storage
