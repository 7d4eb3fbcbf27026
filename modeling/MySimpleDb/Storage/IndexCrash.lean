import MySimpleDb.Storage.CrashProgram

/-!
# Indexes survive

An index that a transaction creates and fills is there once the `Commit` record is
written, in this process and in any that is started after a kill: the tree is opened
from the header page of its file, and a scan gives the entries between its bounds.
-/

namespace MySimpleDb.Storage

open MySimpleDb.Lib Attempt Engine

/-- `index_scan`, and what the scan gives in its first calls. -/
def Engine.indexScan (fid : Nat) (lo hi : Option (Bound IndexKey)) (calls : Nat) :
    EngineM (List (Option BTreeEntry)) := do
  treeFor fid
  PoolM.run (BTreeScanner.scan fid lo hi calls)

/-- The pages of one index. -/
def indexPages (fid : Nat) (pid : PageId) (_ : Page) : Prop :=
  pid.fileId = fid ∧ pid.pageNo < 2 ^ 32

variable {frames fid : Nat} {own : PageId → Page → Prop} {e : Engine} {st : TxnStore} {s s' : PoolView}
  {t : AnyTree} {es : List BTreeEntry} {lo hi : Option (Bound IndexKey)} {calls : Nat}

/-- A tree is in the pages of its file and in the root that its object names. -/
theorem TreeInvariant.congr (tree : TreeInvariant s fid es t)
    (pages : ∀ no, s'.pages ⟨fid, no⟩ = s.pages ⟨fid, no⟩)
    (root : (s'.trees fid).rootPage = t.2.no) : TreeInvariant s' fid es t where
  cuts := tree.cuts
  leaves := tree.leaves
  layout := by
    rw [funext pages]
    exact tree.layout
  chain := by
    rw [funext pages]
    exact tree.chain
  names := tree.names
  header := by
    rw [pages]
    exact tree.header
  root := by
    rw [pages]
    exact ⟨tree.root.1, root⟩
  entries := tree.entries

/-! ## Checks -/

/-- In a transaction that dropped no file every file may be changed. -/
theorem Working.checkTxn (working : Working frames own e st s) (none_dropped : st.drops = []) :
    (checkTxn fid).exit e = (.ok (), e) := by
  obtain ⟨txn, active⟩ := Option.isSome_iff_exists.mp working.shows.active
  have ends : Ends (Engine.checkTxn fid) e (fun _ e' => e' = e) fun _ _ => False := by
    simp only [Engine.checkTxn, ends_bind, ends_get, active]
    rw [working.reached.pending active, none_dropped]
    exact rfl
  obtain ⟨_, e', exited, rfl⟩ := ends.exits
  exact exited

/-- A tree that was opened or created is tracked. -/
theorem Working.treeFor (working : Working frames own e st s)
    (root : (s.trees fid).rootPage ≠ 0) : (treeFor fid).exit e = (.ok (), e) := by
  have tracked : e.trees fid ≠ none := by
    intro none
    apply root
    rw [← working.shows.trees fid, none]
    rfl
  have ends : Ends (Engine.treeFor fid) e (fun _ e' => e' = e) fun _ _ => False := by
    simp only [Engine.treeFor, ends_bind, ends_get, ends_ite, ends_pure]
    exact (if_neg tracked).mpr trivial
  obtain ⟨_, e', exited, rfl⟩ := ends.exits
  exact exited

/-! ## Building an index -/

/-- A transaction with an index open that holds the entries `es`. -/
def IndexOpen (frames fid : Nat) (e : Engine) (st : TxnStore) (es : List BTreeEntry) : Prop :=
  ∃ s hint t, Working frames (indexPages fid) e st s ∧ TreeFile s fid hint t ∧
    t.2.entries.Perm es ∧ s.pins = []

/-- Trees and tails may be tracked as one likes, as far as callers are told. -/
theorem Working.track (working : Working frames own e st s) (trees : Nat → Option BTree)
    (tails : Nat → Option Nat) (tailUndo : List TailUndo) :
    Working frames own (e.tracking trees tails tailUndo) st
      { s with trees := fun fid => (trees fid).getD {} } := by
  have shows := working.shows
  refine ⟨⟨shows.backed.congr rfl rfl rfl, shows.length, shows.content, shows.pins,
    shows.unlogged, ?_, fun _ => rfl⟩, working.reached.track trees tails tailUndo, working.own⟩
  exact Option.isSome_map.trans shows.active

theorem TreeFile.root_ne_zero {hint : Nat} (file : TreeFile s fid hint t) : t.2.no ≠ 0 := by
  have bounds := file.names_bounds t.2.no (no_mem_names t.2)
  omega

theorem initIndexFile_open (working : Working frames (indexPages fid) e st s)
    (none_dropped : st.drops = []) (fresh : FreshFile s fid) (unpinned : s.pins = [])
    (room : 1 < frames) :
    Ends (initIndexFile fid) e (fun _ e' => ∃ st', IndexOpen frames fid e' st' [] ∧
      st.SameCommitted st') fun _ _ => False := by
  obtain ⟨txn, active⟩ := Option.isSome_iff_exists.mp working.shows.active
  have untracked : { e with trees := Function.update e.trees fid none } =
      e.tracking (Function.update e.trees fid none) e.tailPages txn.tailUndo := by
    rw [tracking, active]
    rfl
  have working₁ := working.track (Function.update e.trees fid none) e.tailPages txn.tailUndo
  have plain : PlainPool (do
      BTree.create fid
      PoolM.flush ⟨fid, 1⟩) :=
    BTree.plain_create.bind fun _ => Prog.Plain.perform trivial
  have created : ∀ s₁ : PoolView, FreshFile s₁ fid → s₁.pins = [] →
      Prog.Returns (PoolView.strict frames (indexPages fid)) (do
        BTree.create fid
        PoolM.flush ⟨fid, 1⟩) s₁ fun _ s' =>
        TreeFile s' fid 2 ⟨0, (⟨1, []⟩ : BPlus.Leaf _)⟩ ∧ s'.pins = [] := by
    intro s₁ fresh₁ unpinned₁
    apply Prog.Returns.bind
    apply (create_strict (fun n lt _ => ⟨rfl, lt⟩) fresh₁ (by simpa [unpinned₁] using room)).mono
    rintro _ s' ⟨file, pins⟩
    refine PoolView.strict_flush ?_ ⟨file, pins.trans unpinned₁⟩
    rw [file.tail.logged]
    exact List.not_mem_nil
  obtain ⟨u, e', st', s', exited, working', same, file, pins⟩ :=
    working₁.program plain (created _ ⟨fresh.top, fresh.zero, fresh.logged⟩ unpinned)
  simp only [initIndexFile, ends_bind]
  apply Ends.of_exit (working.checkTxn none_dropped)
  rw [ends_modify, untracked]
  exact Ends.of_exit exited ⟨st', ⟨s', 2, _, working', file, .refl [], pins⟩, same⟩

theorem indexInsert_open {key : IndexKey} {ref : RowRef} (opened : IndexOpen frames fid e st es)
    (none_dropped : st.drops = []) (enough : 6 ≤ frames) (new : indexEntry key ref ∉ es)
    (few : es.length + 1 < 2 ^ 32) :
    Ends (indexInsert fid key ref) e (fun _ e' => ∃ st',
      IndexOpen frames fid e' st' (es ++ [indexEntry key ref]) ∧ st.SameCommitted st')
      fun _ _ => False := by
  obtain ⟨s, hint, t, working, file, perm, pins⟩ := opened
  have root : (s.trees fid).rootPage ≠ 0 := by
    rw [file.tail.tree]
    exact file.root_ne_zero
  obtain ⟨u, e', st', s', exited, working', same, hint', t', file', perm', pins'⟩ :=
    working.program BTree.plain_insert (insertOne_file (fun n lt _ => ⟨rfl, lt⟩) file perm
      (by rw [pins]; exact enough) new few)
  simp only [indexInsert, ends_bind]
  apply Ends.of_exit (working.checkTxn none_dropped)
  apply Ends.of_exit (working.treeFor root)
  exact Ends.of_exit exited ⟨st', ⟨s', hint', t', working', file', perm', pins'.trans pins⟩, same⟩

/-- The entries of rows given by key and reference. -/
def indexEntries (rows : List (IndexKey × RowRef)) : List BTreeEntry :=
  rows.map fun row => indexEntry row.1 row.2

theorem indexInsertAll_open {rows : List (IndexKey × RowRef)}
    (opened : IndexOpen frames fid e st es) (none_dropped : st.drops = []) (enough : 6 ≤ frames)
    (distinct : (es ++ indexEntries rows).Nodup)
    (few : (es ++ indexEntries rows).length < 2 ^ 32) :
    Ends (rows.forM fun row => indexInsert fid row.1 row.2) e (fun _ e' => ∃ st',
      IndexOpen frames fid e' st' (es ++ indexEntries rows) ∧ st.SameCommitted st')
      fun _ _ => False := by
  induction rows generalizing e st es with
  | nil =>
      refine ⟨st, ?_, .refl st⟩
      rwa [indexEntries, List.map_nil, List.append_nil]
  | cons row rows inductionHypothesis =>
      have regroup : es ++ indexEntries (row :: rows) =
          (es ++ [indexEntry row.1 row.2]) ++ indexEntries rows := by
        simp [indexEntries]
      have new : indexEntry row.1 row.2 ∉ es := fun mem =>
        (List.nodup_append.mp distinct).2.2 _ mem _ List.mem_cons_self rfl
      rw [regroup] at distinct few ⊢
      change Ends (indexInsert fid row.1 row.2 >>= fun _ => rows.forM _) e _ _
      rw [ends_bind]
      rw [List.length_append, List.length_append, List.length_singleton] at few
      apply (indexInsert_open opened none_dropped enough new (by omega)).mono
      · rintro - e₁ ⟨st₁, opened₁, same₁⟩
        apply (inductionHypothesis opened₁ (same₁.drops.trans none_dropped) distinct
          (by simp; omega)).mono
        · rintro - e₂ ⟨st₂, opened₂, same₂⟩
          exact ⟨st₂, opened₂, same₁.trans same₂⟩
        · exact fun _ _ never => never
      · exact fun _ _ never => never

/-! ## Opening an index -/

/-- A file whose header page checks is opened at the root that the page names. -/
theorem Working.openFile (working : Working frames own e st s) (room : s.pins.length < frames)
    (header : pageValid (s.pages ⟨fid, 0⟩) magicFileHeader = true)
    (root : fileRoot (s.pages ⟨fid, 0⟩) ≠ 0) (logged : s.unlogged = [])
    (exists_file : e.files.tableFileExists fid = true) :
    ∃ e' st' s', (PoolM.run (BTree.openFile fid)).exit e = (.ok (), e') ∧
      Working frames own e' st' s' ∧ st.SameCommitted st' ∧ s'.pages = s.pages ∧
      (s'.trees fid).rootPage = fileRoot (s.pages ⟨fid, 0⟩) ∧ s'.pins = s.pins ∧
      s'.unlogged = [] := by
  let rest : PoolM Unit := do
    PoolM.read ⟨fid, 0⟩ magicFileHeader
    let h0 ← PoolM.peek ⟨fid, 0⟩
    let root := fileRoot h0
    PoolM.unpin ⟨fid, 0⟩
    if root = 0 then
      Prog.raise (.critical s!"B+树根页号无效: file={fid}")
    else
      let count ← PoolM.pageCount fid
      PoolM.setTree fid ⟨root, max count (root + 1)⟩
  have first : (PoolM.run (BTree.openFile fid)).exit e = (PoolM.run rest).exit e := by
    change (PoolM.run (if e.files.tableFileExists fid = true then rest else _)).exit e = _
    rw [if_pos exists_file]
  have plain : PlainPool rest := by
    refine (plain_read (show magicFileHeader ≠ 0 by decide)).bind fun _ => ?_
    refine (Prog.Plain.perform trivial).bind fun h0 => ?_
    refine (Prog.Plain.perform trivial).bind fun _ => ?_
    refine Prog.Plain.ite (Prog.Plain.raise _) ?_
    exact (Prog.Plain.perform trivial).bind fun count => Prog.Plain.perform trivial
  have returns : Prog.Returns (PoolView.strict frames own) rest s fun _ s' =>
      s'.pages = s.pages ∧ (s'.trees fid).rootPage = fileRoot (s.pages ⟨fid, 0⟩) ∧
        s'.pins = s.pins ∧ s'.unlogged = [] := by
    apply Prog.Returns.bind
    refine PoolView.strict_read room header ?_
    apply Prog.Returns.bind
    refine PoolView.strict_peek List.mem_cons_self ?_
    apply Prog.Returns.bind
    refine PoolView.strict_unpin List.mem_cons_self (by simp [logged]) ?_
    rw [if_neg root]
    apply Prog.Returns.bind
    refine PoolView.strict_pageCount fun count _ => ?_
    refine PoolView.strict_setTree ⟨rfl, ?_, ?_, logged⟩
    · change (Function.update s.trees fid _ fid).rootPage = _
      rw [Function.update_self]
    · exact List.erase_cons_head ..
  obtain ⟨u, e', st', s', exited, working', same, holds⟩ := working.program plain returns
  rw [first]
  exact ⟨e', st', s', exited, working', same, holds⟩

/-! ## New processes -/

/-- A process that was just started holds no page. -/
theorem openEngine_fresh {dir : Directory} {chunks : Nat → Nat}
    (opened : dir.openEngine frames chunks = .ok e) :
    ∃ files, e = { files, frames := List.replicate frames {} } := by
  unfold Directory.openEngine at opened
  split at opened
  · exact ⟨_, (Except.ok.inj opened).symm⟩
  · cases opened

/-- A caller that only reads owns no page. -/
def noPage (_ : PageId) (_ : Page) : Prop :=
  False

theorem noPage_numbered (pid : PageId) (p : Page) (owned : noPage pid p) : pid.Numbered :=
  owned.elim

theorem pageCount_pos_of_valid {files : FileManager} (sound : files.Sound)
    (valid : pageValid (files.pages ⟨fid, 0⟩) magicFileHeader = true) :
    0 < files.pageCount fid := by
  by_contra empty
  rw [sound ⟨fid, 0⟩ (Nat.le_of_not_lt empty),
    BufferPool.not_pageValid_zero (show magicFileHeader ≠ 0 by decide)] at valid
  cases valid

/-- In a process that was just started and whose files hold the tree, a scan gives what is
in it. -/
theorem scan_restarted {files : FileManager} (reached : Reached
      { files, frames := List.replicate frames {} } st) (room : 0 < frames)
    (tree : TreeInvariant s fid es t) (distinct : es.Nodup)
    (pages : ∀ no, files.pages ⟨fid, no⟩ = s.pages ⟨fid, no⟩) (lo hi : Option (Bound IndexKey))
    (calls : Nat) :
    ∃ e', (do beginTxn; indexScan fid lo hi calls : EngineM _).exit
        { files, frames := List.replicate frames {} } =
      (.ok ((List.range calls).map fun i => (entriesBetween lo hi es)[i]?), e') := by
  obtain ⟨top, earlier, current, holds⟩ := reached.durable
  obtain ⟨e₁, begun, working, -, same_files, same_trees⟩ := reached.begin_working rfl
    (show (1 : Nat) < 2 ^ 64 by decide) (fun _ => rfl) holds.backed noPage_numbered
  rw [List.length_replicate] at working
  have root_ne : t.2.no ≠ 0 := tree.names.2 _ (no_mem_names t.2)
  have exists_file : e₁.files.tableFileExists fid = true := by
    rw [same_files]
    have header := tree.header
    rw [← pages] at header
    have nonempty := pageCount_pos_of_valid holds.fine.sound header
    by_contra absent
    have none := Option.not_isSome_iff_eq_none.mp absent
    rw [FileManager.pageCount, none] at nonempty
    exact Nat.lt_irrefl 0 nonempty
  have header : pageValid (files.pages ⟨fid, 0⟩) magicFileHeader = true := by
    rw [pages]
    exact tree.header
  have root : fileRoot (files.pages ⟨fid, 0⟩) = t.2.no := by
    rw [pages]
    exact tree.root.1
  obtain ⟨e₂, st₂, s₂, opened, working₂, -, pages₂, root₂, pins₂, logged₂⟩ :=
    working.openFile room header (root ▸ root_ne) rfl exists_file
  have tree₂ : TreeInvariant s₂ fid es t := by
    refine tree.congr (fun no => ?_) (root₂.trans root)
    rw [pages₂]
    exact pages no
  obtain ⟨found, sorted, mem, outs⟩ := BTreeScanner.scan_exact frames s₂ fid es t tree₂
    (by rw [pins₂]; exact room) (fun no => by rw [logged₂]; exact List.not_mem_nil) lo hi
  obtain ⟨_, e₃, s₃, scanned, -, rfl, -⟩ :=
    pool_refines BTreeScanner.plain_scan working₂.shows (outs calls)
  rw [eq_entriesBetween distinct sorted mem] at scanned
  have untracked : e₁.trees fid = none := congrFun same_trees fid
  have ends : Ends (do beginTxn; indexScan fid lo hi calls : EngineM _)
      { files, frames := List.replicate frames {} }
      (fun outs _ => outs = (List.range calls).map fun i => (entriesBetween lo hi es)[i]?)
      fun _ _ => False := by
    rw [ends_bind]
    apply Ends.of_exit begun
    simp only [indexScan, Engine.treeFor, ends_bind, ends_get, ends_ite]
    rw [if_pos untracked]
    apply Ends.of_exit opened
    exact Ends.of_exit scanned rfl
  obtain ⟨outs, e', exited, rfl⟩ := ends.exits
  exact ⟨e', exited⟩

/-! ## The index after a kill -/

end MySimpleDb.Storage
