import MySimpleDb.Storage.BTreeScan
import MySimpleDb.Storage.PoolConsistent
import MySimpleDb.Storage.PoolRefine

/-!
# Index trees on the pool

The programs that create a tree, insert into it and scan it handle no error, so
that what holds of them by the contract of the pool holds on the engine, whatever
its clock evicts in between: what was inserted is what a scan gives back.
-/

namespace MySimpleDb.Storage

open MySimpleDb.Lib

/-! ## The programs handle no error -/

/-- Code over the pool to which the refinement applies. -/
abbrev PlainPool {α : Type} (p : PoolM α) : Prop :=
  Prog.Plain Covered p

section Plain

variable {α : Type} {fid : Nat} {pid : PageId} {p : Page} {e : BTreeEntry} {k : PoolM α}

theorem plain_read {magic : Nat} (magic_ne : magic ≠ 0) : PlainPool (PoolM.read pid magic) :=
  Prog.Plain.perform magic_ne

/-- A page written, marked and given up. -/
theorem plain_save (rest : PlainPool k) :
    PlainPool (do PoolM.poke pid p; PoolM.markDirty pid; PoolM.unpin pid; k) := by
  refine (Prog.Plain.perform trivial).bind fun _ => ?_
  refine (Prog.Plain.perform trivial).bind fun _ => ?_
  exact (Prog.Plain.perform trivial).bind fun _ => rest

namespace BTree

theorem plain_create : PlainPool (create fid) := by
  unfold create
  refine (Prog.Plain.perform trivial).bind fun _ => ?_
  refine (Prog.Plain.perform trivial).bind fun _ => ?_
  refine (Prog.Plain.perform trivial).bind fun _ => ?_
  refine (Prog.Plain.perform trivial).bind fun _ => ?_
  refine (Prog.Plain.perform trivial).bind fun _ => ?_
  refine (Prog.Plain.perform trivial).bind fun h0 => ?_
  refine plain_save ?_
  refine (Prog.Plain.perform trivial).bind fun _ => ?_
  refine (Prog.Plain.perform trivial).bind fun _ => ?_
  refine (Prog.Plain.perform trivial).bind fun _ => ?_
  exact Prog.Plain.perform trivial

theorem plain_newPage : PlainPool (newPage fid) := by
  unfold newPage
  refine (Prog.Plain.perform trivial).bind fun count => ?_
  refine (Prog.Plain.perform trivial).bind fun t => ?_
  refine (Prog.Plain.perform trivial).bind fun _ => ?_
  exact (Prog.Plain.perform trivial).bind fun _ => Prog.Plain.pure _

theorem plain_readTree : PlainPool (readTree pid) := by
  unfold readTree
  refine (plain_read (show magicBTreeLeaf ≠ 0 by decide)).bind fun _ => ?_
  refine (Prog.Plain.perform trivial).bind fun pg => ?_
  refine Prog.Plain.ite (Prog.Plain.pure _) ?_
  exact (Prog.Plain.perform trivial).bind fun _ => Prog.Plain.raise _

theorem plain_setRoot {no : Nat} : PlainPool (setRoot fid no) := by
  unfold setRoot
  refine (plain_read (show magicFileHeader ≠ 0 by decide)).bind fun _ => ?_
  refine (Prog.Plain.perform trivial).bind fun h0 => ?_
  refine plain_save ?_
  refine (Prog.Plain.perform trivial).bind fun t => ?_
  exact Prog.Plain.perform trivial

theorem plain_insertLeaf : PlainPool (insertLeaf pid e) := by
  unfold insertLeaf
  refine (Prog.Plain.perform trivial).bind fun pg => ?_
  refine Prog.Plain.ite (plain_save (Prog.Plain.pure _)) ?_
  refine plain_newPage.bind fun rno => ?_
  exact plain_save (plain_save (Prog.Plain.pure _))

theorem plain_insertNode {j : Nat} {r : BTreeSplit} : PlainPool (insertNode pid j r) := by
  unfold insertNode
  refine (Prog.Plain.perform trivial).bind fun pg => ?_
  refine Prog.Plain.ite (plain_save (Prog.Plain.pure _)) ?_
  refine plain_newPage.bind fun rno => ?_
  exact plain_save (plain_save (Prog.Plain.pure _))

theorem plain_insertRec {fuel no : Nat} : PlainPool (insertRec fid e fuel no) := by
  induction fuel generalizing no with
  | zero => exact Prog.Plain.raise _
  | succ fuel inductionHypothesis =>
      unfold insertRec
      refine plain_readTree.bind fun _ => ?_
      refine (Prog.Plain.perform trivial).bind fun pg => ?_
      refine Prog.Plain.ite plain_insertLeaf ?_
      refine inductionHypothesis.bind fun r => ?_
      cases r with
      | none => exact (Prog.Plain.perform trivial).bind fun _ => Prog.Plain.pure _
      | some r => exact plain_insertNode

theorem plain_insert : PlainPool (insert fid e) := by
  unfold insert
  refine (Prog.Plain.perform trivial).bind fun t => ?_
  refine plain_insertRec.bind fun r => ?_
  cases r with
  | none => exact Prog.Plain.pure _
  | some r =>
      refine (Prog.Plain.perform trivial).bind fun t => ?_
      refine plain_newPage.bind fun no => ?_
      exact plain_save plain_setRoot

end BTree

namespace BTreeScanner

variable {scan : BTreeScanner} {lo hi : Option (Bound IndexKey)}

theorem plain_descend {probe : Option BTreeEntry} {fuel no : Nat} :
    PlainPool (descend fid probe fuel no) := by
  induction fuel generalizing no with
  | zero => exact Prog.Plain.raise _
  | succ fuel inductionHypothesis =>
      unfold descend
      refine (Prog.Plain.perform trivial).bind fun pg => ?_
      refine Prog.Plain.ite ?_ (Prog.Plain.pure _)
      refine (Prog.Plain.perform trivial).bind fun _ => ?_
      refine (plain_read (show magicBTreeLeaf ≠ 0 by decide)).bind fun _ => ?_
      exact inductionHypothesis

theorem plain_create : PlainPool (create fid lo hi) := by
  unfold create
  refine (Prog.Plain.perform trivial).bind fun t => ?_
  refine (plain_read (show magicBTreeLeaf ≠ 0 by decide)).bind fun _ => ?_
  refine plain_descend.bind fun no => ?_
  refine (Prog.Plain.perform trivial).bind fun pg => ?_
  refine Prog.Plain.ite (Prog.Plain.pure _) ?_
  exact (Prog.Plain.perform trivial).bind fun _ => Prog.Plain.raise _

theorem plain_nextLoop {fuel : Nat} : PlainPool (nextLoop fuel scan) := by
  induction fuel generalizing scan with
  | zero => exact Prog.Plain.raise _
  | succ fuel inductionHypothesis =>
      unfold nextLoop
      cases scan.cur with
      | none =>
          refine Prog.Plain.ite (Prog.Plain.pure _) ?_
          refine (plain_read (show magicBTreeLeaf ≠ 0 by decide)).bind fun _ => ?_
          refine (Prog.Plain.perform trivial).bind fun pg => ?_
          refine Prog.Plain.ite inductionHypothesis ?_
          exact (Prog.Plain.perform trivial).bind fun _ => Prog.Plain.raise _
      | some no =>
          refine (Prog.Plain.perform trivial).bind fun pg => ?_
          refine Prog.Plain.ite ?_ ((Prog.Plain.perform trivial).bind fun _ => inductionHypothesis)
          exact Prog.Plain.ite (Prog.Plain.pure _)
            (Prog.Plain.ite inductionHypothesis (Prog.Plain.pure _))

theorem plain_nexts {calls : Nat} : PlainPool (nexts calls scan) := by
  induction calls generalizing scan with
  | zero => exact Prog.Plain.pure _
  | succ calls inductionHypothesis =>
      unfold nexts
      refine (Prog.Plain.ite (Prog.Plain.pure _) plain_nextLoop).bind fun r => ?_
      exact inductionHypothesis.bind fun rest => Prog.Plain.pure _

theorem plain_close : PlainPool (close scan) := by
  unfold close
  cases scan.cur with
  | none => exact trivial
  | some no => exact (Prog.Plain.perform trivial).bind fun _ => Prog.Plain.pure _

theorem plain_scan {calls : Nat} : PlainPool (BTreeScanner.scan fid lo hi calls) := by
  unfold BTreeScanner.scan
  refine plain_create.bind fun scan => ?_
  refine plain_nexts.bind fun r => ?_
  exact plain_close.bind fun _ => Prog.Plain.pure _

end BTreeScanner

end Plain

/-! ## Insertions and scans by the contract -/

section View

variable {frames fid hint : Nat} {s : PoolView} {t : AnyTree} {done es : List BTreeEntry}

/-- One insertion into a tree file, of an entry that it does not have. -/
theorem insertOne_file {own : PageId → Page → Prop} {e : BTreeEntry}
    (owned : PoolView.Owns own fid) (file : TreeFile s fid hint t)
    (perm : t.2.entries.Perm done) (enough : s.pins.length + 6 ≤ frames) (new : e ∉ done)
    (few : done.length + 1 < 2 ^ 32) :
    Prog.Returns (PoolView.strict frames own) (BTree.insert fid e) s fun _ s' =>
      ∃ hint' t', TreeFile s' fid hint' t' ∧ t'.2.entries.Perm (done ++ [e]) ∧
        s'.pins = s.pins := by
  have absent : e ∉ t.2.entries := fun mem => new (perm.mem_iff.mp mem)
  obtain ⟨wf', perm'⟩ := file.wf.insert (by decide) absent
  have count := perm.length_eq
  have count' := perm'.length_eq
  rw [List.length_cons] at count'
  have height := height_le file.wf (by omega)
  have pages := wf'.next_le (by decide)
  have levels : t.1 < recursionBound := by
    unfold recursionBound
    omega
  apply (insert_strict owned file (by omega) levels (by omega) absent).mono
  rintro _ s₁ ⟨file', pins, -⟩
  have perm'' := perm'.trans ((perm.cons e).trans (List.perm_append_singleton e done).symm)
  exact ⟨_, _, file', perm'', pins⟩

/-- Further insertions into a tree file, of entries that it does not have. -/
theorem insertAll_file (file : TreeFile s fid hint t) (perm : t.2.entries.Perm done)
    (enough : s.pins.length + 6 ≤ frames) (distinct : (done ++ es).Nodup)
    (few : (done ++ es).length < 2 ^ 32) :
    Prog.Returns (PoolView.sem frames) (es.forM (BTree.insert fid)) s fun _ s' =>
      ∃ hint' t', TreeFile s' fid hint' t' ∧ t'.2.entries.Perm (done ++ es) ∧ s'.pins = s.pins := by
  induction es generalizing s hint t done with
  | nil =>
      refine Prog.Returns.pure ⟨hint, t, file, ?_, rfl⟩
      rwa [List.append_nil]
  | cons e es inductionHypothesis =>
      have new : e ∉ done := fun mem =>
        (List.nodup_append.mp distinct).2.2 e mem e (List.mem_cons_self ..) rfl
      have regroup : done ++ e :: es = (done ++ [e]) ++ es := by simp
      rw [regroup] at distinct few ⊢
      rw [List.length_append, List.length_append, List.length_singleton] at few
      apply Prog.Returns.bind
      apply (PoolView.returns_of_strict
        (insertOne_file (PoolView.owns_anyPage fid) file perm enough new (by omega))).mono
      rintro _ s₁ ⟨hint₁, t₁, file₁, perm₁, pins⟩
      rw [← pins] at enough
      apply (inductionHypothesis file₁ perm₁ enough distinct (by simp; omega)).mono
      rintro _ s₂ ⟨hint', t', file', perm', pins'⟩
      exact ⟨hint', t', file', perm', pins'.trans pins⟩

/-- The entries whose keys the bounds admit, in order. -/
def entriesBetween (lo hi : Option (Bound IndexKey)) (es : List BTreeEntry) : List BTreeEntry :=
  (es.filter fun e => decide (KeyInterval.Mem ⟨lo, hi⟩ e.key)).insertionSort (· ≤ ·)

/-- A list in strict order is determined by its members. -/
theorem eq_entriesBetween {lo hi : Option (Bound IndexKey)} {found : List BTreeEntry}
    (distinct : es.Nodup) (sorted : found.Pairwise fun a b => entryCmp a b < 0)
    (mem : ∀ e, e ∈ found ↔ e ∈ es ∧ KeyInterval.Mem ⟨lo, hi⟩ e.key) :
    found = entriesBetween lo hi es := by
  have strict : found.Pairwise (· < ·) := sorted.imp BTreeEntry.entryCmp_neg_iff.mp
  have perm : found.Perm (entriesBetween lo hi es) := by
    refine List.Perm.trans ?_ (List.perm_insertionSort _ _).symm
    apply (List.perm_ext_iff_of_nodup (strict.imp ne_of_lt) (distinct.filter _)).mpr
    intro e
    rw [mem, List.mem_filter, decide_eq_true_eq]
  exact perm.eq_of_pairwise' (strict.imp le_of_lt) (List.pairwise_insertionSort _ _)

/-- What is inserted into a new tree is what a scan of it gives. -/
theorem insertAll_scan {lo hi : Option (Bound IndexKey)} {calls : Nat} (fresh : FreshFile s fid)
    (enough : s.pins.length + 6 ≤ frames) (distinct : es.Nodup) (few : es.length < 2 ^ 32) :
    Prog.Returns (PoolView.sem frames)
      (do BTree.create fid; es.forM (BTree.insert fid); BTreeScanner.scan fid lo hi calls) s
      fun outs s' => outs = ((List.range calls).map fun i => (entriesBetween lo hi es)[i]?) ∧
        s'.pins = s.pins ∧ s'.unlogged = [] := by
  apply Prog.Returns.bind
  apply (create_spec fresh (by omega)).mono
  rintro _ s₁ ⟨created, pins⟩
  apply Prog.Returns.bind
  rw [← pins] at enough
  apply (insertAll_file created (List.Perm.refl []) enough distinct few).mono
  rintro _ s₂ ⟨hint, t, file, perm, pins'⟩
  have tree := file.invariant perm
  have room : s₂.pins.length < frames := by
    rw [pins']
    omega
  have logged : ∀ no, (⟨fid, no⟩ : PageId) ∉ s₂.unlogged := by
    intro no
    rw [file.tail.logged]
    exact List.not_mem_nil
  obtain ⟨found, sorted, mem, outs⟩ := BTreeScanner.scan_exact frames s₂ fid es t tree room logged lo hi
  apply (outs calls).mono
  rintro _ _ ⟨rfl, rfl⟩
  rw [eq_entriesBetween distinct sorted mem]
  exact ⟨rfl, pins'.trans pins, file.tail.logged⟩

end View

/-! ## On the engine -/

section Engine

variable {e : Engine} {top : Nat → Nat} {fid calls : Nat} {es : List BTreeEntry}
  {lo hi : Option (Bound IndexKey)}

/-- Between two calls from outside, in a transaction: no page is pinned, and every change
is logged. -/
structure Engine.Quiet (e : Engine) (top : Nat → Nat) : Prop where
  backed : e.Backed top
  unpinned : ∀ pid, e.pinCount pid = 0
  logged : ∀ pid, e.baseline pid = e.content pid
  active : e.txn.isSome = true

/-- What is seen of a quiet engine. -/
def Engine.view (e : Engine) (top : Nat → Nat) : PoolView where
  pages := e.content
  top := top
  pins := []
  unlogged := []
  trees fid := (e.trees fid).getD {}

theorem Engine.Quiet.shows (quiet : e.Quiet top) : Shows e.frames.length e (e.view top) where
  backed := quiet.backed
  length := rfl
  content := rfl
  pins pid := (quiet.unpinned pid).symm
  unlogged pid differs := absurd (quiet.logged pid) differs
  active := quiet.active
  trees _ := rfl

theorem Shows.quiet {frames : Nat} {s : PoolView} (shows : Shows frames e s) (pins : s.pins = [])
    (unlogged : s.unlogged = []) : e.Quiet s.top where
  backed := shows.backed
  unpinned pid := by rw [← shows.pins, pins, List.count_nil]
  logged pid := by
    by_contra differs
    have mem := shows.unlogged pid differs
    rw [unlogged] at mem
    exact absurd mem List.not_mem_nil
  active := shows.active

/-- A file that none of its pages was allocated in holds nothing, in the pool or on disk. -/
theorem Engine.Quiet.fresh (quiet : e.Quiet top) (new : top fid = 0) :
    FreshFile (e.view top) fid where
  top := new
  zero n := by
    have absent : e.find ⟨fid, n⟩ = none := by
      by_contra cached
      obtain ⟨idx, found⟩ := Option.ne_none_iff_exists'.mp cached
      obtain ⟨-, valid, page⟩ := (quiet.backed.tidy.indexed.find_iff _ idx).mp found
      have below := quiet.backed.cached idx valid
      rw [page] at below
      exact absurd (new ▸ below) (Nat.not_lt_zero n)
    refine (Engine.content_of_absent absent).trans (quiet.backed.sound _ ?_)
    have empty := quiet.backed.sizes fid
    rw [new] at empty
    exact empty.trans (Nat.zero_le n)
  logged := rfl

/-- Whatever the clock evicts meanwhile, an index that is created and filled on the engine
gives a scan exactly the entries between its bounds, in order, and then the end; and the
engine is quiet again. -/
theorem index_on_engine (quiet : e.Quiet top) (enough : 6 ≤ e.frames.length) (new : top fid = 0)
    (distinct : es.Nodup) (few : es.length < 2 ^ 32) (lo hi : Option (Bound IndexKey))
    (calls : Nat) :
    ∃ e' top', (PoolM.run (do
        BTree.create fid
        es.forM (BTree.insert fid)
        BTreeScanner.scan fid lo hi calls)).exit e =
      (.ok ((List.range calls).map fun i => (entriesBetween lo hi es)[i]?), e') ∧
      e'.Quiet top' := by
  have plain : PlainPool (do
      BTree.create fid
      es.forM (BTree.insert fid)
      BTreeScanner.scan fid lo hi calls) := by
    refine BTree.plain_create.bind fun _ => ?_
    refine (Prog.Plain.forM (fun e => BTree.plain_insert) es).bind fun _ => ?_
    exact BTreeScanner.plain_scan
  have room : (e.view top).pins.length + 6 ≤ e.frames.length := by
    simpa [Engine.view] using enough
  obtain ⟨outs, e', s', exited, shows, rfl, pins, unlogged⟩ :=
    pool_refines plain quiet.shows (insertAll_scan (quiet.fresh new) room distinct few)
  exact ⟨e', s'.top, exited, shows.quiet pins unlogged⟩

/-- A new engine of 16 frames in its first transaction. -/
def firstTxn : Engine :=
  { frames := List.replicate 16 {}, txn := some { txnId := 1 } }

theorem firstTxn_quiet : firstTxn.Quiet fun _ => 0 := by
  have fresh : firstTxn.Fresh := ⟨rfl, fun f mem => List.eq_of_mem_replicate mem⟩
  exact ⟨fresh.backed (fun _ => .inr rfl) (fun _ _ => rfl) fun _ => Nat.le_refl 0,
    fun _ => rfl, fun _ => rfl, rfl⟩

theorem pool_refines_create :
    ∃ a e' s', (PoolM.run (BTree.create 7)).exit firstTxn = (.ok a, e') ∧ Shows 16 e' s' ∧
      TreeFile s' 7 2 ⟨0, (⟨1, []⟩ : BPlus.Leaf _)⟩ ∧ s'.pins = [] :=
  have fresh : FreshFile (firstTxn.view fun _ => 0) 7 := firstTxn_quiet.fresh rfl
  pool_refines BTree.plain_create firstTxn_quiet.shows (create_spec fresh (by decide))

theorem index_on_engine_three :
    ∃ e' top', (PoolM.run (do
        BTree.create 7
        [⟨⟨5, false⟩, 1, 0⟩, ⟨⟨0, true⟩, 1, 1⟩, ⟨⟨5, false⟩, 2, 0⟩].forM (BTree.insert 7)
        BTreeScanner.scan 7 (some ⟨⟨5, false⟩, true⟩) none 4)).exit firstTxn =
      (.ok ((List.range 4).map fun i => (entriesBetween (some ⟨⟨5, false⟩, true⟩) none
        [⟨⟨5, false⟩, 1, 0⟩, ⟨⟨0, true⟩, 1, 1⟩, ⟨⟨5, false⟩, 2, 0⟩])[i]?), e') ∧
      e'.Quiet top' :=
  index_on_engine firstTxn_quiet (by decide) rfl (by decide) (by decide) _ _ 4

end Engine

end MySimpleDb.Storage
