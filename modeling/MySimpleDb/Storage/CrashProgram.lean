import MySimpleDb.Storage.CrashSafe
import MySimpleDb.Storage.IndexOnPool
import MySimpleDb.Storage.PoolStrict

/-!
# Programs in runs with kills

Code over the pool that keeps to the contract for logged pages makes the calls of a
run, whatever the clock evicts in between, so that what it leaves is what a commit
makes and a restart finds.
-/

namespace MySimpleDb.Storage

open MySimpleDb.Lib Attempt Engine

/-- The files and the log are those of a run, and the transaction that is open drops the
files that the store says. -/
theorem Reached.pending {e : Engine} {st : TxnStore} (reached : Reached e st) {txn : TxnContext}
    (active : e.txn = some txn) : txn.pendingDrops = st.drops := by
  obtain ⟨top, earlier, current, holds⟩ := reached.durable
  exact (holds.recorded.active txn active).2.2.2.1

/-- An engine in a transaction, the store beside it, and what its callers see; they may give
pages the contents `own`. -/
structure Working (frames : Nat) (own : PageId → Page → Prop) (e : Engine) (st : TxnStore)
    (s : PoolView) : Prop where
  shows : Shows frames e s
  reached : Reached e st
  own : ∀ pid p, own pid p → pid.Numbered ∧ pid.fileId ∉ st.drops

/-- The stores differ in what is worked on alone. -/
structure TxnStore.SameCommitted (st st' : TxnStore) : Prop where
  committed : st'.committed = st.committed
  drops : st'.drops = st.drops
  mended : st'.mended = st.mended

namespace TxnStore.SameCommitted

variable {st st' st'' : TxnStore}

theorem refl (st : TxnStore) : st.SameCommitted st :=
  ⟨rfl, rfl, rfl⟩

theorem trans (first : st.SameCommitted st') (second : st'.SameCommitted st'') :
    st.SameCommitted st'' :=
  ⟨second.committed.trans first.committed, second.drops.trans first.drops,
    second.mended.trans first.mended⟩

theorem call (st : TxnStore) (c : PoolCall) : st.SameCommitted (st.call c) := by
  cases c <;> exact ⟨rfl, rfl, rfl⟩

end TxnStore.SameCommitted

namespace Working

variable {frames : Nat} {own : PageId → Page → Prop} {e e' : Engine} {st : TxnStore} {s : PoolView}

theorem working_eq (working : Working frames own e st s) : st.working = s.pages := by
  obtain ⟨top, earlier, current, holds⟩ := working.reached.durable
  rw [← holds.working, working.shows.content]

/-! ## Calls -/

/-- A call is as runs have it, or the contract says nothing of it. -/
theorem orderly (working : Working frames own e st s) {c : PoolCall} (covered : Covered c) :
    e.Orderly c ∨ ∀ r s', PoolView.strict frames own c s r s' := by
  have shows := working.shows
  have pinned : ∀ pid ∈ s.pins, 0 < e.pinCount pid := by
    intro pid mem
    rw [← shows.pins]
    exact List.count_pos_iff.mpr mem
  have logged : ∀ pid, pid ∉ s.unlogged → e.baseline pid = e.content pid := by
    intro pid fine
    by_contra differs
    exact fine (shows.unlogged pid differs)
  cases c with
  | createTableFile fid =>
      by_cases new : s.top fid = 0
      · exact .inl (Nat.le_zero.mp (new ▸ shows.backed.sizes fid))
      · exact .inr fun r s' => .inl (.recreateTableFile fid s s' r new)
  | tableFileExists fid => exact covered.elim
  | pageCount fid => exact .inl trivial
  | allocate pid =>
      by_cases zero : s.pages pid = Block.zero
      · left
        intro absent
        rw [← content_of_absent absent, shows.content]
        exact zero
      · exact .inr fun r s' => .inr zero
  | read pid magic => exact .inl covered
  | peek pid => exact .inl trivial
  | poke pid p =>
      by_cases mem : pid ∈ s.pins
      · exact .inl ⟨shows.active, pinned pid mem⟩
      · exact .inr fun r s' => .inl (.pokeStray pid p s s' r mem)
  | markDirty pid =>
      by_cases owned : own pid (s.pages pid)
      · refine .inl ⟨(working.own pid _ owned).1, fun txn active => ?_⟩
        rw [working.reached.pending active]
        exact (working.own pid _ owned).2
      · exact .inr fun r s' => .inr owned
  | unpin pid =>
      by_cases mem : pid ∈ s.pins
      · by_cases unlogged : pid ∈ s.unlogged
        · exact .inr fun r s' => .inl (.unpinStray pid s s' r (.inr unlogged))
        · exact .inl ⟨pinned pid mem, fun _ => logged pid unlogged⟩
      · exact .inr fun r s' => .inl (.unpinStray pid s s' r (.inl mem))
  | flush pid =>
      by_cases unlogged : pid ∈ s.unlogged
      · exact .inr fun r s' => .inl (.flushUnlogged pid s s' r unlogged)
      · exact .inl (logged pid unlogged)
  | tree fid => exact .inl trivial
  | setTree fid t => exact .inl trivial

theorem call (working : Working frames own e st s) {c : PoolCall} (covered : Covered c)
    {r : Except Err c.Result} (called : Engine.sem c e r e') :
    (∃ s', PoolView.strict frames own c s r s' ∧ Working frames own e' (st.call c) s') ∨
      ∀ r s', PoolView.strict frames own c s r s' := by
  rcases working.orderly covered with orderly | wild
  · have called : (Engine.call c).exit e = (r, e') := called
    have keeps := BufferPool.call_keeps working.shows covered
    unfold BufferPool.Keeps Ends at keeps
    rw [called] at keeps
    have agrees : Conforms frames c s r e' := by
      cases r with
      | ok a => exact keeps
      | error err => exact keeps
    rcases agrees with ⟨s', step, shows⟩ | wild
    · refine .inl ⟨s', .inl step, shows, ?_, ?_⟩
      · have reached := working.reached.call orderly
        rwa [called] at reached
      · rw [(TxnStore.SameCommitted.call st c).drops]
        exact working.own
    · exact .inr fun r s' => .inl (wild r s')
  · exact .inr wild

/-! ## Programs -/

/-- A program that handles no error and returns by the stricter contract returns on the
engine, in a state of a run, with what the contract allows. -/
theorem program {α : Type} {p : PoolM α} {post : α → PoolView → Prop}
    (working : Working frames own e st s) (plain : Prog.Plain Covered p)
    (returns : Prog.Returns (PoolView.strict frames own) p s post) :
    ∃ a e' st' s', (PoolM.run p).exit e = (.ok a, e') ∧ Working frames own e' st' s' ∧
      st.SameCommitted st' ∧ post a s' := by
  have step : ∀ c (e : Engine) (s : PoolView) r e', Covered c →
      (∃ st', Working frames own e st' s ∧ st.SameCommitted st') → Engine.sem c e r e' →
      (∃ s', PoolView.strict frames own c s r s' ∧
        ∃ st', Working frames own e' st' s' ∧ st.SameCommitted st') ∨
      ∀ r s', PoolView.strict frames own c s r s' := by
    rintro c e s r e' covered ⟨st', working, same⟩ called
    rcases working.call covered called with ⟨s', step, working'⟩ | wild
    · exact .inl ⟨s', step, _, working', same.trans (.call st' c)⟩
    · exact .inr wild
  have : Nonempty Err := ⟨.crash ""⟩
  have run := plain.returns step ⟨st, working, .refl st⟩ returns
  rcases exited : (PoolM.run p).exit e with ⟨r, e'⟩
  obtain ⟨a, rfl, s', ⟨st', working', same⟩, holds⟩ := run r e' (PoolM.runs_iff.mpr exited)
  exact ⟨a, e', st', s', rfl, working', same, holds⟩

/-! ## Ends of transactions -/

theorem allLogged (working : Working frames own e st s) (logged : s.unlogged = []) :
    BufferPool.AllLogged e := by
  intro pid
  by_contra differs
  have mem := working.shows.unlogged pid differs
  rw [logged] at mem
  cases mem

/-- A commit of a transaction that dropped nothing makes what was worked on the committed
contents. -/
theorem commit (working : Working frames own e st s) (logged : s.unlogged = [])
    (none_dropped : st.drops = []) :
    ∃ e', commitTxn.exit e = (.ok (), e') ∧ Reached e' st.commit ∧ e'.content = s.pages := by
  have active := working.shows.active
  have gone : e.DropsGone := by
    intro txn txn_eq fid mem
    rw [working.reached.pending txn_eq, none_dropped] at mem
    cases mem
  have ended : st.ended = s.pages := by
    unfold TxnStore.ended
    rw [none_dropped, ← working.working_eq]
    simp
  obtain ⟨_, e', exited, durable⟩ :=
    (working.reached.durable.commit active (working.allLogged logged) gone).exits
  have reached := working.reached.commit active (working.allLogged logged) gone
  rw [exited] at reached
  obtain ⟨top, earlier, current, holds⟩ := durable
  exact ⟨e', exited, reached, holds.working.trans ended⟩

end Working

/-! ## The beginning of a transaction -/

/-- No page of the file is on disk or in the pool. -/
def Engine.NoFile (e : Engine) (fid : Nat) : Prop :=
  e.files.pageCount fid = 0 ∧ ∀ no, e.find ⟨fid, no⟩ = none

theorem Engine.Backed.noFile {e : Engine} {top : Nat → Nat} {fid : Nat} (backed : e.Backed top)
    (new : e.NoFile fid) : e.Backed (Function.update top fid 0) := by
  refine ⟨backed.tidy, backed.clean, backed.opens, backed.sound, fun other => ?_, fun i valid => ?_⟩
  · by_cases same : other = fid
    · rw [same, Function.update_self, new.1]
    · rw [Function.update_of_ne same]
      exact backed.sizes other
  · have apart : (e.frame i).page.fileId ≠ fid := by
      rintro rfl
      have found := (backed.tidy.indexed.find_iff _ i).mpr ⟨range_of_valid valid, valid, rfl⟩
      rw [new.2 (e.frame i).page.pageNo] at found
      cases found
    rw [Function.update_of_ne apart]
    exact backed.cached i valid

theorem Engine.beginTxn_exit {e : Engine} (idle : e.txn = none) :
    beginTxn.exit e = (.ok (), { e with
      wal := { e.wal with nextTxnId := e.wal.nextTxnId + 1 }
      txn := some { txnId := e.wal.nextTxnId } }) := by
  have ends : Ends beginTxn e (fun _ e' => e' = { e with
      wal := { e.wal with nextTxnId := e.wal.nextTxnId + 1 }
      txn := some { txnId := e.wal.nextTxnId } }) fun _ _ => False := by
    simp only [beginTxn, ends_bind, ends_get, idle]
    rfl
  obtain ⟨_, e', exited, rfl⟩ := ends.exits
  exact exited

/-- Between transactions, with no page pinned, a transaction can begin. -/
theorem Reached.begin_working {e : Engine} {st : TxnStore} {top : Nat → Nat} {own : PageId → Page → Prop}
    (reached : Reached e st) (idle : e.txn = none) (few : e.wal.nextTxnId < 2 ^ 64)
    (unpinned : ∀ pid, e.pinCount pid = 0) (backed : e.Backed top)
    (owned : ∀ pid p, own pid p → pid.Numbered) :
    ∃ e', beginTxn.exit e = (.ok (), e') ∧
      Working e.frames.length own e' st (e.view top) ∧ st.drops = [] ∧ e'.files = e.files ∧
      e'.trees = e.trees := by
  obtain ⟨top', earlier, current, holds⟩ := reached.durable
  have recorded := holds.recorded
  have none_dropped : st.drops = [] := by
    rw [recorded.dropped, recorded.idle idle]
    rfl
  have logged := holds.settled idle
  have begun := reached.begin idle few
  have exited := beginTxn_exit idle
  rw [exited] at begun
  refine ⟨_, exited, ⟨⟨backed.congr rfl rfl rfl, rfl, rfl, fun pid => (unpinned pid).symm,
    fun pid differs => absurd (logged pid) differs, rfl, fun _ => rfl⟩, begun, fun pid p own => ?_⟩,
    none_dropped, rfl, rfl⟩
  rw [none_dropped]
  exact ⟨owned pid p own, List.not_mem_nil⟩

end MySimpleDb.Storage
