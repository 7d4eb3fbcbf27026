import MySimpleDb.Catalog.Txn
import MySimpleDb.Executor.OperatorFrame
import MySimpleDb.Executor.UpdateRows

/-!
# Result sets of several sessions

A SELECT outside an explicit transaction opens its operator in a transaction of
its own, commits, and then pulls row after row while other sessions may run
theirs.  A step is one call of one session; only one of them has a transaction
at a time.
-/

namespace MySimpleDb.Server.Snapshot

open MySimpleDb.Lib MySimpleDb.Storage MySimpleDb.Analyzer MySimpleDb.Txn MySimpleDb.Catalog
open MySimpleDb.Planner
open MySimpleDb.Executor (pairTable pairHeap pairHeap_wellFormed pairRecord pairRow)
open MySimpleDb.Planner.PlanNode (HeapsWellFormed Untouched Select projectRow heap_eq rowsOf)

/-! ## Changes -/

/-- One change of rows. -/
inductive Change
  | insert (table : TableMeta) (values : List Value)
  | delete (ref : RowRef)
  | update (table : TableMeta) (r : RowUpdate)
  | deleteAll (table : TableMeta)

def Change.apply (disk : DiskPages) (db : Db) : Change → Res Db
  | .insert table values => do return (← db.insert disk table values).1
  | .delete ref => do return (← db.deleteByRef disk ref).1
  | .update table r => db.updateRow disk table (db.tableIndexes table.tableId) r
  | .deleteAll table => do return (← db.deleteAll disk table).1

/-! ## Sessions -/

/-- An opened result set and the rows sent, and what the database was when it was
opened. -/
structure ResultSet where
  plan : PlanNode
  state : plan.State
  sent : List Row
  origin : Db
  disk : DiskPages

/-- Where a session is: in a transaction that changes rows, in that of a SELECT
before and after its operator is opened, or pulling rows without one. -/
inductive Phase
  | idle
  | working
  | selecting
  | opened (rs : ResultSet)
  | streaming (rs : ResultSet)
  | done (rs : ResultSet)

/-- The sessions over one engine, and its contents at every commit so far. -/
structure World where
  engine : Engine Db
  sessions : Nat → Phase
  history : List Db

namespace World

def contents (w : World) : Db :=
  w.engine.contents

/-- Session `i` goes on to a phase, with the engine as its call left it. -/
def turn (w : World) (i : Nat) (engine : Engine Db) (phase : Phase) : World :=
  { w with engine := engine, sessions := Function.update w.sessions i phase }

/-- The contents are committed. -/
def record (w : World) : World :=
  { w with history := w.contents :: w.history }

@[simp]
theorem record_sessions (w : World) : w.record.sessions = w.sessions :=
  rfl

end World

/-- A call of the engine that returns. -/
def Calls (call : Attempt (Engine Db) Exn Unit) (e e' : Engine Db) : Prop :=
  call.Ends e (fun _ left => left = e') fun _ _ => False

/-- One call of session `i`. -/
inductive Step (w : World) (i : Nat) : World → Prop
  | begin {fates : Fates Db} {e : Engine Db} {phase : Phase} (idle : w.sessions i = .idle)
      (kind : phase = .working ∨ phase = .selecting)
      (call : Calls (Engine.beginTxn fates) w.engine e) : Step w i (w.turn i e phase)
  | change {disk : DiskPages} {c : Change} {db : Db} (own : w.sessions i = .working)
      (applied : c.apply disk w.contents = .ok db) :
      Step w i (w.turn i { w.engine with contents := db } .working)
  | commit {fates : Fates Db} {e : Engine Db} (own : w.sessions i = .working)
      (call : Calls (Engine.commitTxn fates) w.engine e) : Step w i (w.turn i e .idle).record
  | rollback {fates : Fates Db} {e : Engine Db}
      (own : w.sessions i = .working ∨ w.sessions i = .selecting)
      (call : Calls (Engine.rollbackTxn fates) w.engine e) : Step w i (w.turn i e .idle)
  | opens {disk : DiskPages} {plan : PlanNode} {s : plan.State} (own : w.sessions i = .selecting)
      (select : Select plan) (done : plan.opened disk w.contents = .ok s) :
      Step w i (w.turn i w.engine (.opened ⟨plan, s, [], w.contents, disk⟩))
  | release {fates : Fates Db} {e : Engine Db} {rs : ResultSet} (own : w.sessions i = .opened rs)
      (call : Calls (Engine.commitTxn fates) w.engine e) :
      Step w i (w.turn i e (.streaming rs)).record
  | next {disk : DiskPages} {rs : ResultSet} {row : Row} {s : rs.plan.State}
      (own : w.sessions i = .streaming rs)
      (given : rs.plan.next disk w.contents rs.state = .ok (some row, s)) :
      Step w i (w.turn i w.engine (.streaming { rs with state := s, sent := rs.sent ++ [row] }))
  | last {disk : DiskPages} {rs : ResultSet} {s : rs.plan.State}
      (own : w.sessions i = .streaming rs)
      (ended : rs.plan.next disk w.contents rs.state = .ok (none, s)) :
      Step w i (w.turn i w.engine (.done { rs with state := s }))
  -- the next request, a client that is gone, or an error of an operator
  | leave {rs : ResultSet} (own : w.sessions i = .streaming rs ∨ w.sessions i = .done rs) :
      Step w i (w.turn i w.engine .idle)

/-- No transaction, no session at work, and well-formed table files. -/
structure Fresh (w : World) : Prop where
  txn : w.engine.txn = none
  idle : ∀ i, w.sessions i = .idle
  history : w.history = [w.contents]
  wellFormed : HeapsWellFormed w.contents

/-! ## What holds in every world -/

section Calls

variable {e e' : Engine Db} {fates : Fates Db}

theorem calls_begin (call : Calls (Engine.beginTxn fates) e e') :
    e.txn = none ∧ e' = ⟨e.contents, some ⟨e.contents, false⟩⟩ := by
  rcases e with ⟨contents, _ | t⟩
  · cases began : fates.begin with
    | none => exact ⟨rfl, Eq.symm (by simpa [Calls, Engine.beginTxn, began] using call)⟩
    | some x => simp [Calls, Engine.beginTxn, began] at call
  · simp [Calls, Engine.beginTxn] at call

theorem calls_commit (call : Calls (Engine.commitTxn fates) e e') :
    e.txn.isSome ∧ e' = ⟨e.contents, none⟩ := by
  rcases e with ⟨contents, _ | t⟩
  · simp [Calls, Engine.commitTxn] at call
  · cases drops : t.pendingDrops with
    | false => exact ⟨rfl, Eq.symm (by simpa [Calls, Engine.commitTxn, drops] using call)⟩
    | true =>
        cases removed : fates.unlink with
        | none =>
            exact ⟨rfl, Eq.symm (by simpa [Calls, Engine.commitTxn, drops, removed] using call)⟩
        | some x => simp [Calls, Engine.commitTxn, drops, removed] at call

theorem calls_rollback (call : Calls (Engine.rollbackTxn fates) e e') :
    ∃ t, e.txn = some t ∧ e' = ⟨t.undo, none⟩ := by
  rcases e with ⟨contents, _ | t⟩
  · simp [Calls, Engine.rollbackTxn] at call
  · cases restored : fates.restore with
    | none => exact ⟨t, rfl, Eq.symm (by simpa [Calls, Engine.rollbackTxn, restored] using call)⟩
    | some left => simp [Calls, Engine.rollbackTxn, restored] at call

end Calls

section Changes

variable {disk : DiskPages} {db db' : Db}

theorem heaps_of_heap {fid : Nat} {h : HeapFile} (found : db.heap fid = .ok h) :
    db.heaps fid = some h := by
  unfold Db.heap at found
  split at found
  · simp [dbCritical] at found
  · cases found
    assumption

theorem setHeap_wellFormed {fid : Nat} {h : HeapFile} (wellFormed : HeapsWellFormed db)
    (file : h.WellFormed) : HeapsWellFormed (db.setHeap fid h) := by
  intro fid' h' found
  have updated : Function.update db.heaps fid (some h) fid' = some h' := found
  by_cases same : fid' = fid
  · subst same
    rw [Function.update_self] at updated
    cases updated
    exact file
  · rw [Function.update_of_ne same] at updated
    exact wellFormed fid' h' updated

theorem addRow_wellFormed {table : TableMeta} {values : List Value} {ents : List IndexEntry}
    {result : Nat × RowRef} (wellFormed : HeapsWellFormed db)
    (added : db.addRow disk table values ents = .ok (db', result)) : HeapsWellFormed db' := by
  obtain ⟨h, found, added⟩ := Res.bind_eq_ok.mp added
  obtain ⟨⟨h', rid, ref⟩, inserted, added⟩ := Res.bind_eq_ok.mp added
  obtain ⟨db₁, indexed, added⟩ := Res.bind_eq_ok.mp added
  cases added
  obtain ⟨rec, -, -, -, appended⟩ :=
    HeapFile.insertRow_spec (wellFormed _ _ (heaps_of_heap found)) inserted
  intro fid h'' heap
  rw [Executor.indexInsert_heaps indexed] at heap
  exact setHeap_wellFormed wellFormed appended.wellFormed fid h'' heap

theorem deleteRow_wellFormed {ref : RowRef} {n : Nat} (wellFormed : HeapsWellFormed db)
    (deleted : db.deleteRow disk ref = .ok (db', n)) : HeapsWellFormed db' := by
  obtain ⟨h, found, deleted⟩ := Res.bind_eq_ok.mp deleted
  obtain ⟨⟨h', n'⟩, done, deleted⟩ := Res.bind_eq_ok.mp deleted
  cases deleted
  apply setHeap_wellFormed wellFormed
  have file := wellFormed _ _ (heaps_of_heap found)
  rcases HeapFile.deleteRow_spec file done with ⟨-, -, kept⟩ | ⟨-, rfl, -⟩
  · exact kept.wellFormed
  · exact file

theorem deleteAllRows_wellFormed {fid pageCount n : Nat} {h h' : HeapFile} (file : h.WellFormed)
    (deleted : h.deleteAllRows fid pageCount = .ok (h', n)) : h'.WellFormed := by
  suffices loop : ∀ (refs : List RowRef) (h h' : HeapFile), h.WellFormed →
      refs.foldlM (fun h ref => do return (← h.deleteRow pageCount ref).1) h = .ok h' →
        h'.WellFormed by
    obtain ⟨h'', folded, deleted⟩ := Res.bind_eq_ok.mp deleted
    cases deleted
    exact loop _ h h' file folded
  intro refs
  induction refs with
  | nil =>
      intro h h' file folded
      cases folded
      exact file
  | cons ref refs inductionHypothesis =>
      intro h h' file folded
      rw [List.foldlM_cons] at folded
      obtain ⟨h₁, first, folded⟩ := Res.bind_eq_ok.mp folded
      obtain ⟨⟨h₂, n'⟩, done, first⟩ := Res.bind_eq_ok.mp first
      cases first
      apply inductionHypothesis h₂ h' _ folded
      rcases HeapFile.deleteRow_spec file done with ⟨-, -, kept⟩ | ⟨-, rfl, -⟩
      · exact kept.wellFormed
      · exact file

/-- Changes keep the table files well-formed. -/
theorem apply_wellFormed {c : Change} (wellFormed : HeapsWellFormed db)
    (applied : c.apply disk db = .ok db') : HeapsWellFormed db' := by
  cases c with
  | insert table values =>
      obtain ⟨⟨db₁, rid⟩, inserted, applied⟩ := Res.bind_eq_ok.mp applied
      cases applied
      obtain ⟨⟨db₂, result⟩, added, inserted⟩ := Res.bind_eq_ok.mp inserted
      cases inserted
      exact addRow_wellFormed wellFormed added
  | delete ref =>
      obtain ⟨⟨db₁, n⟩, deleted, applied⟩ := Res.bind_eq_ok.mp applied
      cases applied
      unfold Db.deleteByRef at deleted
      split at deleted
      · simp at deleted
      · split at deleted
        · simp at deleted
        · exact deleteRow_wellFormed wellFormed deleted
  | update table r =>
      have updated : db.updateRow disk table (db.tableIndexes table.tableId) r = .ok db' := applied
      unfold Db.updateRow at updated
      split at updated
      · simp at updated
      · obtain ⟨⟨db₁, n⟩, deleted, updated⟩ := Res.bind_eq_ok.mp updated
        dsimp only at updated
        split at updated
        · simp at updated
        · obtain ⟨⟨db₂, result⟩, added, updated⟩ := Res.bind_eq_ok.mp updated
          cases updated
          exact addRow_wellFormed (deleteRow_wellFormed wellFormed deleted) added
  | deleteAll table =>
      obtain ⟨⟨db₁, n⟩, deleted, applied⟩ := Res.bind_eq_ok.mp applied
      cases applied
      obtain ⟨h, found, deleted⟩ := Res.bind_eq_ok.mp deleted
      obtain ⟨⟨h', n'⟩, done, deleted⟩ := Res.bind_eq_ok.mp deleted
      cases deleted
      exact setHeap_wellFormed wellFormed
        (deleteAllRows_wellFormed (wellFormed _ _ (heaps_of_heap found)) done)

end Changes

/-! ## One transaction at a time -/

/-- The session has the transaction. -/
def Phase.Holds : Phase → Prop
  | .working => True
  | .selecting => True
  | .opened _ => True
  | _ => False

/-- The session has the transaction and has changed nothing. -/
def Phase.Reads : Phase → Prop
  | .selecting => True
  | .opened _ => True
  | _ => False

/-- Only one session has a transaction; what was committed last is what rollback
restores, and what a transaction that only reads still sees. -/
structure Consistent (w : World) : Prop where
  wellFormed : HeapsWellFormed w.contents
  undo : HeapsWellFormed w.engine.committed
  committed : w.engine.committed ∈ w.history
  active : ∀ i, (w.sessions i).Holds → w.engine.txn.isSome
  alone : ∀ i j, (w.sessions i).Holds → (w.sessions j).Holds → i = j
  reads : ∀ i, (w.sessions i).Reads → w.engine.committed = w.contents

theorem Phase.Reads.holds {phase : Phase} (reads : phase.Reads) : phase.Holds := by
  cases phase <;> first | exact reads | trivial

section Turns

variable {w : World} {i j : Nat} {e : Engine Db} {phase : Phase} {history : List Db}

theorem turn_self : (w.turn i e phase).sessions i = phase :=
  Function.update_self ..

theorem turn_other (apart : j ≠ i) : (w.turn i e phase).sessions j = w.sessions j :=
  Function.update_of_ne apart ..

/-- A turn of the session that has the transaction, or of one without it. -/
theorem Consistent.turn (consistent : Consistent w) (wellFormed : HeapsWellFormed e.contents)
    (undo : HeapsWellFormed e.committed) (committed : e.committed ∈ history)
    (active : phase.Holds → e.txn.isSome)
    (others : ∀ j, j ≠ i → (w.sessions j).Holds → ¬phase.Holds ∧ e = w.engine)
    (reads : phase.Reads → e.committed = e.contents) :
    Consistent { w.turn i e phase with history := history } := by
  constructor
  · exact wellFormed
  · exact undo
  · exact committed
  · intro j holds
    by_cases same : j = i
    · subst same
      rw [turn_self] at holds
      exact active holds
    · rw [turn_other same] at holds
      obtain ⟨-, engine⟩ := others j same holds
      rw [World.turn, engine]
      exact consistent.active j holds
  · intro j k j_holds k_holds
    by_cases j_self : j = i
    · by_cases k_self : k = i
      · rw [j_self, k_self]
      · subst j_self
        rw [turn_self] at j_holds
        rw [turn_other k_self] at k_holds
        exact absurd j_holds (others k k_self k_holds).1
    · rw [turn_other j_self] at j_holds
      by_cases k_self : k = i
      · subst k_self
        rw [turn_self] at k_holds
        exact absurd k_holds (others j j_self j_holds).1
      · rw [turn_other k_self] at k_holds
        exact consistent.alone j k j_holds k_holds
  · intro j j_reads
    by_cases same : j = i
    · subst same
      rw [turn_self] at j_reads
      exact reads j_reads
    · rw [turn_other same] at j_reads
      obtain ⟨-, engine⟩ := others j same j_reads.holds
      rw [World.turn, engine]
      exact consistent.reads j j_reads

/-- While one session has the transaction no other has it. -/
theorem Consistent.apart (consistent : Consistent w) (own : (w.sessions i).Holds) (apart : j ≠ i) :
    ¬(w.sessions j).Holds :=
  fun other => apart (consistent.alone j i other own)

theorem Consistent.step {w' : World} (consistent : Consistent w) (step : Step w i w') :
    Consistent w' := by
  cases step with
  | begin idle kind call =>
      obtain ⟨free, rfl⟩ := calls_begin call
      have contents : w.engine.committed = w.engine.contents := by simp [Engine.committed, free]
      apply consistent.turn
      · exact consistent.wellFormed
      · exact consistent.wellFormed
      · exact contents ▸ consistent.committed
      · exact fun _ => rfl
      · intro j _ other
        simpa [free] using consistent.active j other
      · exact fun _ => rfl
  | change own applied =>
      have held : (w.sessions i).Holds := by
        rw [own]
        trivial
      obtain ⟨t, txn⟩ := Option.isSome_iff_exists.mp (consistent.active i held)
      have committed : ∀ db, Engine.committed { w.engine with contents := db } =
          w.engine.committed := fun db => by simp [Engine.committed, txn]
      apply consistent.turn
      · exact apply_wellFormed consistent.wellFormed applied
      · exact committed _ ▸ consistent.undo
      · exact committed _ ▸ consistent.committed
      · exact fun _ => consistent.active i held
      · exact fun j apart other => absurd other (consistent.apart held apart)
      · exact False.elim
  | commit own call =>
      have held : (w.sessions i).Holds := by
        rw [own]
        trivial
      obtain ⟨-, rfl⟩ := calls_commit call
      apply consistent.turn
      · exact consistent.wellFormed
      · exact consistent.wellFormed
      · exact List.mem_cons_self
      · exact False.elim
      · exact fun j apart other => absurd other (consistent.apart held apart)
      · exact False.elim
  | rollback own call =>
      have held : (w.sessions i).Holds := by
        rcases own with own | own <;>
        · rw [own]
          trivial
      obtain ⟨t, txn, rfl⟩ := calls_rollback call
      have undo : w.engine.committed = t.undo := by simp [Engine.committed, txn]
      apply consistent.turn
      · exact undo ▸ consistent.undo
      · exact undo ▸ consistent.undo
      · exact undo ▸ consistent.committed
      · exact False.elim
      · exact fun j apart other => absurd other (consistent.apart held apart)
      · exact False.elim
  | opens own select done =>
      have reading : (w.sessions i).Reads := by
        rw [own]
        trivial
      apply consistent.turn
      · exact consistent.wellFormed
      · exact consistent.undo
      · exact consistent.committed
      · exact fun _ => consistent.active i reading.holds
      · exact fun j apart other => absurd other (consistent.apart reading.holds apart)
      · exact fun _ => consistent.reads i reading
  | release own call =>
      have held : (w.sessions i).Holds := by
        rw [own]
        trivial
      obtain ⟨-, rfl⟩ := calls_commit call
      apply consistent.turn
      · exact consistent.wellFormed
      · exact consistent.wellFormed
      · exact List.mem_cons_self
      · exact False.elim
      · exact fun j apart other => absurd other (consistent.apart held apart)
      · exact False.elim
  | next own given =>
      exact consistent.turn consistent.wellFormed consistent.undo consistent.committed False.elim
        (fun _ _ _ => ⟨False.elim, rfl⟩) False.elim
  | last own ended =>
      exact consistent.turn consistent.wellFormed consistent.undo consistent.committed False.elim
        (fun _ _ _ => ⟨False.elim, rfl⟩) False.elim
  | leave own =>
      exact consistent.turn consistent.wellFormed consistent.undo consistent.committed False.elim
        (fun _ _ _ => ⟨False.elim, rfl⟩) False.elim

theorem Fresh.consistent (fresh : Fresh w) : Consistent w := by
  have committed : w.engine.committed = w.contents := by
    simp [Engine.committed, fresh.txn, World.contents]
  have nobody : ∀ i, ¬(w.sessions i).Holds := by
    intro i holds
    rw [fresh.idle i] at holds
    exact holds
  constructor
  · exact fresh.wellFormed
  · exact committed ▸ fresh.wellFormed
  · rw [committed, fresh.history]
    exact List.mem_singleton_self _
  · exact fun i holds => absurd holds (nobody i)
  · exact fun i _ holds => absurd holds (nobody i)
  · exact fun i reads => absurd reads.holds (nobody i)

/-- What was committed stays so. -/
theorem Step.keeps {w' : World} (step : Step w i w') {db : Db} (mem : db ∈ w.history) :
    db ∈ w'.history := by
  cases step <;> first | exact mem | exact List.mem_cons_of_mem _ mem

theorem Step.other {w' : World} (step : Step w j w') (apart : i ≠ j) :
    w'.sessions i = w.sessions i := by
  cases step <;> simp only [World.record_sessions, turn_other apart]

/-- A session without the transaction changes nothing when another has it. -/
theorem Step.contents {w' : World} (consistent : Consistent w) (step : Step w j w')
    (held : (w.sessions i).Holds) (apart : j ≠ i) : w'.contents = w.contents := by
  have free := consistent.apart held apart
  cases step with
  | begin idle kind call =>
      obtain ⟨-, rfl⟩ := calls_begin call
      rfl
  | change own applied =>
      rw [own] at free
      exact absurd trivial free
  | commit own call =>
      obtain ⟨-, rfl⟩ := calls_commit call
      rfl
  | rollback own call =>
      rcases own with own | own <;>
      · rw [own] at free
        exact absurd trivial free
  | opens own select done => rfl
  | release own call =>
      obtain ⟨-, rfl⟩ := calls_commit call
      rfl
  | next own given => rfl
  | last own ended => rfl
  | leave own => rfl

end Turns

/-! ## What a result set reads -/

/-- The rows are the result of the plan on the database. -/
def Result (disk : DiskPages) (db : Db) (plan : PlanNode) (rows : List Row) : Prop :=
  ∃ s, plan.opened disk db = .ok s ∧ Pull.Yields (plan.next disk db) s rows

/-- A step that leaves alone what session `i` still reads while it streams. -/
def QuietStep (i : Nat) (w w' : World) : Prop :=
  ∃ j, Step w j w' ∧
    ∀ rs, j ≠ i → w.sessions i = .streaming rs → rs.plan.Untouched w.contents w'.contents

/-- What the operator gives from here on, behind the rows sent, is the result of
its plan on the state it was opened on. -/
structure Streams (w : World) (rs : ResultSet) : Prop where
  committed : rs.origin ∈ w.history
  select : Select rs.plan
  same : rs.plan.Untouched w.contents rs.origin
  rest : ∀ rows, Pull.Yields (rs.plan.next rs.disk rs.origin) rs.state rows →
    Result rs.disk rs.origin rs.plan (rs.sent ++ rows)

/-- The same for a session in any phase. -/
def Phase.Follows (w : World) : Phase → Prop
  | .opened rs => Streams w rs
  | .streaming rs => Streams w rs
  | .done rs => rs.origin ∈ w.history ∧ Result rs.disk rs.origin rs.plan rs.sent
  | _ => True

section Streams

variable {w w' : World} {i j : Nat} {rs : ResultSet}

theorem Streams.moved (streams : Streams w rs)
    (history : ∀ db, db ∈ w.history → db ∈ w'.history)
    (same : rs.plan.Untouched w.contents w'.contents) : Streams w' rs where
  committed := history _ streams.committed
  select := streams.select
  same := same.symm.trans streams.same
  rest := streams.rest

/-- A row of the database as it is now is a row of the state at the opening. -/
theorem Streams.origin_next (consistent : Consistent w) (streams : Streams w rs)
    {disk : DiskPages} {result : Option Row × rs.plan.State}
    (given : rs.plan.next disk w.contents rs.state = .ok result) :
    rs.plan.next rs.disk rs.origin rs.state = .ok result :=
  streams.select.next_frame consistent.wellFormed streams.same given

/-- A step of the session itself. -/
theorem Step.follows (consistent : Consistent w) (step : Step w i w')
    (follows : (w.sessions i).Follows w) : (w'.sessions i).Follows w' := by
  cases step with
  | begin idle kind call =>
      rw [turn_self]
      rcases kind with rfl | rfl <;> trivial
  | change own applied =>
      rw [turn_self]
      trivial
  | commit own call =>
      rw [World.record_sessions, turn_self]
      trivial
  | rollback own call =>
      rw [turn_self]
      trivial
  | @opens disk plan s own select done =>
      have reading : (w.sessions i).Reads := by
        rw [own]
        trivial
      rw [turn_self]
      constructor
      · exact consistent.reads i reading ▸ consistent.committed
      · exact select
      · exact Untouched.refl _ _
      · intro rows yields
        exact ⟨s, done, yields⟩
  | release own call =>
      rw [own] at follows
      obtain ⟨-, rfl⟩ := calls_commit call
      rw [World.record_sessions, turn_self]
      exact Streams.moved follows (fun _ mem => List.mem_cons_of_mem _ mem) (Untouched.refl _ _)
  | next own given =>
      rw [own] at follows
      have streams : Streams w _ := follows
      have first := streams.origin_next consistent given
      rw [turn_self]
      constructor
      · exact streams.committed
      · exact streams.select
      · exact streams.same
      · intro rows yields
        rw [List.append_assoc]
        exact streams.rest _ (.row first yields)
  | last own ended =>
      rw [own] at follows
      have streams : Streams w _ := follows
      have final := streams.rest [] (.done (streams.origin_next consistent ended))
      rw [turn_self]
      rw [List.append_nil] at final
      exact ⟨streams.committed, final⟩
  | leave own =>
      rw [turn_self]
      trivial

theorem QuietStep.follows (consistent : Consistent w) (quiet : QuietStep i w w')
    (follows : (w.sessions i).Follows w) : (w'.sessions i).Follows w' := by
  obtain ⟨j, step, untouched⟩ := quiet
  by_cases own : j = i
  · subst own
    exact step.follows consistent follows
  · rw [step.other (Ne.symm own)]
    cases phase : w.sessions i with
    | opened rs =>
        have held : (w.sessions i).Holds := by
          rw [phase]
          trivial
        rw [phase] at follows
        have contents := step.contents consistent held own
        exact Streams.moved follows (fun _ => step.keeps) (contents ▸ Untouched.refl _ _)
    | streaming rs =>
        rw [phase] at follows
        exact Streams.moved follows (fun _ => step.keeps) (untouched rs own phase)
    | done rs =>
        rw [phase] at follows
        exact ⟨step.keeps follows.1, follows.2⟩
    | idle => trivial
    | working => trivial
    | selecting => trivial

end Streams

/-- Unless another session's step touches a file that the operator of a SELECT
still reads, the rows streamed are its plan's result on one committed state. -/
theorem stream_reads_committed {w₀ w : World} {i : Nat} {rs : ResultSet} (fresh : Fresh w₀)
    (run : Relation.ReflTransGen (QuietStep i) w₀ w) (done : w.sessions i = .done rs) :
    rs.origin ∈ w.history ∧ Result rs.disk rs.origin rs.plan rs.sent := by
  suffices holds : Consistent w ∧ (w.sessions i).Follows w by
    rw [done] at holds
    exact holds.2
  clear done
  induction run with
  | refl =>
      refine ⟨fresh.consistent, ?_⟩
      rw [fresh.idle i]
      trivial
  | tail _ quiet inductionHypothesis =>
      obtain ⟨consistent, follows⟩ := inductionHypothesis
      have step := quiet
      obtain ⟨j, step, -⟩ := step
      exact ⟨consistent.step step, quiet.follows consistent follows⟩

/-! ### `SELECT c FROM t` over two rows, with a second session -/

def plainDb : Db where
  heaps := fun fid => if fid = 100 then some pairHeap else none
  indexes := fun _ => none
  indexRows := []

def plainWorld : World where
  engine := ⟨plainDb, none⟩
  sessions := fun _ => .idle
  history := [plainDb]

def onlyColumn : List ProjCol :=
  [{ expr := some (.colRef 0 kInt), name := "c" }]

def selectAll : PlanNode :=
  .project (.seqScan pairTable) onlyColumn

/-- The result set with its scan at a slot of page 1, the rows before it sent. -/
def selecting (slot : Nat) (sent : List Row) : ResultSet where
  plan := selectAll
  state := ({ nextPageNo := 0, cur := some 1, slot := slot } : HeapFile.Scanner)
  sent := sent
  origin := plainDb
  disk := fun _ => 2

def fates : Fates Db := {}

theorem plainWorld_fresh : Fresh plainWorld where
  txn := rfl
  idle := fun _ => rfl
  history := rfl
  wellFormed := by
    intro fid h found
    have heap : (if fid = 100 then some pairHeap else none) = some h := found
    split at heap
    · cases heap
      exact pairHeap_wellFormed
    · cases heap

/-- A row of the scan is a row of the operator. -/
theorem selectAll_next {disk : DiskPages} {db : Db} {h : HeapFile} {s s' : HeapFile.Scanner}
    {row : Option Row} (found : db.heaps 100 = some h)
    (given : Pull.pass (HeapFile.Scanner.next 100 h pairTable.cols) (projectRow onlyColumn) s =
      .ok (row, s')) : selectAll.next disk db s = .ok (row, s') := by
  have heap : db.heap pairTable.fileId = .ok h := heap_eq found
  have scan : (PlanNode.seqScan pairTable).next disk db =
      HeapFile.Scanner.next 100 h pairTable.cols := by
    funext s
    rw [PlanNode.next, heap]
    rfl
  refine Eq.trans ?_ given
  exact congrArg (fun scan : Pull HeapFile.Scanner Row Err => Pull.pass scan _ s) scan

theorem QuietStep.own {w w' : World} {i : Nat} (step : Step w i w') : QuietStep i w w' :=
  ⟨i, step, fun _ apart => absurd rfl apart⟩

/-- Session 0 has sent the row 5 when session 1 begins a transaction. -/
theorem plainWorld_run : ∃ w, Relation.ReflTransGen (QuietStep 0) plainWorld w ∧
    w.engine = ⟨plainDb, some ⟨plainDb, false⟩⟩ ∧
      w.sessions 0 = .streaming (selecting 1 [pairRow 5 0]) ∧ w.sessions 1 = .working ∧
        w.history = [plainDb, plainDb] := by
  let taken : Engine Db := ⟨plainDb, some ⟨plainDb, false⟩⟩
  let start : ResultSet := ⟨selectAll, HeapFile.Scanner.create pairHeap, [], plainDb, fun _ => 2⟩
  let w₁ := plainWorld.turn 0 taken .selecting
  let w₂ := w₁.turn 0 taken (.opened start)
  let w₃ := (w₂.turn 0 ⟨plainDb, none⟩ (.streaming start)).record
  let w₄ := w₃.turn 0 w₃.engine (.streaming (selecting 1 [pairRow 5 0]))
  let w₅ := w₄.turn 1 taken .working
  have begins : Step plainWorld 0 w₁ :=
    .begin rfl (.inr rfl) (show Calls (Engine.beginTxn fates) _ _ from rfl)
  have opens : Step w₁ 0 w₂ := .opens rfl (.plain (.seqScan pairTable) _) rfl
  have releases : Step w₂ 0 w₃ :=
    .release rfl (show Calls (Engine.commitTxn fates) _ _ from rfl)
  have sends : Step w₃ 0 w₄ := @Step.next w₃ 0 (fun _ => 2) start (pairRow 5 0) _ rfl
    (selectAll_next rfl (by decide +kernel))
  have joins : Step w₄ 1 w₅ :=
    .begin rfl (.inl rfl) (show Calls (Engine.beginTxn fates) _ _ from rfl)
  refine ⟨w₅, ?_, rfl, rfl, rfl, rfl⟩
  have streams := (((Relation.ReflTransGen.single (QuietStep.own begins)).tail (.own opens)).tail
    (.own releases)).tail (.own sends)
  refine streams.tail ⟨1, joins, ?_⟩
  intro rs _ _
  exact Untouched.refl _ _

/-- Session 0 reads both rows while session 1 has changed nothing yet. -/
theorem stream_reads_committed_pair : ∃ w, Relation.ReflTransGen (QuietStep 0) plainWorld w ∧
    ∃ rs, w.sessions 0 = .done rs ∧ rs.sent = [pairRow 5 0, pairRow 7 2] ∧
      rs.origin ∈ w.history ∧ Result rs.disk rs.origin rs.plan rs.sent := by
  obtain ⟨w, run, engine, streaming, -, -⟩ := plainWorld_run
  have heap : w.contents.heaps 100 = some pairHeap := by
    rw [World.contents, engine]
    rfl
  let ended : ResultSet := { selecting 3 [pairRow 5 0, pairRow 7 2] with
    state := ({ nextPageNo := 0, slot := 3, isDone := true } : HeapFile.Scanner) }
  let w₁ := w.turn 0 w.engine (.streaming (selecting 3 [pairRow 5 0, pairRow 7 2]))
  let w₂ := w₁.turn 0 w.engine (.done ended)
  have sends : Step w 0 w₁ := @Step.next w 0 (fun _ => 2) _ (pairRow 7 2) _ streaming
    (selectAll_next heap (by decide +kernel))
  have lasts : Step w₁ 0 w₂ := @Step.last w₁ 0 (fun _ => 2) _ _ turn_self
    (selectAll_next heap (by decide +kernel))
  have whole := (run.tail (.own sends)).tail (.own lasts)
  have done : w₂.sessions 0 = .done ended := turn_self
  exact ⟨w₂, whole, ended, done, rfl, stream_reads_committed plainWorld_fresh whole done⟩

/-- The table with a row 9 behind the others. -/
def longHeap : HeapFile where
  nextRowid := 4
  pages := [⟨1, 52, [some (pairRecord 5), none, some (pairRecord 7), some (pairRecord 9)]⟩]

/-- The stream that session 0 began before session 1 inserted 9 sends the 9, which
session 1 then rolls back. -/
theorem stream_reads_uncommitted : ¬∀ (w₀ w : World) (i : Nat) (rs : ResultSet), Fresh w₀ →
    Relation.ReflTransGen (fun w w' => ∃ j, Step w j w') w₀ w → w.sessions i = .done rs →
      ∃ db ∈ w.history, ∃ disk, Result disk db rs.plan rs.sent := by
  intro claimed
  obtain ⟨w, quiet, engine, streaming, working, history⟩ := plainWorld_run
  have forget : ∀ v v', QuietStep 0 v v' → ∃ j, Step v j v' :=
    fun _ _ step => step.imp fun _ both => both.1
  have run := Relation.ReflTransGen.mono forget _ _ quiet
  let sent := [pairRow 5 0, pairRow 7 2, pairRow 9 3]
  let longDb := plainDb.setHeap 100 longHeap
  let ended : ResultSet := { selecting 4 sent with
    state := ({ nextPageNo := 0, slot := 4, isDone := true } : HeapFile.Scanner) }
  let w₁ := w.turn 1 { w.engine with contents := longDb } .working
  let w₂ := w₁.turn 0 w₁.engine (.streaming (selecting 3 [pairRow 5 0, pairRow 7 2]))
  let w₃ := w₂.turn 0 w₁.engine (.streaming (selecting 4 sent))
  let w₄ := w₃.turn 0 w₁.engine (.done ended)
  let w₅ := w₄.turn 1 ⟨plainDb, none⟩ .idle
  have inserts : Step w 1 w₁ := by
    have contents : w.contents = plainDb := congrArg (fun e => e.contents) engine
    have stored : pairHeap.insertRow pairTable.fileId 2 pairTable.cols [intVal kInt 9] =
        .ok (longHeap, 4, ⟨⟨100, 1⟩, 3⟩) := by decide +kernel
    have applied : (Change.insert pairTable [intVal kInt 9]).apply (fun _ => 2) plainDb =
        .ok longDb := by
      have heap : plainDb.heap pairTable.fileId = .ok pairHeap := rfl
      simp only [Change.apply, Db.insert, Db.addRow, heap, stored, Res.bind_ok]
      rfl
    exact .change working (contents ▸ applied)
  have heap : longDb.heaps 100 = some longHeap := rfl
  have first : Step w₁ 0 w₂ := @Step.next w₁ 0 (fun _ => 2) _ (pairRow 7 2) _
    ((turn_other (by decide)).trans streaming) (selectAll_next heap (by decide +kernel))
  have second : Step w₂ 0 w₃ := @Step.next w₂ 0 (fun _ => 2) _ (pairRow 9 3) _ turn_self
    (selectAll_next heap (by decide +kernel))
  have lasts : Step w₃ 0 w₄ := @Step.last w₃ 0 (fun _ => 2) _ _ turn_self
    (selectAll_next heap (by decide +kernel))
  have undoes : Step w₄ 1 w₅ := by
    have own : w₄.sessions 1 = .working := by
      rw [turn_other (by decide), turn_other (by decide), turn_other (by decide), turn_self]
    have undone : Calls (Engine.rollbackTxn fates) ⟨longDb, some ⟨plainDb, false⟩⟩
        ⟨plainDb, none⟩ := rfl
    have engine : w₄.engine = ⟨longDb, some ⟨plainDb, false⟩⟩ := by
      simp [w₄, w₃, w₂, w₁, World.turn, engine]
    exact .rollback (.inl own) (engine ▸ undone)
  have whole := ((((run.tail ⟨1, inserts⟩).tail ⟨0, first⟩).tail ⟨0, second⟩).tail
    ⟨0, lasts⟩).tail ⟨1, undoes⟩
  have done : w₅.sessions 0 = .done ended := (turn_other (by decide)).trans turn_self
  obtain ⟨db, mem, disk, result⟩ := claimed _ _ 0 ended plainWorld_fresh whole done
  obtain rfl : db = plainDb := by
    have all : w₅.history = [plainDb, plainDb] := history
    simpa [all] using mem
  have ready : selectAll.Ready plainDb := ⟨pairHeap, rfl, pairHeap_wellFormed⟩
  have rows := (PlanNode.opened_yields_iff ready).mp result
  have pair : rowsOf (fun _ => 2) plainDb selectAll = .ok [pairRow 5 0, pairRow 7 2] := by
    decide +kernel
  have both := Except.ok.inj (pair.symm.trans rows)
  exact absurd both (by decide)

end MySimpleDb.Server.Snapshot
