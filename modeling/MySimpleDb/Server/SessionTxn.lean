import MySimpleDb.Server.Session

/-!
# The transaction state of a session

Between requests the engine's transaction and the global lock are there exactly
when the flags say so, and an error answer inside an explicit transaction means
that all of it is undone.  This holds of every run in which no operator raises
while rows are streamed inside an explicit transaction, and in which the calls
that end a transaction do not fail.
-/

namespace MySimpleDb.Server.Session

open MySimpleDb.Lib MySimpleDb.Txn

variable {σ : Type}

/-! ## What the session promises -/

/-- The flags, the engine's transaction and the lock agree; a session that has
ended leaves neither transaction nor lock behind. -/
structure Consistent (s : SessionCtx σ) : Prop where
  exists_iff : s.running = true → (s.db.engine.txn.isSome ↔ s.txnStarted)
  locked_iff : s.running = true → (0 < s.db.locks ↔ s.txnStarted)
  explicit : s.txnStarted → s.inTxn
  ended : s.running = false → s.db.engine.txn = none ∧ s.db.locks = 0

/-- An error frame went out for the request at hand. -/
def AnsweredError (s : SessionCtx σ) : Prop :=
  ∃ code message, .error code message ∈ s.answer

/-- The explicit transaction is over and the contents are those that were
committed before. -/
structure RolledBack (committed : σ) (s : SessionCtx σ) : Prop where
  finished : s.inTxn = false
  gone : s.db.engine.txn = none
  restored : s.db.engine.contents = committed

/-- One step keeps the promises. -/
def KeepsPromise (s : SessionCtx σ) (e : Event σ) : Prop :=
  Consistent (step s e) ∧
    ∀ r, e = .request r → s.running → s.inTxn → AnsweredError (step s e) →
      RolledBack s.db.engine.committed (step s e)

/-- A session that has just connected. -/
structure Connected (s : SessionCtx σ) : Prop where
  running : s.running = true
  noTxn : s.inTxn = false
  notStarted : s.txnStarted = false
  idle : s.db.engine.txn = none
  unlocked : s.db.locks = 0

/-- No rollback fails, and inside an explicit transaction neither the parser,
nor a begin, nor the emptying of the log, nor an operator under the result
stream raises. -/
def Orderly (s : SessionCtx σ) : Event σ → Prop
  | .request r =>
      r.fates.restore = none ∧
        (s.inTxn → (∀ e, r.parse ≠ .error e) ∧ r.fates.begin = none ∧ r.fates.flush = none ∧
          ∀ e, r.streaming ≠ .raised e)
  | .hangup fates => fates.restore = none
  | .others _ => True

/-! ## States between requests and inside one -/

/-- The shape of a running session between requests. -/
structure Shape (s : SessionCtx σ) : Prop where
  begun : s.inTxn = true → s.db.bootstrapMode = false
  started : s.txnStarted = true →
    s.inTxn = true ∧ s.db.locks = 1 ∧ ∃ undo, s.db.engine.txn = some ⟨undo, false⟩
  unstarted : s.txnStarted = false → s.db.locks = 0 ∧ s.db.engine.txn = none

/-- A statement runs in a transaction that began with the contents `base`. -/
structure Open (base : σ) (s : SessionCtx σ) : Prop where
  begun : s.inTxn = true → s.db.bootstrapMode = false
  started : s.txnStarted = s.inTxn
  locked : s.db.locks = 1
  active : ∃ drops, s.db.engine.txn = some ⟨base, drops⟩ ∧ (s.inTxn = true → drops = false)

/-- The flags reset and the transaction, if any, undone. -/
def freed (s : SessionCtx σ) : SessionCtx σ :=
  { s with
    inTxn := false
    txnStarted := false
    db := { s.db with engine := ⟨s.db.engine.committed, none⟩, locks := 0 } }

/-- How a request may leave the session by raising: inside an explicit
transaction it is undone first. -/
def Failed (explicit : Bool) (base : σ) (s : SessionCtx σ) : Prop :=
  Shape s ∧ s.running = true ∧
    (explicit = true → s.inTxn = false ∧ s.db.engine.contents = base)

/-- How a request may leave the session. -/
def Served (explicit : Bool) (base : σ) (s : SessionCtx σ) : Prop :=
  Shape s ∧ s.running = true ∧
    (explicit = true → AnsweredError s → s.inTxn = false ∧ s.db.engine.contents = base)

theorem Failed.served {explicit : Bool} {base : σ} {s : SessionCtx σ}
    (failed : Failed explicit base s) : Served explicit base s :=
  ⟨failed.1, failed.2.1, fun was _ => failed.2.2 was⟩

theorem Shape.freed (s : SessionCtx σ) : Shape (freed s) where
  begun := by intro inTxn; cases inTxn
  started := by intro started; cases started
  unstarted _ := ⟨rfl, rfl⟩

theorem Open.shape {base : σ} {s : SessionCtx σ} (opened : Open base s) (explicit : s.inTxn = true) :
    Shape s where
  begun := opened.begun
  started _ := by
    obtain ⟨drops, active, none_⟩ := opened.active
    exact ⟨explicit, opened.locked, base, none_ explicit ▸ active⟩
  unstarted notStarted := by
    rw [opened.started, explicit] at notStarted
    cases notStarted

/-- Between requests a transaction of the engine is an explicit one. -/
theorem Shape.explicit {s : SessionCtx σ} {t : TxnContext σ} (shape : Shape s)
    (active : s.db.engine.txn = some t) : s.inTxn = true := by
  cases started : s.txnStarted with
  | true => exact (shape.started started).1
  | false => simp [(shape.unstarted started).2] at active

theorem Shape.notStarted {s : SessionCtx σ} (shape : Shape s) (finished : s.inTxn = false) :
    s.txnStarted = false := by
  cases started : s.txnStarted with
  | false => rfl
  | true => exact absurd (shape.started started).1 (by simp [finished])

/-- Answering does not touch the transaction. -/
theorem Failed.sendError {explicit : Bool} {base : σ} {s : SessionCtx σ} {code : ErrCode}
    {message : String} (failed : Failed explicit base s) :
    (sendError code message : Act σ Unit).Ends s (fun _ => Failed explicit base) fun _ _ => False := by
  simp only [Session.sendError, sendFrame, Attempt.ends_modify]
  exact ⟨⟨failed.1.1, failed.1.2, failed.1.3⟩, failed.2⟩

/-! ## Frames -/

/-- A frame that is no error. -/
def Reply.Plain : Reply → Prop
  | .error _ _ => False
  | _ => True

/-- Nothing but the answer differs, and no error was added to it. -/
def Quieter (s s' : SessionCtx σ) : Prop :=
  (∃ answer, s' = { s with answer := answer }) ∧ (AnsweredError s' → AnsweredError s)

theorem Quieter.refl (s : SessionCtx σ) : Quieter s s :=
  ⟨⟨s.answer, rfl⟩, id⟩

theorem Quieter.trans {s middle s' : SessionCtx σ} (first : Quieter s middle)
    (second : Quieter middle s') : Quieter s s' := by
  obtain ⟨⟨answer, rfl⟩, firstQuiet⟩ := first
  obtain ⟨⟨answer', rfl⟩, secondQuiet⟩ := second
  exact ⟨⟨answer', rfl⟩, fun error => firstQuiet (secondQuiet error)⟩

theorem sendFrame_quieter {s : SessionCtx σ} (frame : Reply) (plain : frame.Plain) :
    (sendFrame frame).Ends s (fun _ => Quieter s) fun _ _ => False := by
  refine ⟨⟨_, rfl⟩, ?_⟩
  rintro ⟨code, message, sent⟩
  rcases List.mem_append.mp sent with earlier | now
  · exact ⟨code, message, earlier⟩
  · cases List.mem_singleton.mp now
    exact plain.elim

theorem sendNotice_quieter {s : SessionCtx σ} {level : LogLevel} {message : String} :
    (sendNotice level message).Ends s (fun _ => Quieter s) fun _ _ => False := by
  simp only [sendNotice, Attempt.ends_bind, Attempt.ends_get, Attempt.ends_ite, Attempt.ends_pure]
  split
  · exact Quieter.refl s
  · exact sendFrame_quieter _ trivial

theorem Quieter.shape {s s' : SessionCtx σ} (quieter : Quieter s s') (shape : Shape s) : Shape s' := by
  obtain ⟨⟨answer, rfl⟩, -⟩ := quieter
  exact ⟨shape.1, shape.2, shape.3⟩

/-- Further frames that are no errors leave a request served. -/
theorem Quieter.served {explicit : Bool} {base : σ} {s s' : SessionCtx σ}
    (quieter : Quieter s s') (served : Served explicit base s) : Served explicit base s' := by
  have shape := quieter.shape served.1
  obtain ⟨⟨answer, rfl⟩, quiet⟩ := quieter
  exact ⟨shape, served.2.1, fun was error => served.2.2 was (quiet error)⟩

/-! ## The steps of a request -/

variable {s : SessionCtx σ} {fates : Fates σ} {base : σ}

theorem rollbackSessionTxn_ends (shape : Shape s) (restores : fates.restore = none)
    {returned : Unit → SessionCtx σ → Prop} {raised : Exn → SessionCtx σ → Prop} :
    (rollbackSessionTxn fates).Ends s returned raised ↔ returned () (freed s) := by
  cases started : s.txnStarted with
  | false =>
      obtain ⟨unlocked, idle⟩ := shape.unstarted started
      have same : freed s = { s with inTxn := false, txnStarted := false } := by
        rcases s with ⟨⟨⟨contents, txn⟩, locks, bootstrapMode⟩, inTxn, txnStarted, _, _, _, _⟩
        cases idle
        cases unlocked
        rfl
      simp [rollbackSessionTxn, started, same]
  | true =>
      obtain ⟨-, locked, undo, active⟩ := shape.started started
      simp [rollbackSessionTxn, started, onDb, Catalog.rollbackTxn_ends active restores, freed,
        Catalog.ended, Engine.committed, active, locked]

theorem freed_failed (explicit : Bool) (s : SessionCtx σ) (running : s.running = true) :
    Failed explicit s.db.engine.committed (freed s) :=
  ⟨Shape.freed s, running, fun _ => ⟨rfl, rfl⟩⟩

theorem handleBegin_served (shape : Shape s) (running : s.running = true)
    (restores : fates.restore = none) :
    (handleBegin fates).Ends s (fun _ => Served s.inTxn s.db.engine.committed)
      fun _ _ => False := by
  simp only [handleBegin, Attempt.ends_bind, Attempt.ends_get, Attempt.ends_ite]
  by_cases bootstrap : s.db.bootstrapMode = true
  · rw [if_pos bootstrap]
    have noTxn : s.inTxn = false := by
      cases explicit : s.inTxn
      · rfl
      · simp [shape.begun explicit] at bootstrap
    apply (Failed.sendError _).mono (fun _ _ => Failed.served) fun _ _ => id
    exact ⟨shape, running, fun explicit => by simp [noTxn] at explicit⟩
  · rw [if_neg bootstrap]
    by_cases explicit : s.inTxn = true
    · rw [if_pos explicit, rollbackSessionTxn_ends shape restores]
      exact ((freed_failed _ s running).sendError).mono (fun _ _ => Failed.served) fun _ _ => id
    · rw [if_neg explicit, Attempt.ends_modify]
      apply (sendFrame_quieter (.ok .begin 0) trivial).mono _ fun _ _ => id
      intro _ s' quieter
      apply quieter.served
      refine ⟨⟨fun _ => by simpa using bootstrap, fun started => ?_, shape.unstarted⟩, running, ?_⟩
      · exact absurd (shape.started started).1 explicit
      · exact fun was => absurd was explicit

/-- COMMIT and ROLLBACK: the call that ends the transaction either returns, or
raises with the contents of before. -/
theorem handleEnd_served (shape : Shape s) (running : s.running = true) (quiet : ¬ AnsweredError s)
    {tag : CommandTag} {finish : Attempt (Catalog σ) Exn Unit}
    (ends : ∀ undo, s.db.engine.txn = some ⟨undo, false⟩ →
      finish.Ends s.db (fun _ c => ∃ contents, c = Catalog.ended s.db contents)
        fun _ c => c = Catalog.ended s.db undo) :
    (handleEnd tag finish).Ends s (fun _ => Served s.inTxn s.db.engine.committed)
      fun _ => Failed s.inTxn s.db.engine.committed := by
  simp only [handleEnd, Attempt.ends_bind, Attempt.ends_get, Attempt.ends_ite]
  by_cases explicit : s.inTxn = true
  · rw [if_pos explicit, Attempt.ends_modify]
    by_cases started : s.txnStarted = true
    · rw [if_pos started]
      obtain ⟨-, locked, undo, active⟩ := shape.started started
      simp only [onDb, Attempt.ends_modify, Attempt.ends_onPart]
      have finished : ∀ contents, Shape { s with
          db := Catalog.ended s.db contents, inTxn := false, txnStarted := false } := by
        intro contents
        refine ⟨fun inTxn => ?_, fun started => ?_, fun _ => ⟨?_, rfl⟩⟩
        · cases inTxn
        · cases started
        · simp [Catalog.ended, locked]
      apply (ends undo active).mono
      · rintro - c ⟨contents, rfl⟩
        apply (sendFrame_quieter (.ok tag 0) trivial).mono _ fun _ _ => False.elim
        intro _ s' quieter
        apply quieter.served
        exact ⟨finished contents, running, fun _ error => absurd error quiet⟩
      · rintro - c rfl
        refine ⟨finished undo, running, fun _ => ⟨rfl, ?_⟩⟩
        simp [Catalog.ended, Engine.committed, active]
    · rw [if_neg started]
      obtain ⟨unlocked, idle⟩ := shape.unstarted (by simpa using started)
      apply (sendFrame_quieter (.ok tag 0) trivial).mono _ fun _ _ => False.elim
      intro _ s' quieter
      apply quieter.served
      refine ⟨⟨fun inTxn => ?_, fun now => absurd now started, fun _ => ⟨unlocked, idle⟩⟩,
        running, fun _ error => absurd error quiet⟩
      cases inTxn
  · rw [if_neg explicit]
    apply (Failed.sendError _).mono (fun _ _ => Failed.served) fun _ _ => False.elim
    exact ⟨shape, running, fun was => absurd was explicit⟩

/-- The transaction and its flags are as before. -/
structure Aside (s s' : SessionCtx σ) : Prop where
  db : s'.db = s.db
  inTxn : s'.inTxn = s.inTxn
  txnStarted : s'.txnStarted = s.txnStarted
  running : s'.running = s.running

theorem Quieter.aside {s s' : SessionCtx σ} (quieter : Quieter s s') : Aside s s' := by
  obtain ⟨⟨answer, rfl⟩, -⟩ := quieter
  exact ⟨rfl, rfl, rfl, rfl⟩

theorem Aside.trans {s middle s' : SessionCtx σ} (first : Aside s middle)
    (second : Aside middle s') : Aside s s' where
  db := second.db.trans first.db
  inTxn := second.inTxn.trans first.inTxn
  txnStarted := second.txnStarted.trans first.txnStarted
  running := second.running.trans first.running

theorem Aside.shape {s s' : SessionCtx σ} (aside : Aside s s') (shape : Shape s) : Shape s' where
  begun := by
    rw [aside.inTxn, aside.db]
    exact shape.begun
  started := by
    rw [aside.inTxn, aside.db, aside.txnStarted]
    exact shape.started
  unstarted := by
    rw [aside.db, aside.txnStarted]
    exact shape.unstarted

theorem sendFrame_aside {frame : Reply} :
    (sendFrame frame).Ends s (fun _ => Aside s) fun _ _ => False :=
  ⟨rfl, rfl, rfl, rfl⟩

/-- SET touches no transaction; an unknown variable is left to the executor. -/
theorem handleSessionSet_aside (ss : SetStmt) :
    (handleSessionSet ss).Ends s (fun handled s' => Aside s s' ∧ (handled = false → s' = s))
      fun _ _ => False := by
  have answered : ∀ middle : SessionCtx σ, Aside s middle → ∀ frame,
      (do sendFrame frame; pure true : Act σ Bool).Ends middle
        (fun handled s' => Aside s s' ∧ (handled = false → s' = s)) fun _ _ => False := by
    intro middle aside frame
    rw [Attempt.ends_bind]
    apply sendFrame_aside.mono _ fun _ _ => False.elim
    intro _ s' next
    exact ⟨aside.trans next, fun never => by cases never⟩
  have noticed : ∀ middle : SessionCtx σ, Aside s middle → ∀ message,
      (do sendNotice .debug message; sendFrame (.ok .set 0); pure true : Act σ Bool).Ends middle
        (fun handled s' => Aside s s' ∧ (handled = false → s' = s)) fun _ _ => False := by
    intro middle aside message
    rw [Attempt.ends_bind]
    apply sendNotice_quieter.mono _ fun _ _ => False.elim
    intro _ s' quieter
    exact answered s' (aside.trans quieter.aside) _
  unfold handleSessionSet
  split
  · split
    · exact answered s ⟨rfl, rfl, rfl, rfl⟩ _
    · rw [Attempt.ends_bind, Attempt.ends_modify]
      apply noticed
      exact ⟨rfl, rfl, rfl, rfl⟩
  · split
    · split
      · exact answered s ⟨rfl, rfl, rfl, rfl⟩ _
      · rw [Attempt.ends_bind, Attempt.ends_modify]
        apply noticed
        exact ⟨rfl, rfl, rfl, rfl⟩
    · split
      · split
        · exact answered s ⟨rfl, rfl, rfl, rfl⟩ _
        · exact noticed _ ⟨rfl, rfl, rfl, rfl⟩ _
      · exact ⟨⟨rfl, rfl, rfl, rfl⟩, fun _ => rfl⟩

/-! ## One statement -/

/-- `s'` runs in the transaction that began with `base`; flags and answer are
those of `s`. -/
structure InTxnFrom (base : σ) (s s' : SessionCtx σ) : Prop where
  opened : Open base s'
  inTxn : s'.inTxn = s.inTxn
  running : s'.running = s.running
  answer : s'.answer = s.answer

/-- A begin fails only outside an explicit transaction, and then nothing is
left of it. -/
theorem openTxn_ends (shape : Shape s) (begins : s.inTxn = true → fates.begin = none) :
    (openTxn fates).Ends s (fun _ => InTxnFrom s.db.engine.committed s)
      fun _ s' => s' = s ∧ s.inTxn = false := by
  simp only [openTxn, Attempt.ends_bind, Attempt.ends_get, Attempt.ends_ite, Attempt.ends_pure, onDb,
    Attempt.ends_onPart, Attempt.ends_modify]
  by_cases explicit : s.inTxn = true
  · rw [if_pos explicit]
    by_cases started : s.txnStarted = true
    · rw [if_pos started]
      obtain ⟨-, locked, undo, active⟩ := shape.started started
      refine ⟨⟨shape.begun, started.trans explicit.symm, locked, false, ?_, fun _ => rfl⟩,
        rfl, rfl, rfl⟩
      simp [Engine.committed, active]
    · rw [if_neg started]
      obtain ⟨unlocked, idle⟩ := shape.unstarted (by simpa using started)
      rw [Catalog.beginTxn_ends idle, begins explicit]
      refine ⟨⟨shape.begun, explicit.symm, ?_, false, ?_, fun _ => rfl⟩, rfl, rfl, rfl⟩
      · simp [unlocked]
      · simp [Engine.committed, idle]
  · rw [if_neg explicit]
    have started : s.txnStarted = false := by
      by_contra started
      exact explicit (shape.started (by simpa using started)).1
    have noTxn : s.inTxn = false := by simpa using explicit
    obtain ⟨unlocked, idle⟩ := shape.unstarted started
    rw [Catalog.beginTxn_ends idle]
    cases fates.begin with
    | some e => exact ⟨rfl, noTxn⟩
    | none =>
        refine ⟨⟨shape.begun, started.trans noTxn.symm, ?_, false, ?_, fun _ => rfl⟩, rfl, rfl, rfl⟩
        · simp [unlocked]
        · simp [Engine.committed, idle]

theorem execute_ends {stmt : SQLStatement} {run : String → σ → Execution σ} (opened : Open base s)
    (keeps : s.inTxn = true → registersDrops stmt = false) :
    (execute stmt run).Ends s (fun _ => InTxnFrom base s) fun _ => InTxnFrom base s := by
  obtain ⟨drops, active, clear⟩ := opened.active
  have inside : InTxnFrom base s { s with db := { s.db with engine :=
      ⟨(run s.currentSchema s.db.engine.contents).contents, some ⟨base,
        drops || (registersDrops stmt && (run s.currentSchema s.db.engine.contents).drops)⟩⟩ } } := by
    refine ⟨⟨opened.begun, opened.started, opened.locked, _, rfl, ?_⟩, rfl, rfl, rfl⟩
    intro explicit
    simp [clear explicit, keeps explicit]
  simp only [execute, Attempt.ends_bind, Attempt.ends_get, active, Attempt.ends_modify]
  split <;> exact inside

theorem rollbackFailed_ends (opened : Open base s) (restores : fates.restore = none) {e : Exn}
    {raised : Exn → SessionCtx σ → Prop} {returned : String → SessionCtx σ → Prop} :
    (rollbackFailed fates e).Ends s returned raised ↔
      returned (if s.inTxn then e.what ++ ", 事务已回滚" else e.what) (freed s) := by
  obtain ⟨drops, active, -⟩ := opened.active
  have same : freed s =
      { s with db := Catalog.ended s.db base, inTxn := false, txnStarted := false } := by
    simp [freed, Catalog.ended, Engine.committed, active, opened.locked]
  simp only [rollbackFailed, onDb, Attempt.ends_bind, Attempt.ends_onPart, Attempt.ends_get,
    Catalog.rollbackTxn_ends active restores, Attempt.ends_ite, Attempt.ends_modify,
    Attempt.ends_pure]
  cases explicit : s.inTxn with
  | true => simp [same]
  | false =>
      have untouched : { s with db := Catalog.ended s.db base, inTxn := false } = freed s := by
        rw [same, opened.started, explicit]
      simp [untouched]

theorem sendResultStream_ends (streaming : Streaming) :
    (sendResultStream streaming).Ends s (fun _ => Quieter s)
      fun e s' => Quieter s s' ∧ streaming = .raised e := by
  cases streaming with
  | cut => exact sendFrame_quieter .resultSetHead trivial
  | raised e =>
      simp only [sendResultStream, Attempt.ends_bind, Attempt.ends_throw]
      apply (sendFrame_quieter .resultSetHead trivial).mono _ fun _ _ => False.elim
      intro _ _ head
      apply (sendFrame_quieter .resultSetBatches trivial).mono _ fun _ _ => False.elim
      intro _ _ batches
      exact ⟨head.trans batches, trivial⟩
  | sent total =>
      simp only [sendResultStream, Attempt.ends_bind, Attempt.ends_pure]
      apply (sendFrame_quieter .resultSetHead trivial).mono _ fun _ _ => False.elim
      intro _ _ head
      apply (sendFrame_quieter .resultSetBatches trivial).mono _ fun _ _ => False.elim
      intro _ _ batches
      apply sendNotice_quieter.mono _ fun _ _ => False.elim
      intro _ _ notice
      apply (sendFrame_quieter (.resultSetEnd total) trivial).mono _ fun _ _ => False.elim
      intro _ _ finish
      exact ((head.trans batches).trans notice).trans finish

/-- A result set that is not raised from, or a command tag, leaves what was
served. -/
theorem sendResult_ends {explicit : Bool} {streaming : Streaming} {result : ExecResult}
    (served : Served explicit base s)
    (failed : (∃ e, streaming = .raised e) → Failed explicit base s) :
    (sendResult streaming result).Ends s (fun _ => Served explicit base)
      fun _ => Failed explicit base := by
  unfold sendResult
  split
  · apply (sendResultStream_ends streaming).mono
    · intro _ s' quieter
      exact quieter.served served
    · rintro e s' ⟨quieter, raised⟩
      obtain ⟨shape, running, undone⟩ := failed ⟨e, raised⟩
      have aside := quieter.aside
      refine ⟨aside.shape shape, aside.running.trans running, ?_⟩
      rw [aside.inTxn, aside.db]
      exact undone
  · simp only [Attempt.ends_bind, Attempt.ends_pure]
    apply sendNotice_quieter.mono _ fun _ _ => False.elim
    intro _ _ notice
    apply (sendFrame_quieter (.ok result.tag result.count) trivial).mono _
      fun _ _ => False.elim
    intro _ _ finish
    exact (notice.trans finish).served served

/-- Outside an explicit transaction whatever happens to the commit leaves no
transaction behind. -/
theorem autoCommit_ends (opened : Open base s) (running : s.running = true)
    (quiet : ¬ AnsweredError s) (restores : fates.restore = none) :
    (autoCommit fates).Ends s
      (fun _ s' => Served s.inTxn base s' ∧ (s.inTxn = false → Failed s.inTxn base s'))
      fun _ => Failed s.inTxn base := by
  simp only [autoCommit, Attempt.ends_bind, Attempt.ends_get, Attempt.ends_ite, Attempt.ends_pure]
  cases explicit : s.inTxn with
  | true =>
      rw [if_pos rfl]
      exact ⟨⟨opened.shape explicit, running, fun _ error => absurd error quiet⟩,
        fun never => by cases never⟩
  | false =>
      rw [if_neg Bool.false_ne_true]
      obtain ⟨drops, active, -⟩ := opened.active
      have finished : ∀ contents, Failed false base { s with db := Catalog.ended s.db contents } := by
        intro contents
        refine ⟨⟨fun inTxn => ?_, fun started => ?_, fun _ => ⟨?_, rfl⟩⟩, running, fun was => ?_⟩
        · exact absurd inTxn (by simp [explicit])
        · exact absurd started (by simp [opened.started, explicit])
        · simp [Catalog.ended, opened.locked]
        · cases was
      simp only [onDb, Attempt.ends_onPart, Catalog.commitTxn_ends active restores]
      split
      · exact finished base
      · split
        · exact finished _
        · exact ⟨(finished _).served, fun _ => finished _⟩

theorem execStatement_ends {stmt : SQLStatement} {r : Request σ} (shape : Shape s)
    (running : s.running = true) (quiet : ¬ AnsweredError s) (orderly : Orderly s (.request r))
    (keeps : s.inTxn = true → registersDrops stmt = false) :
    (execStatement stmt r).Ends s (fun _ => Served s.inTxn s.db.engine.committed)
      fun _ => Failed s.inTxn s.db.engine.committed := by
  obtain ⟨restores, explicitly⟩ := orderly
  simp only [execStatement, Attempt.ends_bind]
  apply (openTxn_ends shape fun explicit => (explicitly explicit).2.1).mono
  · intro _ opened inside
    simp only [Attempt.ends_tryCatch, Attempt.ends_map, Attempt.ends_bind]
    have running' := inside.running.trans running
    rw [← inside.inTxn] at explicitly keeps ⊢
    apply (execute_ends inside.opened keeps).mono
    · intro result s' executed
      have quiet' : ¬ AnsweredError s' := by
        simpa [AnsweredError, executed.answer, inside.answer] using quiet
      rw [← executed.inTxn] at explicitly ⊢
      apply (autoCommit_ends executed.opened (executed.running.trans running') quiet' restores).mono
      · rintro - s'' ⟨served, failed⟩
        apply sendResult_ends served
        rintro ⟨e, raised⟩
        apply failed
        by_contra explicit
        exact (explicitly (by simpa using explicit)).2.2.2 e raised
      · exact fun _ _ => id
    · intro e s' executed
      have failed : Failed opened.inTxn s.db.engine.committed (freed s') := by
        obtain ⟨drops, active, -⟩ := executed.opened.active
        refine ⟨Shape.freed s', executed.running.trans running', fun _ => ⟨rfl, ?_⟩⟩
        simp [freed, Engine.committed, active]
      rw [rollbackFailed_ends executed.opened restores]
      cases e with
      | other what => exact failed
      | dbError code text =>
          simp only [Attempt.ends_bind, Attempt.ends_pure]
          exact failed.sendError.mono (fun _ _ => Failed.served) fun _ _ => False.elim
  · rintro e s' ⟨rfl, implicit⟩
    exact ⟨shape, running, fun was => by simp [implicit] at was⟩

/-! ## One request -/

/-- Statements that register files for removal are refused in an explicit
transaction. -/
theorem registersDrops_forbidden {stmt : SQLStatement} (allowed : txnForbiddenStmt stmt = false) :
    registersDrops stmt = false := by
  cases stmt <;> first | rfl | cases allowed

theorem dispatch_ends {stmt : SQLStatement} {r : Request σ} (shape : Shape s)
    (running : s.running = true) (quiet : ¬ AnsweredError s) (orderly : Orderly s (.request r)) :
    (dispatch stmt r).Ends s (fun _ => Served s.inTxn s.db.engine.committed)
      fun _ => Failed s.inTxn s.db.engine.committed := by
  obtain ⟨restores, explicitly⟩ := id orderly
  have begun : (do handleBegin r.fates; pure true : Act σ Bool).Ends s
      (fun _ => Served s.inTxn s.db.engine.committed)
      fun _ => Failed s.inTxn s.db.engine.committed := by
    simp only [Attempt.ends_bind, Attempt.ends_pure]
    exact (handleBegin_served shape running restores).mono (fun _ _ => id) fun _ _ => False.elim
  have finished : ∀ (tag : CommandTag) (finish : Attempt (Catalog σ) Exn Unit),
      (∀ undo, s.db.engine.txn = some ⟨undo, false⟩ →
        finish.Ends s.db (fun _ c => ∃ contents, c = Catalog.ended s.db contents)
          fun _ c => c = Catalog.ended s.db undo) →
      (do handleEnd tag finish; pure true : Act σ Bool).Ends s
        (fun _ => Served s.inTxn s.db.engine.committed)
        fun _ => Failed s.inTxn s.db.engine.committed := by
    intro tag finish ends
    simp only [Attempt.ends_bind, Attempt.ends_pure]
    exact handleEnd_served shape running quiet ends
  have executed : ∀ stmt, ¬ (s.inTxn && txnForbiddenStmt stmt) = true →
      (execStatement stmt r).Ends s (fun _ => Served s.inTxn s.db.engine.committed)
        fun _ => Failed s.inTxn s.db.engine.committed := by
    intro stmt allowed
    apply execStatement_ends shape running quiet orderly
    intro explicit
    apply registersDrops_forbidden
    simpa [explicit] using allowed
  simp only [dispatch, Attempt.ends_bind, Attempt.ends_get]
  split
  · exact begun
  · apply finished
    intro undo active
    have explicit := shape.explicit active
    rw [Catalog.commitTxn_ends active restores, (explicitly explicit).2.2.1]
    simp only [Bool.false_eq_true, if_false, ite_self]
    exact ⟨_, rfl⟩
  · apply finished
    intro undo active
    rw [Catalog.rollbackTxn_ends active restores]
    exact ⟨undo, rfl⟩
  · rw [Attempt.ends_ite]
    split
    · simp only [Attempt.ends_bind, Attempt.ends_pure]
      rw [rollbackSessionTxn_ends shape restores]
      exact (freed_failed _ s running).sendError.mono (fun _ _ => Failed.served)
        fun _ _ => False.elim
    · rename_i allowed
      split
      · rw [Attempt.ends_bind]
        apply (handleSessionSet_aside _).mono _ fun _ _ => False.elim
        rintro handled s' ⟨aside, unhandled⟩
        cases handled with
        | false =>
            rw [unhandled rfl]
            exact executed _ allowed
        | true =>
            refine ⟨aside.shape shape, aside.running.trans running, fun explicit => ?_⟩
            exact absurd allowed (by simp [explicit, txnForbiddenStmt])
      · exact executed _ allowed

theorem handleRequest_ends {r : Request σ} (shape : Shape s) (running : s.running = true)
    (quiet : ¬ AnsweredError s) (orderly : Orderly s (.request r)) :
    (handleRequest r).Ends s (fun _ => Served s.inTxn s.db.engine.committed)
      fun _ => Failed s.inTxn s.db.engine.committed := by
  obtain ⟨restores, explicitly⟩ := id orderly
  have silent : Served s.inTxn s.db.engine.committed s :=
    ⟨shape, running, fun _ error => absurd error quiet⟩
  simp only [handleRequest, recvQuery, Attempt.ends_bind, Attempt.ends_pure, Attempt.ends_ite]
  apply sendNotice_quieter.mono _ fun _ _ => False.elim
  intro _ s₁ received
  split
  · cases outcome : r.parse with
    | error e =>
        refine ⟨received.shape shape, received.aside.running.trans running, fun explicit => ?_⟩
        exact absurd outcome ((explicitly explicit).1 e)
    | ok parsed =>
        have served₁ := received.served silent
        have shape₁ := received.shape shape
        obtain ⟨⟨answer, rfl⟩, quiet₁⟩ := received
        cases parsed with
        | error parseError =>
            simp only [Attempt.ends_bind, Attempt.ends_get, Attempt.ends_ite, Attempt.ends_pure]
            split
            · rw [rollbackSessionTxn_ends shape₁ restores]
              have failed := freed_failed s.inTxn { s with answer := answer } running
              exact failed.sendError.mono (fun _ _ => Failed.served) fun _ _ => False.elim
            · rename_i implicit
              apply (Failed.sendError _).mono (fun _ _ => Failed.served) fun _ _ => False.elim
              exact ⟨shape₁, running, fun explicit => absurd explicit implicit⟩
        | ok parsed =>
            simp only [Attempt.ends_bind]
            apply sendNotice_quieter.mono _ fun _ _ => False.elim
            intro _ s₂ noticed
            have served₂ := noticed.served served₁
            have shape₂ := noticed.shape shape₁
            obtain ⟨⟨answer₂, rfl⟩, quiet₂⟩ := noticed
            cases parsed with
            | none =>
                simp only [Attempt.ends_bind, Attempt.ends_pure]
                apply (sendFrame_quieter (.ok .empty 0) trivial).mono _
                  fun _ _ => False.elim
                intro _ _ sent
                exact sent.served served₂
            | some stmt =>
                exact dispatch_ends shape₂ running (fun error => quiet (quiet₁ (quiet₂ error)))
                  orderly
  · exact received.served silent

/-- Whatever is raised is answered, and has been undone by then. -/
theorem serve_ends {r : Request σ} (shape : Shape s) (running : s.running = true)
    (quiet : ¬ AnsweredError s) (orderly : Orderly s (.request r)) :
    (serve r).Ends s (fun _ => Served s.inTxn s.db.engine.committed) fun _ _ => False := by
  simp only [serve, Attempt.ends_tryCatch]
  apply (handleRequest_ends shape running quiet orderly).mono fun _ _ => id
  intro e s' failed
  cases e with
  | dbError code text =>
      simp only [Attempt.ends_bind, Attempt.ends_pure]
      exact failed.sendError.mono (fun _ _ => Failed.served) fun _ _ => id
  | other what =>
      simp only [Attempt.ends_bind, Attempt.ends_pure]
      exact failed.sendError.mono (fun _ _ => Failed.served) fun _ _ => id

/-- How the loop leaves a session it ends: no transaction, no lock, and nothing
else changed if there was none before. -/
structure Closed (s s' : SessionCtx σ) : Prop where
  stopped : s'.running = false
  gone : s'.db.engine.txn = none
  unlocked : s'.db.locks = 0
  inTxn : s'.inTxn = s.inTxn
  txnStarted : s'.txnStarted = s.txnStarted
  answer : s'.answer = s.answer
  untouched : s.txnStarted = false → s'.db = s.db

theorem closeSession_closed (shape : Shape s) (restores : fates.restore = none) :
    Closed s ((closeSession fates).exit s).2 := by
  have ends : (closeSession fates).Ends s (fun _ => Closed s) fun _ _ => False := by
    simp only [closeSession, Attempt.ends_bind, Attempt.ends_get, Attempt.ends_ite,
      Attempt.ends_modify]
    cases started : s.txnStarted with
    | true =>
        obtain ⟨-, locked, undo, active⟩ := shape.started started
        rw [if_pos rfl]
        simp only [Attempt.ends_tryCatch, onDb, Attempt.ends_onPart,
          Catalog.rollbackTxn_ends active restores]
        refine ⟨rfl, rfl, ?_, rfl, rfl, rfl, fun never => ?_⟩
        · simp [Catalog.ended, locked]
        · simp [started] at never
    | false =>
        obtain ⟨unlocked, idle⟩ := shape.unstarted started
        rw [if_neg Bool.false_ne_true]
        exact ⟨rfl, idle, unlocked, rfl, started.symm, rfl, fun _ => rfl⟩
  exact (ends.mono (fun _ _ => id) fun _ _ => False.elim).state

/-! ## Runs -/

/-- What holds of a session in every state of an orderly run. -/
def Invariant (s : SessionCtx σ) : Prop :=
  if s.running then Shape s
  else s.db.engine.txn = none ∧ s.db.locks = 0 ∧ (s.txnStarted → s.inTxn)

theorem Invariant.consistent {s : SessionCtx σ} (invariant : Invariant s) : Consistent s := by
  unfold Invariant at invariant
  cases running : s.running with
  | false =>
      rw [running] at invariant
      obtain ⟨idle, unlocked, explicit⟩ := invariant
      exact ⟨fun on => by simp [running] at on, fun on => by simp [running] at on, explicit,
        fun _ => ⟨idle, unlocked⟩⟩
  | true =>
      rw [running] at invariant
      have shape : Shape s := invariant
      cases started : s.txnStarted with
      | false =>
          obtain ⟨unlocked, idle⟩ := shape.unstarted started
          refine ⟨fun _ => ?_, fun _ => ?_, fun now => ?_, fun off => ?_⟩
          · simp [idle, started]
          · simp [unlocked, started]
          · simp [started] at now
          · simp [running] at off
      | true =>
          obtain ⟨explicit, locked, undo, active⟩ := shape.started started
          refine ⟨fun _ => ?_, fun _ => ?_, fun _ => explicit, fun off => ?_⟩
          · simp [active, started]
          · simp [locked, started]
          · simp [running] at off

theorem Connected.invariant {s : SessionCtx σ} (connected : Connected s) : Invariant s := by
  unfold Invariant
  rw [connected.running]
  refine ⟨fun explicit => ?_, fun started => ?_, fun _ => ⟨connected.unlocked, connected.idle⟩⟩
  · simp [connected.noTxn] at explicit
  · simp [connected.notStarted] at started

theorem step_request {s : SessionCtx σ} {r : Request σ} (running : s.running = true) :
    step s (.request r) =
      match (serve r).exit { s with answer := [] } with
      | (.ok true, s') => s'
      | (_, s') => ((closeSession r.fates).exit s').2 :=
  if_pos running

/-- One orderly step from a state of the invariant. -/
theorem step_keeps {s : SessionCtx σ} {e : Event σ} (invariant : Invariant s)
    (orderly : Orderly s e) : Invariant (step s e) ∧ KeepsPromise s e := by
  suffices main : Invariant (step s e) ∧
      ∀ r, e = .request r → s.running → s.inTxn → AnsweredError (step s e) →
        RolledBack s.db.engine.committed (step s e) from
    ⟨main.1, main.1.consistent, main.2⟩
  unfold Invariant at invariant
  cases running : s.running with
  | false =>
      rw [running] at invariant
      obtain ⟨idle, unlocked, explicit⟩ := invariant
      have stays : Invariant (step s e) := by
        cases e with
        | request r => simpa [step, running, Invariant] using ⟨idle, unlocked, explicit⟩
        | hangup fates => simpa [step, running, Invariant] using ⟨idle, unlocked, explicit⟩
        | others contents =>
            simpa [step, running, Invariant, idle, unlocked] using explicit
      exact ⟨stays, fun _ _ never => by cases never⟩
  | true =>
      rw [running] at invariant
      have shape : Shape s := invariant
      cases e with
      | request r =>
          have unanswered : ¬ AnsweredError { s with answer := [] } := by
            rintro ⟨_, _, sent⟩
            cases sent
          have ends : (serve r).Ends { s with answer := [] } _ _ :=
            serve_ends ⟨shape.begun, shape.started, shape.unstarted⟩ running unanswered orderly
          rw [step_request running]
          unfold Attempt.Ends at ends
          rcases outcome : (serve r).exit { s with answer := [] } with ⟨_ | goesOn, s'⟩
          · rw [outcome] at ends
            exact ends.elim
          · rw [outcome] at ends
            obtain ⟨shape', running', undone⟩ := ends
            cases goesOn with
            | true =>
                dsimp only
                refine ⟨by simpa only [Invariant, running', if_true] using shape', ?_⟩
                rintro _ - - explicit error
                obtain ⟨finished, restored⟩ := undone explicit error
                exact ⟨finished, (shape'.unstarted (shape'.notStarted finished)).2, restored⟩
            | false =>
                have closed := closeSession_closed shape' orderly.1
                dsimp only
                constructor
                · simp only [Invariant, closed.stopped, closed.inTxn, closed.txnStarted]
                  exact ⟨closed.gone, closed.unlocked, fun started => (shape'.started started).1⟩
                · rintro _ - - explicit ⟨code, message, sent⟩
                  rw [closed.answer] at sent
                  obtain ⟨finished, restored⟩ := undone explicit ⟨code, message, sent⟩
                  refine ⟨closed.inTxn.trans finished, closed.gone, ?_⟩
                  rw [closed.untouched (shape'.notStarted finished), restored]
      | hangup fates =>
          have closed := closeSession_closed shape orderly
          refine ⟨?_, fun _ never => by cases never⟩
          simp only [step, running, if_true, Invariant, closed.stopped, closed.inTxn, closed.txnStarted]
          exact ⟨closed.gone, closed.unlocked, fun started => (shape.started started).1⟩
      | others contents =>
          refine ⟨?_, fun _ never => by cases never⟩
          simp only [step]
          split
          · rename_i free
            simp only [Invariant, running, if_true]
            exact ⟨shape.begun, fun started => by simp [(shape.started started).2.1] at free,
              fun _ => free⟩
          · simpa only [Invariant, running, if_true] using shape

/-- Along every orderly run of a connection the session keeps its promises. -/
theorem orderly_run_keeps {s : SessionCtx σ} {events : List (Event σ)} (connected : Connected s)
    (orderly : Throughout Orderly s events) : Throughout KeepsPromise s events := by
  have invariant := connected.invariant
  clear connected
  induction events generalizing s with
  | nil => trivial
  | cons e events inductionHypothesis =>
      obtain ⟨kept, promise⟩ := step_keeps invariant orderly.1
      exact ⟨promise, inductionHypothesis orderly.2 kept⟩

/-! ## Two runs -/

/-- A session that has just connected to a database holding `contents`. -/
def connect (contents : σ) : SessionCtx σ where
  db := ⟨⟨contents, none⟩, 0, false⟩

theorem connect_connected (contents : σ) : Connected (connect contents) :=
  ⟨rfl, rfl, rfl, rfl, rfl⟩

/-- A request whose calls all return: the statement leaves `contents`. -/
def calm (text : String) (stmt : SQLStatement) (contents : σ) (result : ExecResult) : Request σ where
  text := text
  parse := .ok (.ok (some stmt))
  execute _ _ := ⟨contents, false, .ok result⟩
  fates := {}

/-- An INSERT in an explicit transaction, then one that raises, then a COMMIT
with no transaction left to commit. -/
def failedInsertRun : List (Event Nat) :=
  [.request (calm "BEGIN" .begin 0 ⟨false, .begin, 0⟩),
    .request (calm "INSERT" .insert 1 ⟨false, .insert, 1⟩),
    .request { calm "INSERT" .insert 2 ⟨false, .insert, 1⟩ with
      execute := fun _ _ => ⟨2, false, .error (.dbError .arithError "整型除零")⟩ },
    .request (calm "COMMIT" .commit 0 ⟨false, .commit, 0⟩)]

theorem orderly_run_keeps_failed_insert :
    Throughout KeepsPromise (connect 0) failedInsertRun ∧
      (failedInsertRun.foldl step (connect 0)).db.engine.committed = 0 := by
  refine ⟨orderly_run_keeps (connect_connected 0) ?_, rfl⟩
  simp [failedInsertRun, Throughout, Orderly, calm]

/-- An INSERT in an explicit transaction, then a SELECT an operator of which
raises while its rows are streamed, then a COMMIT. -/
def failedStreamRun : List (Event Nat) :=
  [.request (calm "BEGIN" .begin 0 ⟨false, .begin, 0⟩),
    .request (calm "INSERT" .insert 1 ⟨false, .insert, 1⟩),
    .request { calm "SELECT" .select 1 ⟨true, .empty, 0⟩ with
      streaming := .raised (.dbError .arithError "整型除零") },
    .request (calm "COMMIT" .commit 0 ⟨false, .commit, 0⟩)]

/-- The SELECT is answered with an error, its transaction stays, and the COMMIT
makes the INSERT durable. -/
theorem not_keeps_failed_stream :
    Connected (connect 0) ∧ ¬ Throughout KeepsPromise (connect 0) failedStreamRun ∧
      (failedStreamRun.foldl step (connect 0)).db.engine = ⟨1, none⟩ := by
  refine ⟨connect_connected 0, ?_, rfl⟩
  rintro ⟨-, -, ⟨-, undone⟩, -⟩
  have rolledBack := undone _ rfl rfl rfl ⟨.arithError, "整型除零", by decide⟩
  exact absurd rolledBack.finished (by decide)

end MySimpleDb.Server.Session
