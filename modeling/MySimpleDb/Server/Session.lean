import MySimpleDb.Catalog.Txn
import MySimpleDb.Server.ResultStream

/-!
# One client's session

The loop that takes one request after another: transaction control, session
variables, and statements run in a transaction of their own or in the explicit
one.  Parsing and executing are left open: a request says what became of them.
-/

namespace MySimpleDb.Server.Session

open MySimpleDb.Lib MySimpleDb.Txn

/-! ## Statements -/

/-- `SetValueForm`. -/
inductive SetValueForm
  | int | ident | str
deriving DecidableEq, Repr

/-- `SetStmt`. -/
structure SetStmt where
  varName : String
  value : String
  form : SetValueForm
deriving DecidableEq, Repr

/-- The kinds of statements, with what the session itself reads of them. -/
inductive SQLStatement
  | createTable | dropTable | createSchema | dropSchema | createIndex | dropIndex
  | insert | delete | update | select | selectNoFrom
  | explain (inner : SQLStatement)
  | set (ss : SetStmt)
  | begin | commit | rollback
deriving DecidableEq, Repr

/-- `txn_forbidden_stmt`: DDL and SET, also when explained. -/
def txnForbiddenStmt : SQLStatement → Bool
  | .createTable | .dropTable | .createSchema | .dropSchema | .createIndex | .dropIndex
  | .set _ => true
  | .explain inner => txnForbiddenStmt inner
  | .insert | .delete | .update | .select | .selectNoFrom | .begin | .commit | .rollback => false

/-- The statements whose execution can register files for removal. -/
def registersDrops : SQLStatement → Bool
  | .dropTable | .dropIndex => true
  | _ => false

/-! ## Replies -/

/-- `CommandTag`. -/
inductive CommandTag
  | empty | createTable | dropTable | insert | delete | createSchema | dropSchema
  | set | begin | commit | rollback | createIndex | dropIndex | update
deriving DecidableEq, Repr

/-- `tag_log_name`. -/
def tagLogName : CommandTag → String
  | .empty => "EMPTY"
  | .createTable => "CREATE"
  | .dropTable => "DROP"
  | .createSchema => "CREATE_SCHEMA"
  | .dropSchema => "DROP_SCHEMA"
  | .createIndex => "CREATE_INDEX"
  | .dropIndex => "DROP_INDEX"
  | .insert => "INSERT"
  | .delete => "DELETE"
  | .update => "UPDATE"
  | .set => "SET"
  | .begin => "BEGIN"
  | .commit => "COMMIT"
  | .rollback => "ROLLBACK"

/-- The frames of a reply; the rows of a result set are not told apart here. -/
inductive Reply
  | ok (tag : CommandTag) (count : Nat)
  | error (code : ErrCode) (message : String)
  | notice (level : LogLevel) (message : String)
  | resultSetHead
  | resultSetBatches
  | resultSetEnd (total : Nat)
deriving DecidableEq, Repr

/-- `levelToString`. -/
def levelToString : LogLevel → String
  | .debug5 => "DEBUG5"
  | .debug4 => "DEBUG4"
  | .debug3 => "DEBUG3"
  | .debug2 => "DEBUG2"
  | .debug => "DEBUG"
  | .info => "INFO"
  | .notice => "NOTICE"
  | .warning => "WARNING"
  | .error => "ERROR"
  | .critical => "CRITICAL"

/-- `levelFromString`: level names in any case. -/
def levelFromString (name : String) : Option LogLevel :=
  [.debug5, .debug4, .debug3, .debug2, .debug, .info, .notice, .warning, .error, .critical].find?
    fun level => name.toLower = (levelToString level).toLower

/-! ## Requests -/

/-- `ExecResult`: a command tag with its count, or an opened result set. -/
structure ExecResult where
  isResultSet : Bool
  tag : CommandTag := .empty
  count : Nat := 0
deriving DecidableEq, Repr

/-- What executing a statement did: the contents it left, whether it registered
files for removal, and how it ended. -/
structure Execution (σ : Type) where
  contents : σ
  drops : Bool := false
  outcome : Except Exn ExecResult

/-- How pulling the rows of a result set ended: all sent, the client gone, or
an error raised by an operator. -/
inductive Streaming
  | sent (total : Nat)
  | cut
  | raised (e : Exn)
deriving DecidableEq, Repr

/-- One request, with what becomes of the calls made while it is handled; an
entry matters only if its call is made. -/
structure Request (σ : Type) where
  text : String
  parse : Except Exn (Except String (Option SQLStatement))
  execute : String → σ → Execution σ
  streaming : Streaming := .sent 0
  fates : Fates σ

/-! ## The session -/

/-- `SessionCtx`, the frames sent since the request at hand was read, and
whether the loop still runs. -/
structure SessionCtx (σ : Type) where
  db : Catalog σ
  inTxn : Bool := false
  txnStarted : Bool := false
  clientMsgLevel : LogLevel := .info
  currentSchema : String := "public"
  answer : List Reply := []
  running : Bool := true
deriving DecidableEq, Repr

variable {σ : Type}

/-- An action of the session. -/
abbrev Act (σ α : Type) : Type :=
  Attempt (SessionCtx σ) Exn α

def onDb (x : Attempt (Catalog σ) Exn Unit) : Act σ Unit :=
  Attempt.onPart SessionCtx.db (fun c s => { s with db := c }) x

/-- A frame goes out; that the client is gone is only noticed later. -/
def sendFrame (frame : Reply) : Act σ Unit :=
  modify fun s => { s with answer := s.answer ++ [frame] }

def sendError (code : ErrCode) (message : String) : Act σ Unit :=
  sendFrame (.error code message)

def sendNotice (msgLevel : LogLevel) (message : String) : Act σ Unit := do
  let s ← get
  if msgLevel.rank < s.clientMsgLevel.rank then pure ()
  else sendFrame (.notice msgLevel message)

/-- `false` when the client is gone. -/
def sendResultStream : Streaming → Act σ Bool
  | .cut => do
      sendFrame .resultSetHead
      pure false
  | .raised e => do
      sendFrame .resultSetHead
      sendFrame .resultSetBatches
      throw e
  | .sent total => do
      sendFrame .resultSetHead
      sendFrame .resultSetBatches
      sendNotice .debug ("执行结果: 返回 " ++ toString total ++ " 行")
      sendFrame (.resultSetEnd total)
      pure true

/-- The engine is called only if its transaction exists; the flags are reset. -/
def rollbackSessionTxn (fates : Fates σ) : Act σ Unit := do
  let s ← get
  if s.txnStarted then do
    onDb (Catalog.rollbackTxn fates)
    modify fun s => { s with txnStarted := false }
  modify fun s => { s with inTxn := false }

/-- `false` when the session is to end. -/
def recvQuery (text : String) : Act σ Bool := do
  sendNotice .debug ("收到 SQL: " ++ text)
  pure (!(text = "quit" || text = "exit"))

/-- BEGIN: the engine is not asked yet. -/
def handleBegin (fates : Fates σ) : Act σ Unit := do
  let s ← get
  if s.db.bootstrapMode then sendError .bootstrapMode "bootstrap 模式不允许 BEGIN"
  else if s.inTxn then do
    rollbackSessionTxn fates
    sendError .txnActive "事务已在进行中, 嵌套 BEGIN 已拒绝, 外层事务已回滚"
  else do
    modify fun s => { s with inTxn := true }
    sendFrame (.ok .begin 0)

/-- COMMIT and ROLLBACK, by the catalog call each makes: the flags are reset
before the call. -/
def handleEnd (tag : CommandTag) (finish : Attempt (Catalog σ) Exn Unit) : Act σ Unit := do
  let s ← get
  if s.inTxn then do
    modify fun s => { s with inTxn := false }
    if s.txnStarted then do
      modify fun s => { s with txnStarted := false }
      onDb finish
    sendFrame (.ok tag 0)
  else sendError .noActiveTxn (tagLogName tag ++ ": 无活动事务")

/-- `handle_session_set`; `false` when the variable is not one of the session. -/
def handleSessionSet (ss : SetStmt) : Act σ Bool :=
  if ss.varName = "client_msg_level" then
    match levelFromString ss.value with
    | none => do
        sendError .invalidVarValue ("client_msg_level 值非法: " ++ ss.value)
        pure true
    | some level => do
        modify fun s => { s with clientMsgLevel := level }
        sendNotice .debug ("client_msg_level = " ++ levelToString level)
        sendFrame (.ok .set 0)
        pure true
  else if ss.varName = "current_schema" then
    if ss.form = .int ∨ ss.value = "" then do
      sendError .invalidVarValue ("current_schema 值非法: " ++ ss.value)
      pure true
    else do
      modify fun s => { s with currentSchema := ss.value }
      sendNotice .debug ("current_schema = " ++ ss.value)
      sendFrame (.ok .set 0)
      pure true
  else if ss.varName = "server_log_level" then
    -- the threshold of the server's own log is no part of the session
    match levelFromString ss.value with
    | none => do
        sendError .invalidVarValue ("server_log_level 值非法: " ++ ss.value)
        pure true
    | some level => do
        sendNotice .debug ("server_log_level = " ++ levelToString level)
        sendFrame (.ok .set 0)
        pure true
  else pure false

/-- `exec::execute` on the engine's contents.  It always runs in a transaction;
without one the engine would refuse every change. -/
def execute (stmt : SQLStatement) (run : String → σ → Execution σ) : Act σ ExecResult := do
  let s ← get
  match s.db.engine.txn with
  | none => throw (.dbError .internal "持久化原语须在活动事务内调用")
  | some t => do
      let done := run s.currentSchema s.db.engine.contents
      modify fun s => { s with db := { s.db with engine :=
        ⟨done.contents, some { t with
          pendingDrops := t.pendingDrops || (registersDrops stmt && done.drops) }⟩ } }
      match done.outcome with
      | .error e => throw e
      | .ok result => pure result

/-- The rollback after a failed execution: the message to answer with. -/
def rollbackFailed (fates : Fates σ) (e : Exn) : Act σ String := do
  onDb (Catalog.rollbackTxn fates)
  let s ← get
  if s.inTxn then do
    modify fun s => { s with inTxn := false, txnStarted := false }
    pure (e.what ++ ", 事务已回滚")
  else pure e.what

/-- A statement outside an explicit transaction is committed at once. -/
def autoCommit (fates : Fates σ) : Act σ Unit := do
  let s ← get
  if s.inTxn then pure () else onDb (Catalog.commitTxn fates)

/-- The number of rows in a notice, if there is any. -/
def countText (count : Nat) : String :=
  if 0 < count then " " ++ toString count else ""

/-- The rows, or the command tag with its count; `false` when the client is
gone. -/
def sendResult (streaming : Streaming) (result : ExecResult) : Act σ Bool :=
  if result.isResultSet then sendResultStream streaming
  else do
    sendNotice .debug ("执行结果: " ++ tagLogName result.tag ++ countText result.count)
    sendFrame (.ok result.tag result.count)
    pure true

/-- The transaction a statement runs in is begun: its own, or the explicit one
at its first statement. -/
def openTxn (fates : Fates σ) : Act σ Unit := do
  let s ← get
  if s.inTxn then
    if s.txnStarted then pure ()
    else do
      onDb (Catalog.beginTxn fates)
      modify fun s => { s with txnStarted := true }
  else onDb (Catalog.beginTxn fates)

/-- `exec_statement`; `false` when the client is gone. -/
def execStatement (stmt : SQLStatement) (r : Request σ) : Act σ Bool := do
  openTxn r.fates
  let result ← tryCatch (some <$> execute stmt r.execute) fun e => do
    let err ← rollbackFailed r.fates e
    match e with
    | .dbError code _ => do
        sendError code err
        pure none
    | .other _ => throw (.dbError .internal ("SQL执行异常: " ++ err))
  match result with
  | none => pure true
  | some result => do
      autoCommit r.fates
      sendResult r.streaming result

/-- One parsed statement on its way; `false` ends the session. -/
def dispatch (stmt : SQLStatement) (r : Request σ) : Act σ Bool := do
  let s ← get
  match stmt with
  | .begin => do
      handleBegin r.fates
      pure true
  | .commit => do
      handleEnd .commit (Catalog.commitTxn r.fates)
      pure true
  | .rollback => do
      handleEnd .rollback (Catalog.rollbackTxn r.fates)
      pure true
  | stmt =>
      if s.inTxn && txnForbiddenStmt stmt then do
        rollbackSessionTxn r.fates
        sendError .ddlInTxn "事务内不允许 DDL 或 SET 语句, 事务已回滚"
        pure true
      else
        match stmt with
        | .set ss => do
            if ← handleSessionSet ss then pure true
            else execStatement stmt r
        | stmt => execStatement stmt r

/-- The body of the loop without its handlers; `false` ends the session. -/
def handleRequest (r : Request σ) : Act σ Bool := do
  if ← recvQuery r.text then
    match r.parse with
    | .error e => throw e
    | .ok (.error parseError) => do
        let s ← get
        if s.inTxn then do
          rollbackSessionTxn r.fates
          sendError .syntaxError (parseError ++ ", 事务已回滚")
        else sendError .syntaxError parseError
        pure true
    | .ok (.ok parsed) => do
        sendNotice .debug ("解析成功: " ++ r.text)
        match parsed with
        | none => do
            sendFrame (.ok .empty 0)
            pure true
        | some stmt => dispatch stmt r
  else pure false

/-- The body of the loop: whatever is raised is answered. -/
def serve (r : Request σ) : Act σ Bool :=
  tryCatch (handleRequest r) fun e => do
    match e with
    | .dbError code text => sendError code text
    | .other what => sendError .internal what
    pure true

/-- After the loop: what is left of a transaction is rolled back. -/
def closeSession (fates : Fates σ) : Act σ Unit := do
  let s ← get
  if s.txnStarted then
    tryCatch (onDb (Catalog.rollbackTxn fates)) fun _ => pure ()
  modify fun s => { s with running := false }

/-! ## Runs -/

/-- What can happen next: a request, the end of the connection, or commits of
other sessions. -/
inductive Event (σ : Type)
  | request (r : Request σ)
  | hangup (fates : Fates σ)
  | others (contents : σ)

/-- One event; a session that has ended takes no more, and other sessions need
the lock to change anything. -/
def step (s : SessionCtx σ) : Event σ → SessionCtx σ
  | .request r =>
      let s := { s with answer := [] }
      if s.running then
        match (serve r).exit s with
        | (.ok true, s) => s
        | (_, s) => ((closeSession r.fates).exit s).2
      else s
  | .hangup fates => if s.running then ((closeSession fates).exit s).2 else s
  | .others contents =>
      if s.db.locks = 0 ∧ s.db.engine.txn = none then
        { s with db := { s.db with engine := { s.db.engine with contents := contents } } }
      else s

/-- A relation between states and events holds at every step of a run. -/
def Throughout (holds : SessionCtx σ → Event σ → Prop) :
    SessionCtx σ → List (Event σ) → Prop
  | _, [] => True
  | s, e :: events => holds s e ∧ Throughout holds (step s e) events

end MySimpleDb.Server.Session
