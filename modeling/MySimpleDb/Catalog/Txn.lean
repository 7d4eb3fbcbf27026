import MySimpleDb.Lib.Attempt
import MySimpleDb.Common.Err

/-!
# Transactions of the engine and the catalog

The engine has at most one transaction; the catalog holds its global lock from
the begin of a transaction to its end.  What the pages hold is left abstract,
and so is what the calls below this layer do when they fail.
-/

namespace MySimpleDb.Txn

open MySimpleDb.Lib

/-- What a handler of the server can catch. -/
inductive Exn
  | dbError (code : ErrCode) (text : String)
  | other (what : String)
deriving DecidableEq, Repr

/-- What `what()` says. -/
def Exn.what : Exn → String
  | .dbError _ text => text
  | .other what => what

/-- The active transaction: the contents its undo lists restore, and whether
files wait to be removed. -/
structure TxnContext (σ : Type) where
  undo : σ
  pendingDrops : Bool
deriving DecidableEq, Repr

/-- The engine: what its pages hold, and `txn_`. -/
structure Engine (σ : Type) where
  contents : σ
  txn : Option (TxnContext σ)
deriving DecidableEq, Repr

/-- What the calls below this layer do when they are made: each may raise, and
a failing rollback leaves the contents half restored. -/
structure Fates (σ : Type) where
  begin : Option Exn := none
  unlink : Option Exn := none
  restore : Option (Exn × σ) := none
  walFull : Bool := false
  flush : Option Exn := none

variable {σ : Type}

/-- Raise if the call fails. -/
def raiseIf {τ : Type} : Option Exn → Attempt τ Exn Unit
  | none => pure ()
  | some x => throw x

@[simp]
theorem ends_raiseIf {τ : Type} {failure : Option Exn} {t : τ} {returned : Unit → τ → Prop}
    {raised : Exn → τ → Prop} :
    (raiseIf failure).Ends t returned raised ↔
      match failure with
      | none => returned () t
      | some e => raised e t := by
  cases failure <;> rfl

/-! ## The engine -/

namespace Engine

/-- The contents the committed transactions gave. -/
def committed (e : Engine σ) : σ :=
  match e.txn with
  | none => e.contents
  | some t => t.undo

def beginTxn (fates : Fates σ) : Attempt (Engine σ) Exn Unit := do
  let e ← get
  if e.txn.isSome then throw (.dbError .internal "已有活动事务")
  else do
    raiseIf fates.begin
    modify fun e => { e with txn := some ⟨e.contents, false⟩ }

/-- The `Commit` record is on disk before the dropped files are removed. -/
def commitTxn (fates : Fates σ) : Attempt (Engine σ) Exn Unit := do
  let e ← get
  match e.txn with
  | none => throw (.dbError .internal "无活动事务")
  | some t =>
      if t.pendingDrops then raiseIf fates.unlink
      modify fun e => { e with txn := none }

def rollbackTxn (fates : Fates σ) : Attempt (Engine σ) Exn Unit := do
  let e ← get
  match e.txn with
  | none => throw (.dbError .internal "无活动事务")
  | some t =>
      match fates.restore with
      | some (x, left) => do
          modify fun e => { e with contents := left }
          throw x
      | none => modify fun _ => ⟨t.undo, none⟩

def checkpoint (fates : Fates σ) : Attempt (Engine σ) Exn Unit := do
  let e ← get
  if e.txn.isSome then throw (.dbError .internal "检查点不能在活动事务内执行")
  else raiseIf fates.flush

end Engine

/-! ## The catalog -/

/-- The catalog as one session's thread sees it: `locks` counts how often this
thread holds `mutex_`. -/
structure Catalog (σ : Type) where
  engine : Engine σ
  locks : Nat
  bootstrapMode : Bool
deriving DecidableEq, Repr

namespace Catalog

def onEngine {α : Type} (x : Attempt (Engine σ) Exn α) : Attempt (Catalog σ) Exn α :=
  Attempt.onPart Catalog.engine (fun e c => { c with engine := e }) x

def unlock : Attempt (Catalog σ) Exn Unit :=
  modify fun c => { c with locks := c.locks - 1 }

/-- The guard that adopts the lock and gives it back on every exit. -/
def adoptLock (x : Attempt (Catalog σ) Exn Unit) : Attempt (Catalog σ) Exn Unit := do
  tryCatch x fun e => do
    unlock
    throw e
  unlock

def beginTxn (fates : Fates σ) : Attempt (Catalog σ) Exn Unit := do
  modify fun c => { c with locks := c.locks + 1 }
  tryCatch (onEngine (Engine.beginTxn fates)) fun e => do
    unlock
    throw e

/-- A failed commit is rolled back; the log is emptied when it is full. -/
def commitTxn (fates : Fates σ) : Attempt (Catalog σ) Exn Unit :=
  adoptLock do
    tryCatch (onEngine (Engine.commitTxn fates)) fun e => do
      let c ← get
      if c.engine.txn.isSome then onEngine (Engine.rollbackTxn fates)
      throw e
    if fates.walFull then onEngine (Engine.checkpoint fates)

def rollbackTxn (fates : Fates σ) : Attempt (Catalog σ) Exn Unit :=
  adoptLock (onEngine (Engine.rollbackTxn fates))

/-! ## What each call leaves -/

variable {c : Catalog σ} {fates : Fates σ} {undo : σ} {drops : Bool}
  {returned : Unit → Catalog σ → Prop} {raised : Exn → Catalog σ → Prop}

/-- The catalog after its transaction has ended with the contents given. -/
def ended (c : Catalog σ) (contents : σ) : Catalog σ :=
  { c with engine := ⟨contents, none⟩, locks := c.locks - 1 }

/-- A begin takes the lock and keeps it unless the engine raises. -/
theorem beginTxn_ends (idle : c.engine.txn = none) :
    (beginTxn fates).Ends c returned raised ↔
      match fates.begin with
      | none => returned () { c with
          engine := ⟨c.engine.contents, some ⟨c.engine.contents, false⟩⟩, locks := c.locks + 1 }
      | some e => raised e c := by
  cases outcome : fates.begin <;>
    simp [beginTxn, onEngine, Engine.beginTxn, unlock, idle, outcome]

/-- A rollback that restores every page gives the lock back. -/
theorem rollbackTxn_ends (active : c.engine.txn = some ⟨undo, drops⟩)
    (restores : fates.restore = none) :
    (rollbackTxn fates).Ends c returned raised ↔ returned () (ended c undo) := by
  simp [rollbackTxn, adoptLock, onEngine, Engine.rollbackTxn, unlock, active, restores, ended]

/-- A commit raises after a rollback, or after the commit when emptying the log
fails. -/
theorem commitTxn_ends (active : c.engine.txn = some ⟨undo, drops⟩)
    (restores : fates.restore = none) :
    (commitTxn fates).Ends c returned raised ↔
      match if drops then fates.unlink else none with
      | some e => raised e (ended c undo)
      | none =>
          match if fates.walFull then fates.flush else none with
          | some e => raised e (ended c c.engine.contents)
          | none => returned () (ended c c.engine.contents) := by
  cases removal : if drops then fates.unlink else none with
  | some e =>
      have raises : drops = true ∧ fates.unlink = some e := by simpa using removal
      simp [commitTxn, adoptLock, onEngine, Engine.commitTxn, Engine.rollbackTxn, unlock, active,
        restores, raises, ended]
  | none =>
      cases drops <;> cases full : fates.walFull <;> cases emptying : fates.flush <;>
        simp_all [commitTxn, adoptLock, onEngine, Engine.commitTxn, Engine.checkpoint, unlock, ended]

end Catalog

end MySimpleDb.Txn
