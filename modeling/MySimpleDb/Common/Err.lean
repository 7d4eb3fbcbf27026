/-!
# Errors

`DB_RAISE` throws a `DbError` that callers may catch; `DB_CRITICAL` and
`DB_CRASH` end the process.
-/

namespace MySimpleDb

/-- Error codes of a `DbError`. -/
inductive ErrCode
  | ioError | catalogMissing | catalogExists | invalidType | tableNotFound
  | tableExists | schemaNotFound | schemaExists | schemaNotEmpty | indexExists
  | indexNotFound | protectedTable | invalidDdl | valueMismatch | recordTooLong
  | arithError | unknownColumn | unknownVar | unknownFunction | invalidVarValue
  | unknownStmt | notImplemented | internal | syntaxError | txnActive
  | noActiveTxn | ddlInTxn | bootstrapMode | tooManyClients | starNoFrom
deriving DecidableEq, Repr

/-- The ways a call leaves other than by returning. -/
inductive Err
  | raise (code : ErrCode) (text : String)
  | critical (text : String)
  | crash (text : String)
deriving DecidableEq, Repr

/-- Result of a call that may raise. -/
abbrev Res (α : Type) : Type := Except Err α

/-- `DB_RAISE`. -/
def dbRaise {α : Type} (code : ErrCode) (text : String) : Res α :=
  .error (.raise code text)

/-- `DB_CRITICAL`. -/
def dbCritical {α : Type} (text : String) : Res α :=
  .error (.critical text)

/-! ## Inverting calls that returned -/

theorem Res.bind_eq_ok {α β : Type} {x : Res α} {f : α → Res β} {b : β} :
    (x >>= f) = .ok b ↔ ∃ a, x = .ok a ∧ f a = .ok b := by
  cases x <;> simp [bind, Except.bind]

theorem Res.pure_eq_ok {α : Type} {a b : α} : (pure a : Res α) = .ok b ↔ a = b := by
  simp [pure, Except.pure]

@[simp]
theorem Res.bind_ok {α β : Type} (a : α) (f : α → Res β) :
    ((.ok a : Res α) >>= f) = f a :=
  rfl

@[simp]
theorem dbRaise_ne_ok {α : Type} {code : ErrCode} {text : String} {a : α} :
    (dbRaise code text : Res α) ≠ .ok a := by
  simp [dbRaise]

@[simp]
theorem dbRaise_bind_ne_ok {α β : Type} {code : ErrCode} {text : String} {f : α → Res β}
    {b : β} : (dbRaise code text >>= f) ≠ .ok b := by
  simp [dbRaise, bind, Except.bind]

end MySimpleDb
