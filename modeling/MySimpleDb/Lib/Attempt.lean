import Mathlib.Logic.Basic

/-!
# Computations that keep their state when they raise

A computation changes a state and returns or raises; what it did to the state
before raising stays.  `Ends` is its weakest precondition, with one
postcondition for each exit.
-/

namespace MySimpleDb.Lib

/-- A computation on the state `σ` that may raise errors in `ε`. -/
abbrev Attempt (σ ε α : Type) : Type :=
  ExceptT ε (StateM σ) α

namespace Attempt

variable {σ τ ε α β : Type}

/-- The exit taken from the state `s`, and the state left. -/
def exit (x : Attempt σ ε α) (s : σ) : Except ε α × σ :=
  x.run.run s

/-- Run a computation on a part of the state. -/
def onPart (part : σ → τ) (put : τ → σ → σ) (x : Attempt τ ε α) : Attempt σ ε α :=
  ExceptT.mk fun s => ((x.exit (part s)).1, put (x.exit (part s)).2 s)

/-- Started in `s`, the computation returns as `returned` says or raises as
`raised` says. -/
def Ends (x : Attempt σ ε α) (s : σ) (returned : α → σ → Prop) (raised : ε → σ → Prop) : Prop :=
  match x.exit s with
  | (.ok a, s') => returned a s'
  | (.error e, s') => raised e s'

variable {s : σ} {returned : α → σ → Prop} {raised : ε → σ → Prop}

@[simp]
theorem ends_pure {a : α} : Ends (pure a) s returned raised ↔ returned a s :=
  Iff.rfl

@[simp]
theorem ends_throw {e : ε} : Ends (throw e) s returned raised ↔ raised e s :=
  Iff.rfl

/-- Sequencing: an error of the first part skips the second. -/
@[simp]
theorem ends_bind {x : Attempt σ ε α} {f : α → Attempt σ ε β} {returned : β → σ → Prop} :
    Ends (x >>= f) s returned raised ↔
      Ends x s (fun a s' => Ends (f a) s' returned raised) raised := by
  simp only [Ends, exit, ExceptT.run_bind, StateT.run_bind]
  rcases x.run.run s with ⟨_ | _, s'⟩ <;> rfl

@[simp]
theorem ends_map {x : Attempt σ ε α} {f : α → β} {returned : β → σ → Prop} :
    Ends (f <$> x) s returned raised ↔ Ends x s (fun a => returned (f a)) raised := by
  rw [map_eq_pure_bind, ends_bind]
  simp only [ends_pure]

/-- Catching: the handler starts in the state the error left. -/
@[simp]
theorem ends_tryCatch {x : Attempt σ ε α} {handler : ε → Attempt σ ε α} :
    Ends (tryCatch x handler) s returned raised ↔
      Ends x s returned fun e s' => Ends (handler e) s' returned raised := by
  simp only [Ends, exit, tryCatch, tryCatchThe, MonadExceptOf.tryCatch, ExceptT.tryCatch,
    ExceptT.run, ExceptT.mk, StateT.run_bind]
  rcases StateT.run x s with ⟨_ | _, s'⟩ <;> rfl

@[simp]
theorem ends_get {returned : σ → σ → Prop} :
    Ends (get : Attempt σ ε σ) s returned raised ↔ returned s s :=
  Iff.rfl

@[simp]
theorem ends_modify {f : σ → σ} {returned : Unit → σ → Prop} :
    Ends (modify f : Attempt σ ε Unit) s returned raised ↔ returned () (f s) :=
  Iff.rfl

@[simp]
theorem ends_ite {c : Prop} [Decidable c] {x y : Attempt σ ε α} :
    Ends (if c then x else y) s returned raised ↔
      if c then Ends x s returned raised else Ends y s returned raised := by
  split <;> rfl

@[simp]
theorem ends_onPart {part : σ → τ} {put : τ → σ → σ} {x : Attempt τ ε α} :
    Ends (onPart part put x) s returned raised ↔
      Ends x (part s) (fun a t => returned a (put t s)) (fun e t => raised e (put t s)) := by
  change (match ((x.exit (part s)).1, put (x.exit (part s)).2 s) with
    | (.ok a, s') => returned a s'
    | (.error e, s') => raised e s') ↔ _
  simp only [Ends]
  rcases x.exit (part s) with ⟨_ | _, s'⟩ <;> rfl

theorem Ends.mono {x : Attempt σ ε α} {returned' : α → σ → Prop} {raised' : ε → σ → Prop}
    (ends : Ends x s returned raised) (onReturn : ∀ a s', returned a s' → returned' a s')
    (onRaise : ∀ e s', raised e s' → raised' e s') : Ends x s returned' raised' := by
  unfold Ends at *
  split at ends
  · exact onReturn _ _ ends
  · exact onRaise _ _ ends

theorem Ends.and {x : Attempt σ ε α} {returned' : α → σ → Prop} {raised' : ε → σ → Prop}
    (ends : Ends x s returned raised) (ends' : Ends x s returned' raised') :
    Ends x s (fun a s' => returned a s' ∧ returned' a s') fun e s' => raised e s' ∧ raised' e s' := by
  unfold Ends at *
  split at ends <;> simp_all

/-- What a computation that is made to return leaves behind. -/
theorem Ends.state {x : Attempt σ ε α} {post : σ → Prop}
    (ends : Ends x s (fun _ => post) fun _ => post) : post (x.exit s).2 := by
  unfold Ends at ends
  split at ends <;> simp_all

theorem Ends.state_of_returned {x : Attempt σ ε α} {post : σ → Prop}
    (ends : Ends x s (fun _ => post) fun _ _ => False) : post (x.exit s).2 :=
  (ends.mono (fun _ _ => id) fun _ _ => False.elim).state

theorem Ends.of_exit {x : Attempt σ ε α} {a : α} {s' : σ} (exited : x.exit s = (.ok a, s'))
    (holds : returned a s') : Ends x s returned raised := by
  unfold Ends
  rw [exited]
  exact holds

/-- The exit of a computation that only returns. -/
theorem Ends.exits {x : Attempt σ ε α} (ends : Ends x s returned fun _ _ => False) :
    ∃ a s', x.exit s = (.ok a, s') ∧ returned a s' := by
  unfold Ends at ends
  split at ends
  · rename_i a s' exited
    exact ⟨a, s', exited, ends⟩
  · exact ends.elim

theorem Ends.of_returned {x : Attempt σ ε α} {a : α} (ends : Ends x s returned raised)
    (exited : (x.exit s).1 = .ok a) : returned a (x.exit s).2 := by
  unfold Ends at ends
  split at ends <;> simp_all

/-- A computation returns where no error can be raised. -/
theorem Ends.returns {x : Attempt σ ε α} (ends : Ends x s returned raised)
    (never : ∀ e s', ¬ raised e s') : ∃ a, (x.exit s).1 = .ok a := by
  unfold Ends at ends
  split at ends
  · rename_i a s' exited
    exact ⟨a, congrArg Prod.fst exited⟩
  · exact absurd ends (never _ _)

end Attempt

end MySimpleDb.Lib
