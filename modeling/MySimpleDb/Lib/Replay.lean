import Mathlib.Data.List.Basic
import Mathlib.Logic.Function.Basic

/-!
# Replaying a part of a list of steps first

Steps on one cell of a state, some of which overwrite it.  If the others are
idempotent and commute with one another, a run over a state that a part of the
same steps has been applied to already ends as the run without it.
-/

namespace MySimpleDb.Lib.Replay

variable {V : Type}

/-- The steps one after another. -/
def run (steps : List (V → V)) (v : V) : V :=
  steps.foldl (fun v step => step v) v

/-- What a step leaves does not depend on what it finds. -/
def Overwrites (step : V → V) : Prop :=
  ∀ v w, step v = step w

/-- Every step overwrites the cell, or may be repeated and moved past every other that
does not overwrite it. -/
def Repeatable (steps : List (V → V)) : Prop :=
  ∀ f ∈ steps, Overwrites f ∨ (∀ v, f (f v) = f v) ∧
    ∀ g ∈ steps, Overwrites g ∨ ∀ v, g (f v) = f (g v)

variable {steps part : List (V → V)}

@[simp]
theorem run_nil (v : V) : run [] v = v :=
  rfl

@[simp]
theorem run_cons (f : V → V) (v : V) : run (f :: steps) v = run steps (f v) :=
  rfl

theorem run_append (more : List (V → V)) (v : V) :
    run (steps ++ more) v = run more (run steps v) :=
  List.foldl_append

/-- After a step that overwrites the cell, what it held before does not matter. -/
theorem run_of_overwrites {f : V → V} (mem : f ∈ steps) (overwrites : Overwrites f) (v w : V) :
    run steps v = run steps w := by
  obtain ⟨before, after, split⟩ := List.append_of_mem mem
  rw [split, run_append, run_append, run_cons, run_cons]
  exact congrArg (run after) (overwrites _ _)

theorem run_commute {f : V → V} (commutes : ∀ g ∈ steps, ∀ v, g (f v) = f (g v)) (v : V) :
    run steps (f v) = f (run steps v) := by
  induction steps generalizing v with
  | nil => rfl
  | cons g steps inductionHypothesis =>
      rw [run_cons, run_cons, commutes g List.mem_cons_self v]
      apply inductionHypothesis
      exact fun g mem => commutes g (List.mem_cons_of_mem _ mem)

/-- One of the steps taken first makes no difference. -/
theorem run_of_step (repeatable : Repeatable steps) {f : V → V} (mem : f ∈ steps) (v : V) :
    run steps (f v) = run steps v := by
  by_cases overwritten : ∃ g ∈ steps, Overwrites g
  · obtain ⟨g, g_mem, overwrites⟩ := overwritten
    exact run_of_overwrites g_mem overwrites _ _
  · have keeps : ∀ g ∈ steps, ¬ Overwrites g := fun g g_mem overwrites =>
      overwritten ⟨g, g_mem, overwrites⟩
    obtain ⟨idempotent, commutes⟩ := (repeatable f mem).resolve_left (keeps f mem)
    have commutes : ∀ g ∈ steps, ∀ v, g (f v) = f (g v) := fun g g_mem =>
      (commutes g g_mem).resolve_left (keeps g g_mem)
    obtain ⟨before, after, split⟩ := List.append_of_mem mem
    have commutes_before : ∀ g ∈ before, ∀ v, g (f v) = f (g v) := fun g g_mem =>
      commutes g (split ▸ List.mem_append_left _ g_mem)
    rw [split, run_append, run_append, run_cons, run_cons, run_commute commutes_before,
      idempotent]

/-- A part of the steps taken first, in any order, makes no difference. -/
theorem run_again (repeatable : Repeatable steps) (among : ∀ f ∈ part, f ∈ steps) (v : V) :
    run steps (run part v) = run steps v := by
  induction part generalizing v with
  | nil => rfl
  | cons f part inductionHypothesis =>
      rw [run_cons, inductionHypothesis (fun g mem => among g (List.mem_cons_of_mem _ mem))]
      exact run_of_step repeatable (among f List.mem_cons_self) v

end MySimpleDb.Lib.Replay
