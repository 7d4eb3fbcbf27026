import Mathlib.Logic.Basic

/-!
# Programs over an interface

A program makes calls of an interface and goes on with what each returned, be
it a result or an error.  Its meaning is relative to a semantics of the
interface, a relation that may leave several outcomes open; one program can so
be run against an implementation and against the contract of its callees.
-/

namespace MySimpleDb.Lib

/-- An interface: its calls and the type of the result of each. -/
structure Interface where
  Call : Type
  Result : Call → Type

/-- A program over the interface `I` that raises errors in `ε`. -/
inductive Prog (I : Interface) (ε α : Type) : Type
  | done (result : Except ε α)
  | call (c : I.Call) (next : Except ε (I.Result c) → Prog I ε α)

namespace Prog

variable {I : Interface} {ε α β : Type}

/-- Sequencing; an error skips what follows. -/
def bind : Prog I ε α → (α → Prog I ε β) → Prog I ε β
  | .done (.ok a), f => f a
  | .done (.error e), _ => .done (.error e)
  | .call c next, f => .call c fun r => bind (next r) f

instance : Monad (Prog I ε) where
  pure a := .done (.ok a)
  bind := bind

/-- Raise an error. -/
def raise (e : ε) : Prog I ε α :=
  .done (.error e)

/-- Run a fallible pure computation. -/
def lift (r : Except ε α) : Prog I ε α :=
  .done r

/-- One call; its error is raised. -/
def perform (c : I.Call) : Prog I ε (I.Result c) :=
  .call c .done

/-- Run `p` and let `handler` go on after an error of it. -/
def catchError : Prog I ε α → (ε → Prog I ε α) → Prog I ε α
  | .done (.ok a), _ => .done (.ok a)
  | .done (.error e), handler => handler e
  | .call c next, handler => .call c fun r => catchError (next r) handler

/-! ## Runs -/

/-- What each call may return and the state it may leave. -/
abbrev Semantics (I : Interface) (ε σ : Type) : Type :=
  (c : I.Call) → σ → Except ε (I.Result c) → σ → Prop

variable {σ τ : Type}

/-- `p` started in `s` may end with `r` in `s'`. -/
def Runs (sem : Semantics I ε σ) : Prog I ε α → σ → Except ε α → σ → Prop
  | .done r, s, r', s' => r' = r ∧ s' = s
  | .call c next, s, r', s' =>
      ∃ r middle, sem c s r middle ∧ Runs sem (next r) middle r' s'

/-- Every run of `p` from `s` ends as `post` says. -/
def Ensures (sem : Semantics I ε σ) (p : Prog I ε α) (s : σ)
    (post : Except ε α → σ → Prop) : Prop :=
  ∀ r s', Runs sem p s r s' → post r s'

/-- Every run of `p` from `s` returns a result, as `post` says. -/
def Returns (sem : Semantics I ε σ) (p : Prog I ε α) (s : σ)
    (post : α → σ → Prop) : Prop :=
  Ensures sem p s fun r s' => ∃ a, r = .ok a ∧ post a s'

variable {sem : Semantics I ε σ}

@[simp]
theorem runs_done {r r' : Except ε α} {s s' : σ} :
    Runs sem (.done r) s r' s' ↔ r' = r ∧ s' = s :=
  Iff.rfl

@[simp]
theorem runs_pure {a : α} {r : Except ε α} {s s' : σ} :
    Runs sem (pure a) s r s' ↔ r = .ok a ∧ s' = s :=
  Iff.rfl

@[simp]
theorem runs_raise {e : ε} {r : Except ε α} {s s' : σ} :
    Runs sem (raise e) s r s' ↔ r = .error e ∧ s' = s :=
  Iff.rfl

theorem runs_call {c : I.Call} {next : Except ε (I.Result c) → Prog I ε α}
    {r' : Except ε α} {s s' : σ} :
    Runs sem (.call c next) s r' s' ↔
      ∃ r middle, sem c s r middle ∧ Runs sem (next r) middle r' s' :=
  Iff.rfl

@[simp]
theorem runs_perform {c : I.Call} {r : Except ε (I.Result c)} {s s' : σ} :
    Runs sem (perform c) s r s' ↔ sem c s r s' := by
  simp [perform, runs_call]

/-- A run of a sequence: the first part raises, or it returns and the rest
runs on. -/
theorem runs_bind {p : Prog I ε α} {f : α → Prog I ε β} {s s' : σ}
    {r : Except ε β} :
    Runs sem (p >>= f) s r s' ↔
      (∃ e, Runs sem p s (.error e) s' ∧ r = .error e) ∨
      (∃ a middle, Runs sem p s (.ok a) middle ∧ Runs sem (f a) middle r s') := by
  change Runs sem (bind p f) s r s' ↔ _
  induction p generalizing s with
  | done result =>
      cases result with
      | ok a =>
          simp only [bind, runs_done]
          constructor
          · intro run
            exact Or.inr ⟨a, s, ⟨rfl, rfl⟩, run⟩
          · rintro (⟨e, ⟨absurdEq, -⟩, -⟩ | ⟨a', middle, ⟨same, rfl⟩, run⟩)
            · cases absurdEq
            · cases same
              exact run
      | error e =>
          simp only [bind, runs_done]
          constructor
          · rintro ⟨rfl, rfl⟩
            exact Or.inl ⟨e, ⟨rfl, rfl⟩, rfl⟩
          · rintro (⟨e', ⟨same, rfl⟩, rfl⟩ | ⟨a, middle, ⟨absurdEq, -⟩, -⟩)
            · cases same
              exact ⟨rfl, rfl⟩
            · cases absurdEq
  | call c next ih =>
      simp only [bind, runs_call, ih]
      constructor
      · rintro ⟨r0, first, step, (⟨e, run, rfl⟩ | ⟨a, middle, run, rest⟩)⟩
        · exact Or.inl ⟨e, ⟨r0, first, step, run⟩, rfl⟩
        · exact Or.inr ⟨a, middle, ⟨r0, first, step, run⟩, rest⟩
      · rintro (⟨e, ⟨r0, first, step, run⟩, rfl⟩ | ⟨a, middle, ⟨r0, first, step, run⟩, rest⟩)
        · exact ⟨r0, first, step, Or.inl ⟨e, run, rfl⟩⟩
        · exact ⟨r0, first, step, Or.inr ⟨a, middle, run, rest⟩⟩

/-! ## Rules -/

theorem Ensures.mono {p : Prog I ε α} {s : σ} {post post' : Except ε α → σ → Prop}
    (ensures : Ensures sem p s post) (le : ∀ r s', post r s' → post' r s') :
    Ensures sem p s post' :=
  fun r s' run => le r s' (ensures r s' run)

theorem Returns.mono {p : Prog I ε α} {s : σ} {post post' : α → σ → Prop}
    (returns : Returns sem p s post) (le : ∀ a s', post a s' → post' a s') :
    Returns sem p s post' := by
  intro r s' run
  rcases returns r s' run with ⟨a, rfl, holds⟩
  exact ⟨a, rfl, le a s' holds⟩

theorem Returns.pure {a : α} {s : σ} {post : α → σ → Prop} (holds : post a s) :
    Returns sem (Pure.pure a : Prog I ε α) s post := by
  rintro r s' ⟨rfl, rfl⟩
  exact ⟨a, rfl, holds⟩

theorem Returns.bind {p : Prog I ε α} {f : α → Prog I ε β} {s : σ}
    {post : β → σ → Prop}
    (first : Returns sem p s fun a middle => Returns sem (f a) middle post) :
    Returns sem (p >>= f) s post := by
  intro r s' run
  rcases runs_bind.mp run with ⟨e, failed, rfl⟩ | ⟨a, middle, returned, rest⟩
  · rcases first (.error e) s' failed with ⟨a, absurdEq, -⟩
    cases absurdEq
  · rcases first (.ok a) middle returned with ⟨a', same, returns⟩
    cases same
    exact returns r s' rest

theorem Returns.perform {c : I.Call} {s : σ} {post : I.Result c → σ → Prop}
    (step : ∀ r s', sem c s r s' → ∃ a, r = .ok a ∧ post a s') :
    Returns sem (Prog.perform c) s post :=
  fun r s' run => step r s' (runs_perform.mp run)

/-- A loop over a list keeps what every turn of it keeps. -/
theorem Returns.forM {ι : Type} {body : ι → Prog I ε PUnit} (inv : List ι → σ → Prop)
    (items : List ι)
    (turn : ∀ before x after s, items = before ++ x :: after → inv before s →
      Returns sem (body x) s fun _ s' => inv (before ++ [x]) s')
    {s : σ} (start : inv [] s) :
    Returns sem (items.forM body) s fun _ s' => inv items s' := by
  suffices general : ∀ (after before : List ι) (s : σ), items = before ++ after →
      inv before s → Returns sem (after.forM body) s fun _ s' => inv items s' from
    general items [] s rfl start
  intro after
  induction after with
  | nil =>
      intro before s split holds
      rw [List.append_nil] at split
      exact Returns.pure (split ▸ holds)
  | cons x after ih =>
      intro before s split holds
      apply Returns.bind
      apply (turn before x after s split holds).mono
      intro _ s' holds'
      exact ih (before ++ [x]) s' (by simpa using split) holds'

/-! ## Simulation -/

/-- Every outcome of a call that `low` allows is one that `high` allows, from
related states to related states. -/
def Simulates (rel : σ → τ → Prop) (low : Semantics I ε σ) (high : Semantics I ε τ) :
    Prop :=
  ∀ c s t r s', rel s t → low c s r s' → ∃ t', high c t r t' ∧ rel s' t'

/-- Calls that simulate make programs that simulate. -/
theorem Simulates.runs {rel : σ → τ → Prop} {low : Semantics I ε σ}
    {high : Semantics I ε τ} (simulates : Simulates rel low high) (p : Prog I ε α)
    {s s' : σ} {t : τ} {r : Except ε α} (related : rel s t) (run : Runs low p s r s') :
    ∃ t', Runs high p t r t' ∧ rel s' t' := by
  induction p generalizing s t with
  | done result =>
      rcases run with ⟨rfl, rfl⟩
      exact ⟨t, ⟨rfl, rfl⟩, related⟩
  | call c next ih =>
      rcases run with ⟨r0, middle, step, rest⟩
      rcases simulates c s t r0 middle related step with ⟨t0, step', related'⟩
      rcases ih r0 related' rest with ⟨t', rest', related''⟩
      exact ⟨t', ⟨r0, t0, step', rest'⟩, related''⟩

/-! ## Programs that handle no error -/

/-- The program makes calls of one kind only and ends with the first error of one. -/
def Plain (allowed : I.Call → Prop) : Prog I ε α → Prop
  | .done _ => True
  | .call c next =>
      allowed c ∧ (∀ e, next (.error e) = .done (.error e)) ∧ ∀ a, Plain allowed (next (.ok a))

section Plain

variable {allowed : I.Call → Prop}

theorem Plain.pure (a : α) : Plain allowed (Pure.pure a : Prog I ε α) :=
  trivial

theorem Plain.raise (e : ε) : Plain allowed (Prog.raise e : Prog I ε α) :=
  trivial

theorem Plain.perform {c : I.Call} (fine : allowed c) :
    Plain allowed (Prog.perform c : Prog I ε (I.Result c)) :=
  ⟨fine, fun _ => rfl, fun _ => trivial⟩

theorem Plain.bind {p : Prog I ε α} {f : α → Prog I ε β} (first : Plain allowed p)
    (rest : ∀ a, Plain allowed (f a)) : Plain allowed (p >>= f) := by
  change Plain allowed (Prog.bind p f)
  induction p with
  | done result =>
      cases result with
      | ok a => exact rest a
      | error e => trivial
  | call c next inductionHypothesis =>
      refine ⟨first.1, fun e => ?_, fun a => inductionHypothesis _ (first.2.2 a)⟩
      change Prog.bind (next (.error e)) f = _
      rw [first.2.1 e]
      rfl

theorem Plain.ite {c : Prop} [Decidable c] {p q : Prog I ε α} (yes : Plain allowed p)
    (no : Plain allowed q) : Plain allowed (if c then p else q) := by
  split
  · exact yes
  · exact no

theorem Plain.forM {ι : Type} {body : ι → Prog I ε PUnit} (each : ∀ x, Plain allowed (body x))
    (items : List ι) : Plain allowed (items.forM body) := by
  induction items with
  | nil => exact Plain.pure _
  | cons x items inductionHypothesis => exact (each x).bind fun _ => inductionHypothesis

/-- What such a program does over a contract, it does over an implementation whose calls
keep to the contract, or make a call of which the contract says nothing. -/
theorem Plain.returns [Nonempty ε] {rel : σ → τ → Prop} {low : Semantics I ε σ}
    {high : Semantics I ε τ}
    (step : ∀ c s t r s', allowed c → rel s t → low c s r s' →
      (∃ t', high c t r t' ∧ rel s' t') ∨ ∀ r t', high c t r t')
    {p : Prog I ε α} (plain : Plain allowed p) {s : σ} {t : τ} {post : α → τ → Prop}
    (related : rel s t) (returns : Returns high p t post) :
    Returns low p s fun a s' => ∃ t', rel s' t' ∧ post a t' := by
  induction p generalizing s t with
  | done result =>
      rintro r s' ⟨rfl, rfl⟩
      obtain ⟨a, rfl, holds⟩ := returns _ t ⟨rfl, rfl⟩
      exact ⟨a, rfl, t, related, holds⟩
  | call c next inductionHypothesis =>
      obtain ⟨fine, fails, rest⟩ := plain
      have never : ∀ e t', ¬ high c t (.error e) t' := by
        intro e t' failed
        have ends : Runs high (.call c next) t (.error e) t' := by
          refine ⟨_, t', failed, ?_⟩
          rw [fails e]
          exact ⟨rfl, rfl⟩
        obtain ⟨a, absurdEq, -⟩ := returns _ _ ends
        cases absurdEq
      rintro r s' ⟨r₀, middle, called, run⟩
      rcases step c s t r₀ middle fine related called with ⟨t', called', related'⟩ | wild
      · cases r₀ with
        | error e => exact absurd called' (never e t')
        | ok a =>
            refine inductionHypothesis _ (rest a) related' ?_ r s' run
            exact fun r s' run => returns r s' ⟨_, t', called', run⟩
      · obtain ⟨e⟩ := ‹Nonempty ε›
        exact absurd (wild _ t) (never e t)

end Plain

end Prog

end MySimpleDb.Lib
