/-!
# Calls that return or fail as allowed

A judgement on fallible calls that speaks of both exits: the result satisfies a
postcondition, or the error is one of those allowed.
-/

namespace MySimpleDb.Lib

variable {ε α β : Type} {allowed : ε → Prop}

/-- The call returns a value satisfying `post`, or fails with an allowed error. -/
def Within (allowed : ε → Prop) (r : Except ε α) (post : α → Prop) : Prop :=
  match r with
  | .ok a => post a
  | .error e => allowed e

theorem Within.ok {post : α → Prop} {a : α} (holds : post a) :
    Within allowed (.ok a) post :=
  holds

theorem Within.error {post : α → Prop} {e : ε} (fits : allowed e) :
    Within allowed (.error e) post :=
  fits

/-- Sequencing: the continuation only runs on results of the first call. -/
theorem Within.bind {x : Except ε α} {f : α → Except ε β} {mid : α → Prop} {post : β → Prop}
    (first : Within allowed x mid) (next : ∀ a, mid a → Within allowed (f a) post) :
    Within allowed (x >>= f) post := by
  cases x with
  | error e => exact first
  | ok a => exact next a first

theorem Within.mono {r : Except ε α} {post weaker : α → Prop} (within : Within allowed r post)
    (implies : ∀ a, post a → weaker a) : Within allowed r weaker := by
  cases r with
  | error e => exact within
  | ok a => exact implies a within

/-- Whatever holds of every result can be added to the postcondition. -/
theorem Within.and_of_ok {r : Except ε α} {post extra : α → Prop} (within : Within allowed r post)
    (returned : ∀ a, r = .ok a → extra a) :
    Within allowed r fun a => post a ∧ extra a := by
  cases r with
  | error e => exact within
  | ok a => exact ⟨within, returned a rfl⟩

/-- A failing guard is an allowed error; behind it the condition is false. -/
theorem Within.guard {c : Prop} [Decidable c] {fail r : Except ε α} {post : α → Prop}
    (fails : c → Within allowed fail post) (rest : ¬ c → Within allowed r post) :
    Within allowed (if c then fail else r) post := by
  by_cases holds : c
  · rw [if_pos holds]
    exact fails holds
  · rw [if_neg holds]
    exact rest holds

end MySimpleDb.Lib
