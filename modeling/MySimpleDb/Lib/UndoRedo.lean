import Mathlib.Data.List.Basic
import Mathlib.Logic.Basic

/-!
# Undo and redo

Changes of a memory, each with what the locations that it covers held before and
hold after.  Whatever mixture of old and new values is left of a memory, redoing the
changes that are to stay and undoing the others, the last one first, gives the
memory after the first alone, as long as locations that no change covers were left
alone and each change to be undone had found what it says.
-/

namespace MySimpleDb.Lib.UndoRedo

variable {Loc V : Type}

/-- A change of the locations that it covers. -/
structure Change (Loc V : Type) where
  covers : Loc → Prop
  before : Loc → V
  after : Loc → V

open Classical in
noncomputable def Change.redo (c : Change Loc V) (m : Loc → V) : Loc → V := fun l =>
  if c.covers l then c.after l else m l

open Classical in
noncomputable def Change.undo (c : Change Loc V) (m : Loc → V) : Loc → V := fun l =>
  if c.covers l then c.before l else m l

noncomputable def redoAll (cs : List (Change Loc V)) (m : Loc → V) : Loc → V :=
  cs.foldl (fun m c => c.redo m) m

/-- The last change is undone first. -/
noncomputable def undoAll (cs : List (Change Loc V)) (m : Loc → V) : Loc → V :=
  cs.foldr (fun c m => c.undo m) m

def Touched (cs : List (Change Loc V)) (l : Loc) : Prop :=
  ∃ c ∈ cs, c.covers l

/-- Each change finds what it says was there before. -/
def Chained : List (Change Loc V) → (Loc → V) → Prop
  | [], _ => True
  | c :: cs, m => (∀ l, c.covers l → c.before l = m l) ∧ Chained cs (c.redo m)

variable {c : Change Loc V} {cs ds done unfinished : List (Change Loc V)} {m m' q base : Loc → V}
  {l : Loc}

@[simp]
theorem redoAll_nil : redoAll [] m = m :=
  rfl

@[simp]
theorem redoAll_cons : redoAll (c :: cs) m = redoAll cs (c.redo m) :=
  rfl

theorem redoAll_append : redoAll (cs ++ ds) m = redoAll ds (redoAll cs m) :=
  List.foldl_append

@[simp]
theorem undoAll_nil : undoAll [] m = m :=
  rfl

@[simp]
theorem undoAll_cons : undoAll (c :: cs) m = c.undo (undoAll cs m) :=
  rfl

theorem touched_cons : Touched (c :: cs) l ↔ c.covers l ∨ Touched cs l := by
  simp [Touched]

theorem touched_append : Touched (cs ++ ds) l ↔ Touched cs l ∨ Touched ds l := by
  simp only [Touched, List.mem_append, or_and_right, exists_or]

theorem Change.redo_of_covers (covers : c.covers l) : c.redo m l = c.after l :=
  if_pos covers

theorem Change.redo_of_uncovered (uncovered : ¬ c.covers l) : c.redo m l = m l :=
  if_neg uncovered

theorem Change.undo_of_covers (covers : c.covers l) : c.undo m l = c.before l :=
  if_pos covers

theorem Change.undo_of_uncovered (uncovered : ¬ c.covers l) : c.undo m l = m l :=
  if_neg uncovered

/-- What is redone does not depend on what a location held, if a change covers it. -/
theorem redoAll_congr (same : Touched cs l ∨ m l = m' l) : redoAll cs m l = redoAll cs m' l := by
  induction cs generalizing m m' with
  | nil =>
      rcases same with ⟨c, mem, -⟩ | same
      · cases mem
      · exact same
  | cons c cs inductionHypothesis =>
      rw [redoAll_cons, redoAll_cons]
      apply inductionHypothesis
      by_cases covers : c.covers l
      · right
        rw [Change.redo_of_covers covers, Change.redo_of_covers covers]
      · rw [Change.redo_of_uncovered covers, Change.redo_of_uncovered covers]
        rw [touched_cons] at same
        exact same.imp (fun covered => covered.resolve_left covers) id

theorem redoAll_of_uncovered (uncovered : ¬ Touched cs l) : redoAll cs m l = m l := by
  induction cs generalizing m with
  | nil => rfl
  | cons c cs inductionHypothesis =>
      rw [touched_cons, not_or] at uncovered
      rw [redoAll_cons, inductionHypothesis uncovered.2, Change.redo_of_uncovered uncovered.1]

theorem chained_append : Chained (cs ++ ds) m ↔ Chained cs m ∧ Chained ds (redoAll cs m) := by
  induction cs generalizing m with
  | nil => exact ⟨fun chained => ⟨trivial, chained⟩, And.right⟩
  | cons c cs inductionHypothesis =>
      simp only [List.cons_append, Chained, inductionHypothesis, redoAll_cons, and_assoc]

/-- Undoing a chain gives the memory that it started on, over any memory that is as that
one where nothing is undone. -/
theorem undoAll_chained (chained : Chained cs m) (same : ¬ Touched cs l → q l = m l) :
    undoAll cs q l = m l := by
  induction cs generalizing m with
  | nil =>
      apply same
      rintro ⟨c, mem, -⟩
      cases mem
  | cons c cs inductionHypothesis =>
      rw [undoAll_cons]
      by_cases covers : c.covers l
      · rw [Change.undo_of_covers covers]
        exact chained.1 l covers
      · rw [Change.undo_of_uncovered covers]
        have unchanged := Change.redo_of_uncovered (m := m) covers
        rw [← unchanged]
        apply inductionHypothesis chained.2
        intro uncovered
        rw [unchanged]
        exact same fun covered => (touched_cons.mp covered).elim covers uncovered

theorem undoAll_redoAll (chained : Chained cs m) : undoAll cs (redoAll cs m) = m :=
  funext fun _ => undoAll_chained chained redoAll_of_uncovered

/-- Recovery of any mixture of old and new values. -/
theorem recovered (chained : Chained unfinished (redoAll done base))
    (same : ∀ l, ¬ Touched (done ++ unfinished) l → q l = base l) :
    undoAll unfinished (redoAll done q) = redoAll done base := by
  funext l
  apply undoAll_chained chained
  intro finished
  apply redoAll_congr
  by_cases covered : Touched done l
  · exact .inl covered
  · right
    apply same
    intro some_covers
    exact (touched_append.mp some_covers).elim covered finished

end MySimpleDb.Lib.UndoRedo
