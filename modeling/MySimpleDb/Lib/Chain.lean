import Mathlib.Data.List.Basic
import Mathlib.Data.List.Pairwise
import Mathlib.Data.List.Nodup

/-!
# Chains of numbered items

Items that follow one another and are looked up by number, as the pages of a
file are: an item, and the number of its successor, 0 at the end.
-/

namespace MySimpleDb.Lib.Chain

variable {α : Type} (no : α → Nat)

/-- The item of a number. -/
def find (items : List α) (n : Nat) : Option α :=
  items.find? fun a => no a = n

/-- The number of the first item, 0 without one. -/
def head (items : List α) : Nat :=
  (items.head?.map no).getD 0

/-- The number of the successor of an item. -/
def next (items : List α) (n : Nat) : Nat :=
  head no ((items.dropWhile fun a => no a ≠ n).drop 1)

variable {no} {items before after : List α} {a : α}

theorem before_ne (distinct : (items.map no).Nodup) (split : items = before ++ a :: after) {b : α}
    (mem : b ∈ before) : no b ≠ no a := by
  rw [split, List.map_append, List.nodup_append'] at distinct
  intro same
  exact distinct.2.2 (List.mem_map_of_mem mem) (same ▸ List.mem_map_of_mem (List.mem_cons_self ..))

theorem find_eq (distinct : (items.map no).Nodup) (split : items = before ++ a :: after) :
    find no items (no a) = some a := by
  rw [find, split, List.find?_append, List.find?_eq_none.mpr]
  · simp
  · intro b mem
    simpa using before_ne distinct split mem

theorem next_eq (distinct : (items.map no).Nodup) (split : items = before ++ a :: after) :
    next no items (no a) = head no after := by
  have skipped : items.dropWhile (fun b => decide (no b ≠ no a)) = a :: after := by
    rw [split, List.dropWhile_append_of_pos]
    · simp
    · intro b mem
      simpa using before_ne distinct split mem
  rw [next, skipped, List.drop_one, List.tail_cons]

end MySimpleDb.Lib.Chain
