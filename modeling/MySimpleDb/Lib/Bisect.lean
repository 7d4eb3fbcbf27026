import Mathlib.Data.List.TakeWhile
import Mathlib.Order.Basic

/-!
# Binary search

The least index of a range at which a predicate that holds on an initial part
of the range has stopped holding.
-/

namespace MySimpleDb.Lib

/-- Halve `[lo, hi)` until it is empty, keeping what is `before` to its left. -/
def bisect (before : Nat → Bool) (lo hi : Nat) : Nat :=
  if lo < hi then
    let mid := lo + (hi - lo) / 2
    if before mid then bisect before (mid + 1) hi else bisect before lo mid
  else lo
termination_by hi - lo

theorem bisect_eq {before : Nat → Bool} {lo hi cut : Nat}
    (holds : ∀ i, i < cut → before i = true)
    (stops : ∀ i, cut ≤ i → i < hi → before i = false)
    (lo_le : lo ≤ cut) (le_hi : cut ≤ hi) : bisect before lo hi = cut := by
  fun_induction bisect before lo hi with
  | case1 lo hi nonempty mid isBefore ih =>
      apply ih stops _ le_hi
      by_contra beyond
      have := stops mid (by omega) (by omega)
      simp [this] at isBefore
  | case2 lo hi nonempty mid isAfter ih =>
      have cut_le : cut ≤ mid := by
        by_contra beyond
        exact isAfter (holds mid (by omega))
      exact ih (fun i le lt => stops i le (by omega)) lo_le cut_le
  | case3 lo hi isEmpty => omega

/-- In a sorted list the search finds the end of the part below a bound. -/
theorem bisect_takeWhile {α : Type} {xs : List α} {below : α → Bool} {before : Nat → Bool}
    (reads : ∀ i, (h : i < xs.length) → before i = below xs[i])
    (sorted : xs.Pairwise fun a b => below b = true → below a = true) :
    bisect before 0 xs.length = (xs.takeWhile below).length := by
  have len_le : (xs.takeWhile below).length ≤ xs.length :=
    (List.takeWhile_sublist _).length_le
  apply bisect_eq _ _ (Nat.zero_le _) len_le
  · intro i lt
    have inList : i < xs.length := by omega
    rw [reads i inList]
    have mem : (xs.takeWhile below)[i] ∈ xs.takeWhile below := List.getElem_mem lt
    have holds := List.mem_takeWhile_imp mem
    rwa [(List.takeWhile_prefix below).getElem lt] at holds
  · intro i le lt
    rw [reads i lt]
    have cut_lt : (xs.takeWhile below).length < xs.length := by omega
    have stop : below xs[(xs.takeWhile below).length] = false := by
      have split : xs = xs.takeWhile below ++ xs.dropWhile below :=
        List.takeWhile_append_dropWhile.symm
      have nonempty : 0 < (xs.dropWhile below).length := by
        have lengths := congrArg List.length split
        rw [List.length_append] at lengths
        omega
      have head := List.dropWhile_get_zero_not below xs nonempty
      rw [List.getElem_of_eq split cut_lt, List.getElem_append_right (Nat.le_refl _)]
      simpa using head
    rcases Nat.eq_or_lt_of_le le with rfl | lt'
    · exact stop
    · by_contra isBelow
      have ordered := List.pairwise_iff_getElem.mp sorted _ i cut_lt lt lt'
      rw [ordered (by simpa using isBelow)] at stop
      cases stop

end MySimpleDb.Lib
