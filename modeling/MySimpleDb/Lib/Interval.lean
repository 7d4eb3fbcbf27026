import Mathlib.Order.Basic
import Mathlib.Order.Defs.LinearOrder
import Mathlib.Order.Lattice
import Mathlib.Data.List.Basic
import Mathlib.Data.List.Pairwise
import Mathlib.Data.Option.Basic

/-!
# Intervals with optional, open or closed ends

Intersection of intervals over a linear order, computed by keeping the tighter
of two ends, and intersection of lists of intervals.  A list whose intervals
follow one another stays so under intersection, which is what lets a scan emit
the members in order and each once.
-/

namespace MySimpleDb.Lib

universe u

/-- An end of an interval. -/
structure Bound (α : Type u) where
  key : α
  inclusive : Bool := true
deriving DecidableEq

/-- An interval; an absent end is unbounded. -/
structure KeyInterval (α : Type u) where
  lo : Option (Bound α) := none
  hi : Option (Bound α) := none
deriving DecidableEq

namespace KeyInterval

variable {α : Type u} [LinearOrder α]

/-- `x` is not excluded by the lower end `b`. -/
def Above (b : Bound α) (x : α) : Prop :=
  b.key < x ∨ (b.key = x ∧ b.inclusive = true)

/-- `x` is not excluded by the upper end `b`. -/
def Below (b : Bound α) (x : α) : Prop :=
  x < b.key ∨ (x = b.key ∧ b.inclusive = true)

/-- Nothing lies at or under the upper end `hi` and at or over the lower end
`lo`. -/
def Apart (hi lo : Bound α) : Prop :=
  hi.key < lo.key ∨ (hi.key = lo.key ∧ ¬(hi.inclusive = true ∧ lo.inclusive = true))

/-- Membership. -/
def Mem (r : KeyInterval α) (x : α) : Prop :=
  (∀ b ∈ r.lo, Above b x) ∧ (∀ b ∈ r.hi, Below b x)

/-- The lower end lies beyond the upper end. -/
def Crossed (r : KeyInterval α) : Prop :=
  ∃ hi ∈ r.hi, ∃ lo ∈ r.lo, Apart hi lo

/-- Every member of `r` lies before every member of `s`. -/
def Before (r s : KeyInterval α) : Prop :=
  ∃ hi ∈ r.hi, ∃ lo ∈ s.lo, Apart hi lo

theorem Apart.not_both {hi lo : Bound α} (apart : Apart hi lo) {x y : α}
    (below : Below hi x) (above : Above lo y) (le : y ≤ x) : False := by
  rcases below with below | ⟨rfl, hi_incl⟩ <;>
    rcases above with above | ⟨rfl, lo_incl⟩ <;>
      rcases apart with apart | ⟨same, open_end⟩
  · exact absurd (lt_trans below (lt_trans apart above)) (not_lt.mpr le)
  · exact absurd (lt_trans below (same ▸ above)) (not_lt.mpr le)
  · exact absurd (lt_trans below apart) (not_lt.mpr le)
  · exact absurd below (not_lt.mpr (same ▸ le))
  · exact absurd (lt_trans apart above) (not_lt.mpr le)
  · exact absurd (same ▸ above) (not_lt.mpr le)
  · exact absurd apart (not_lt.mpr le)
  · exact open_end ⟨hi_incl, lo_incl⟩

/-- Members of intervals that follow one another are in strict order. -/
theorem Before.lt {r s : KeyInterval α} (before : Before r s) {x y : α}
    (x_mem : r.Mem x) (y_mem : s.Mem y) : x < y := by
  rcases before with ⟨hi, hi_mem, lo, lo_mem, apart⟩
  by_contra not_before
  exact apart.not_both (x_mem.2 hi hi_mem) (y_mem.1 lo lo_mem) (not_lt.mp not_before)

/-! ## Tighter ends -/

/-- The tighter lower end: the larger key, and on equal keys the open end. -/
def tighterLo (a b : Option (Bound α)) : Option (Bound α) :=
  match a, b with
  | some a, some b =>
      if b.key < a.key then some a
      else if a.key < b.key then some b
      else if a.inclusive then some b else some a
  | some a, none => some a
  | none, b => b

/-- The tighter upper end: the smaller key, and on equal keys the open end. -/
def tighterHi (a b : Option (Bound α)) : Option (Bound α) :=
  match a, b with
  | some a, some b =>
      if a.key < b.key then some a
      else if b.key < a.key then some b
      else if a.inclusive then some b else some a
  | some a, none => some a
  | none, b => b

theorem above_tighterLo (a b : Option (Bound α)) (x : α) :
    (∀ c ∈ tighterLo a b, Above c x) ↔
      (∀ c ∈ a, Above c x) ∧ (∀ c ∈ b, Above c x) := by
  rcases a with _ | ⟨a, aIncl⟩
  · simp [tighterLo]
  rcases b with _ | ⟨b, bIncl⟩
  · simp [tighterLo]
  simp only [tighterLo, Above]
  rcases lt_trichotomy a b with lt | rfl | gt
  · simp only [not_lt_of_gt lt, lt, if_true, if_false, Option.mem_def,
      Option.some.injEq, forall_eq']
    constructor
    · intro above
      refine ⟨?_, above⟩
      rcases above with above | ⟨rfl, -⟩
      · exact Or.inl (lt_trans lt above)
      · exact Or.inl lt
    · exact And.right
  · cases aIncl <;> cases bIncl <;> simp <;> tauto
  · simp only [gt, if_true, Option.mem_def, Option.some.injEq, forall_eq']
    constructor
    · intro above
      refine ⟨above, ?_⟩
      rcases above with above | ⟨rfl, -⟩
      · exact Or.inl (lt_trans gt above)
      · exact Or.inl gt
    · exact And.left

theorem below_tighterHi (a b : Option (Bound α)) (x : α) :
    (∀ c ∈ tighterHi a b, Below c x) ↔
      (∀ c ∈ a, Below c x) ∧ (∀ c ∈ b, Below c x) := by
  rcases a with _ | ⟨a, aIncl⟩
  · simp [tighterHi]
  rcases b with _ | ⟨b, bIncl⟩
  · simp [tighterHi]
  simp only [tighterHi, Below]
  rcases lt_trichotomy a b with lt | rfl | gt
  · simp only [lt, if_true, Option.mem_def, Option.some.injEq, forall_eq']
    constructor
    · intro below
      refine ⟨below, ?_⟩
      rcases below with below | ⟨rfl, -⟩
      · exact Or.inl (lt_trans below lt)
      · exact Or.inl lt
    · exact And.left
  · cases aIncl <;> cases bIncl <;> simp <;> tauto
  · simp only [not_lt_of_gt gt, gt, if_true, if_false, Option.mem_def,
      Option.some.injEq, forall_eq']
    constructor
    · intro below
      refine ⟨?_, below⟩
      rcases below with below | ⟨rfl, -⟩
      · exact Or.inl (lt_trans below gt)
      · exact Or.inl gt
    · exact And.right

/-- Tightening a lower end keeps it apart from what lies below it. -/
theorem apart_tighterLo {hi lo : Bound α} {a b : Option (Bound α)}
    (apart : Apart hi lo) (lo_mem : lo ∈ a) :
    ∃ lo' ∈ tighterLo a b, Apart hi lo' := by
  obtain rfl : a = some lo := lo_mem
  rcases b with _ | ⟨b, bIncl⟩
  · exact ⟨lo, by simp [tighterLo], apart⟩
  rcases lo with ⟨lo, loIncl⟩
  simp only [tighterLo]
  rcases lt_trichotomy lo b with lt | rfl | gt
  · refine ⟨⟨b, bIncl⟩, by simp [not_lt_of_gt lt, lt], Or.inl ?_⟩
    rcases apart with apart | ⟨same, -⟩
    · exact lt_trans apart lt
    · exact same ▸ lt
  · cases loIncl
    · exact ⟨⟨lo, false⟩, by simp, apart⟩
    · refine ⟨⟨lo, bIncl⟩, by simp, ?_⟩
      rcases apart with apart | ⟨same, open_end⟩
      · exact Or.inl apart
      · exact Or.inr ⟨same, fun both => open_end ⟨both.1, rfl⟩⟩
  · exact ⟨⟨lo, loIncl⟩, by simp [gt], apart⟩

/-- Tightening an upper end keeps it apart from what lies above it. -/
theorem apart_tighterHi {hi lo : Bound α} {a b : Option (Bound α)}
    (apart : Apart hi lo) (hi_mem : hi ∈ a) :
    ∃ hi' ∈ tighterHi a b, Apart hi' lo := by
  obtain rfl : a = some hi := hi_mem
  rcases b with _ | ⟨b, bIncl⟩
  · exact ⟨hi, by simp [tighterHi], apart⟩
  rcases hi with ⟨hi, hiIncl⟩
  simp only [tighterHi]
  rcases lt_trichotomy hi b with lt | rfl | gt
  · exact ⟨⟨hi, hiIncl⟩, by simp [lt], apart⟩
  · cases hiIncl
    · exact ⟨⟨hi, false⟩, by simp, apart⟩
    · refine ⟨⟨hi, bIncl⟩, by simp, ?_⟩
      rcases apart with apart | ⟨same, open_end⟩
      · exact Or.inl apart
      · exact Or.inr ⟨same, fun both => open_end ⟨rfl, both.2⟩⟩
  · refine ⟨⟨b, bIncl⟩, by simp [not_lt_of_gt gt, gt], Or.inl ?_⟩
    rcases apart with apart | ⟨same, -⟩
    · exact lt_trans gt apart
    · exact same ▸ gt

theorem apart_tighterLo_right {hi : Bound α} {a b : Option (Bound α)} {lo : Bound α}
    (apart : Apart hi lo) (lo_mem : lo ∈ b) : ∃ lo' ∈ tighterLo a b, Apart hi lo' := by
  obtain rfl : b = some lo := lo_mem
  rcases a with _ | ⟨a, aIncl⟩
  · exact ⟨lo, by simp [tighterLo], apart⟩
  rcases lo with ⟨lo, loIncl⟩
  simp only [tighterLo]
  rcases lt_trichotomy a lo with lt | rfl | gt
  · exact ⟨⟨lo, loIncl⟩, by simp [not_lt_of_gt lt, lt], apart⟩
  · cases aIncl
    · refine ⟨⟨a, false⟩, by simp, ?_⟩
      rcases apart with apart | ⟨same, -⟩
      · exact Or.inl apart
      · exact Or.inr ⟨same, fun both => Bool.false_ne_true both.2⟩
    · exact ⟨⟨a, loIncl⟩, by simp, apart⟩
  · refine ⟨⟨a, aIncl⟩, by simp [gt], Or.inl ?_⟩
    rcases apart with apart | ⟨same, -⟩
    · exact lt_trans apart gt
    · exact same ▸ gt

theorem apart_tighterHi_right {hi lo : Bound α} {a b : Option (Bound α)}
    (apart : Apart hi lo) (hi_mem : hi ∈ b) : ∃ hi' ∈ tighterHi a b, Apart hi' lo := by
  obtain rfl : b = some hi := hi_mem
  rcases a with _ | ⟨a, aIncl⟩
  · exact ⟨hi, by simp [tighterHi], apart⟩
  rcases hi with ⟨hi, hiIncl⟩
  simp only [tighterHi]
  rcases lt_trichotomy a hi with lt | rfl | gt
  · refine ⟨⟨a, aIncl⟩, by simp [lt], Or.inl ?_⟩
    rcases apart with apart | ⟨same, -⟩
    · exact lt_trans lt apart
    · exact same ▸ lt
  · cases aIncl
    · refine ⟨⟨a, false⟩, by simp, ?_⟩
      rcases apart with apart | ⟨same, -⟩
      · exact Or.inl apart
      · exact Or.inr ⟨same, fun both => Bool.false_ne_true both.1⟩
    · exact ⟨⟨a, hiIncl⟩, by simp, apart⟩
  · exact ⟨⟨hi, hiIncl⟩, by simp [not_lt_of_gt gt, gt], apart⟩

/-! ## Intersection -/

/-- Whether two ends leave no room between them. -/
def apart (hi lo : Bound α) : Bool :=
  hi.key < lo.key || (hi.key = lo.key && !(hi.inclusive && lo.inclusive))

theorem apart_iff {hi lo : Bound α} : apart hi lo = true ↔ Apart hi lo := by
  rcases hi with ⟨hi, hiIncl⟩
  rcases lo with ⟨lo, loIncl⟩
  cases hiIncl <;> cases loIncl <;> simp [apart, Apart]

/-- Intersection of two intervals; `none` when the tighter ends cross. -/
def meet (a b : KeyInterval α) : Option (KeyInterval α) :=
  let r : KeyInterval α := ⟨tighterLo a.lo b.lo, tighterHi a.hi b.hi⟩
  match r.lo, r.hi with
  | some lo, some hi => if apart hi lo then none else some r
  | _, _ => some r

theorem meet_eq_some {a b r : KeyInterval α} (found : meet a b = some r) :
    r = ⟨tighterLo a.lo b.lo, tighterHi a.hi b.hi⟩ ∧ ¬r.Crossed := by
  simp only [meet] at found
  split at found
  · rename_i lo hi lo_eq hi_eq
    split at found
    · contradiction
    · rename_i not_apart
      obtain rfl := Option.some.inj found
      refine ⟨rfl, ?_⟩
      rintro ⟨hi', hi_mem, lo', lo_mem, crossed⟩
      obtain rfl : hi = hi' := Option.some.inj (hi_eq.symm.trans hi_mem)
      obtain rfl : lo = lo' := Option.some.inj (lo_eq.symm.trans lo_mem)
      exact not_apart (apart_iff.mpr crossed)
  · rename_i missing
    obtain rfl := Option.some.inj found
    refine ⟨rfl, ?_⟩
    rintro ⟨hi, hi_mem, lo, lo_mem, -⟩
    exact missing lo hi lo_mem hi_mem

/-- The intersection holds exactly the common members. -/
theorem mem_meet {a b r : KeyInterval α} (found : meet a b = some r) (x : α) :
    r.Mem x ↔ a.Mem x ∧ b.Mem x := by
  rw [(meet_eq_some found).1]
  simp only [Mem, above_tighterLo, below_tighterHi]
  tauto

/-- Without an intersection there is no common member. -/
theorem not_mem_of_meet_eq_none {a b : KeyInterval α} (missing : meet a b = none) (x : α) :
    ¬(a.Mem x ∧ b.Mem x) := by
  rintro ⟨a_mem, b_mem⟩
  have lo_ok := (above_tighterLo a.lo b.lo x).mpr ⟨a_mem.1, b_mem.1⟩
  have hi_ok := (below_tighterHi a.hi b.hi x).mpr ⟨a_mem.2, b_mem.2⟩
  simp only [meet] at missing
  split at missing
  · rename_i lo hi lo_eq hi_eq
    split at missing
    · rename_i crossed
      exact (apart_iff.mp crossed).not_both (hi_ok hi hi_eq) (lo_ok lo lo_eq) le_rfl
    · contradiction
  · contradiction

theorem Before.meet_left {a a' b b' r r' : KeyInterval α} (before : Before a a')
    (found : meet a b = some r) (found' : meet a' b' = some r') : Before r r' := by
  rcases before with ⟨hi, hi_mem, lo, lo_mem, apart⟩
  obtain ⟨hi', hi_mem', apart⟩ := apart_tighterHi (b := b.hi) apart hi_mem
  obtain ⟨lo', lo_mem', apart⟩ := apart_tighterLo (b := b'.lo) apart lo_mem
  rw [(meet_eq_some found).1, (meet_eq_some found').1]
  exact ⟨hi', hi_mem', lo', lo_mem', apart⟩

theorem Before.meet_right {a a' b b' r r' : KeyInterval α} (before : Before b b')
    (found : meet a b = some r) (found' : meet a' b' = some r') : Before r r' := by
  rcases before with ⟨hi, hi_mem, lo, lo_mem, apart⟩
  obtain ⟨hi', hi_mem', apart⟩ := apart_tighterHi_right (a := a.hi) apart hi_mem
  obtain ⟨lo', lo_mem', apart⟩ := apart_tighterLo_right (a := a'.lo) apart lo_mem
  rw [(meet_eq_some found).1, (meet_eq_some found').1]
  exact ⟨hi', hi_mem', lo', lo_mem', apart⟩

/-! ## Lists of intervals -/

/-- All pairwise intersections, in lexicographic order of the arguments. -/
def meetAll (as bs : List (KeyInterval α)) : List (KeyInterval α) :=
  as.flatMap fun a => bs.filterMap fun b => meet a b

theorem mem_meetAll {as bs : List (KeyInterval α)} {r : KeyInterval α} :
    r ∈ meetAll as bs ↔ ∃ a ∈ as, ∃ b ∈ bs, meet a b = some r := by
  simp [meetAll, List.mem_flatMap, List.mem_filterMap]

/-- A point lies in the intersection of two lists exactly when it lies in both. -/
theorem exists_mem_meetAll (as bs : List (KeyInterval α)) (x : α) :
    (∃ r ∈ meetAll as bs, r.Mem x) ↔ (∃ a ∈ as, a.Mem x) ∧ (∃ b ∈ bs, b.Mem x) := by
  constructor
  · rintro ⟨r, r_mem, x_mem⟩
    obtain ⟨a, a_mem, b, b_mem, found⟩ := mem_meetAll.mp r_mem
    have both := (mem_meet found x).mp x_mem
    exact ⟨⟨a, a_mem, both.1⟩, ⟨b, b_mem, both.2⟩⟩
  · rintro ⟨⟨a, a_mem, x_mem_a⟩, ⟨b, b_mem, x_mem_b⟩⟩
    cases found : meet a b with
    | none => exact absurd ⟨x_mem_a, x_mem_b⟩ (not_mem_of_meet_eq_none found x)
    | some r =>
        exact ⟨r, mem_meetAll.mpr ⟨a, a_mem, b, b_mem, found⟩,
          (mem_meet found x).mpr ⟨x_mem_a, x_mem_b⟩⟩

theorem not_crossed_of_mem_meetAll {as bs : List (KeyInterval α)} {r : KeyInterval α}
    (r_mem : r ∈ meetAll as bs) : ¬r.Crossed := by
  obtain ⟨a, -, b, -, found⟩ := mem_meetAll.mp r_mem
  exact (meet_eq_some found).2

/-- Intersection keeps lists of intervals that follow one another. -/
theorem pairwise_meetAll {as bs : List (KeyInterval α)} (as_sorted : as.Pairwise Before)
    (bs_sorted : bs.Pairwise Before) : (meetAll as bs).Pairwise Before := by
  unfold meetAll
  rw [List.pairwise_flatMap]
  constructor
  · intro a _
    rw [List.pairwise_filterMap]
    exact bs_sorted.imp fun before r found r' found' =>
      Before.meet_right before found found'
  · refine as_sorted.imp fun before r r_mem r' r_mem' => ?_
    obtain ⟨b, -, found⟩ := List.mem_filterMap.mp r_mem
    obtain ⟨b', -, found'⟩ := List.mem_filterMap.mp r_mem'
    exact Before.meet_left before found found'

end KeyInterval

end MySimpleDb.Lib
