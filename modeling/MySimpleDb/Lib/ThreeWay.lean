import Mathlib.Data.List.Basic
import Mathlib.Order.WithBot

/-!
# Three-way comparisons

Fallible comparisons that answer with the sign of an integer. One that is a
total preorder on a set of values stays so when it is reversed or continued by
another, and its negative answers are a strict weak order.
-/

namespace MySimpleDb.Lib

variable {ε α β γ : Type}

/-- The sign of a comparison in a linear order. -/
def threeWay [LinearOrder α] (a b : α) : Int :=
  if a < b then -1 else if b < a then 1 else 0

theorem threeWay_neg_iff [LinearOrder α] {a b : α} : threeWay a b < 0 ↔ a < b := by
  rcases lt_trichotomy a b with lt | rfl | gt
  · simp [threeWay, lt]
  · simp [threeWay]
  · simp [threeWay, gt, not_lt.mpr gt.le]

theorem threeWay_pos_iff [LinearOrder α] {a b : α} : 0 < threeWay a b ↔ b < a := by
  rcases lt_trichotomy a b with lt | rfl | gt
  · simp [threeWay, lt, not_lt.mpr lt.le]
  · simp [threeWay]
  · simp [threeWay, gt, not_lt.mpr gt.le]

/-- On the values satisfying `P` the comparison answers and is a total preorder. -/
structure TotalOn (P : α → Prop) (cmp : α → α → Except ε Int) : Prop where
  returns : ∀ {a b}, P a → P b → ∃ c, cmp a b = .ok c
  swap : ∀ {a b c d}, P a → P b → cmp a b = .ok c → cmp b a = .ok d → (c < 0 ↔ 0 < d)
  trans : ∀ {a b e c d f}, P a → P b → P e → cmp a b = .ok c → cmp b e = .ok d →
    cmp a e = .ok f → c ≤ 0 → d ≤ 0 → f ≤ 0

/-- The comparison answers with the order of ranks in a linear order. -/
theorem TotalOn.of_rank [LinearOrder β] {P : α → Prop} {cmp : α → α → Except ε Int}
    (rank : α → β)
    (measures : ∀ a b, P a → P b →
      ∃ c, cmp a b = .ok c ∧ (c < 0 ↔ rank a < rank b) ∧ (0 < c ↔ rank b < rank a)) :
    TotalOn P cmp := by
  have signs : ∀ {a b c}, P a → P b → cmp a b = .ok c →
      (c < 0 ↔ rank a < rank b) ∧ (0 < c ↔ rank b < rank a) := by
    intro a b c a_in b_in answer
    obtain ⟨c', answer', signs⟩ := measures a b a_in b_in
    obtain rfl : c = c' := Except.ok.inj (answer.symm.trans answer')
    exact signs
  constructor
  · intro a b a_in b_in
    obtain ⟨c, answer, -⟩ := measures a b a_in b_in
    exact ⟨c, answer⟩
  · intro a b c d a_in b_in forth back
    exact (signs a_in b_in forth).1.trans (signs b_in a_in back).2.symm
  · intro a b e c d f a_in b_in e_in first second both c_le d_le
    rw [← not_lt, (signs a_in b_in first).2, not_lt] at c_le
    rw [← not_lt, (signs b_in e_in second).2, not_lt] at d_le
    rw [← not_lt, (signs a_in e_in both).2, not_lt]
    exact c_le.trans d_le

namespace TotalOn

variable {P : α → Prop} {Q : β → Prop} {R : γ → Prop}
variable {cmp : α → α → Except ε Int} {next : β → β → Except ε Int}

theorem signs (total : TotalOn P cmp) {a b : α} {c d : Int} (a_in : P a) (b_in : P b)
    (forth : cmp a b = .ok c) (back : cmp b a = .ok d) : (c < 0 ↔ 0 < d) ∧ (0 < c ↔ d < 0) :=
  ⟨total.swap a_in b_in forth back, (total.swap b_in a_in back forth).symm⟩

theorem refl (total : TotalOn P cmp) {a : α} (a_in : P a) : cmp a a = .ok 0 := by
  obtain ⟨c, answer⟩ := total.returns a_in a_in
  have swap := total.swap a_in a_in answer answer
  rw [answer]
  congr 1
  omega

theorem reverse (total : TotalOn P cmp) : TotalOn P fun a b => (cmp a b).map (-·) := by
  have inverse : ∀ {a b c}, (cmp a b).map (-·) = .ok c → cmp a b = .ok (-c) := by
    intro a b c answer
    cases forth : cmp a b with
    | error e =>
        rw [forth] at answer
        cases answer
    | ok d =>
        rw [forth] at answer
        cases answer
        rw [Int.neg_neg]
  constructor
  · intro a b a_in b_in
    obtain ⟨c, answer⟩ := total.returns a_in b_in
    exact ⟨-c, by rw [answer]; rfl⟩
  · intro a b c d a_in b_in forth back
    have swap := total.swap b_in a_in (inverse back) (inverse forth)
    omega
  · intro a b e c d f a_in b_in e_in first second both c_le d_le
    obtain ⟨i, i_eq⟩ := total.returns b_in a_in
    obtain ⟨j, j_eq⟩ := total.returns e_in b_in
    obtain ⟨k, k_eq⟩ := total.returns e_in a_in
    have i_signs := total.signs a_in b_in (inverse first) i_eq
    have j_signs := total.signs b_in e_in (inverse second) j_eq
    have k_signs := total.signs a_in e_in (inverse both) k_eq
    have k_le := total.trans e_in b_in a_in j_eq i_eq k_eq (by omega) (by omega)
    omega

/-- A chain with a strict link is strict. -/
theorem trans_lt (total : TotalOn P cmp) {a b e : α} {c d f : Int} (a_in : P a) (b_in : P b)
    (e_in : P e) (first : cmp a b = .ok c) (second : cmp b e = .ok d) (both : cmp a e = .ok f)
    (c_le : c ≤ 0) (d_le : d ≤ 0) (strict : c < 0 ∨ d < 0) : f < 0 := by
  have f_le := total.trans a_in b_in e_in first second both c_le d_le
  obtain ⟨c', first'⟩ := total.returns b_in a_in
  obtain ⟨d', second'⟩ := total.returns e_in b_in
  obtain ⟨f', both'⟩ := total.returns e_in a_in
  have c_signs := total.signs a_in b_in first first'
  have d_signs := total.signs b_in e_in second second'
  have f_signs := total.signs a_in e_in both both'
  by_contra not_lt
  -- the ends compare equal, so each link can be followed backwards
  have c'_le : c' ≤ 0 := total.trans b_in e_in a_in second both' first' d_le (by omega)
  have d'_le : d' ≤ 0 := total.trans e_in a_in b_in both' first second' (by omega) c_le
  omega

theorem trans_zero (total : TotalOn P cmp) {a b e : α} {f : Int} (a_in : P a) (b_in : P b)
    (e_in : P e) (first : cmp a b = .ok 0) (second : cmp b e = .ok 0) (both : cmp a e = .ok f) :
    f = 0 := by
  have f_le := total.trans a_in b_in e_in first second both le_rfl le_rfl
  obtain ⟨c', first'⟩ := total.returns b_in a_in
  obtain ⟨d', second'⟩ := total.returns e_in b_in
  obtain ⟨f', both'⟩ := total.returns e_in a_in
  have c_signs := total.signs a_in b_in first first'
  have d_signs := total.signs b_in e_in second second'
  have f_signs := total.signs a_in e_in both both'
  have f'_le := total.trans e_in b_in a_in second' first' both' (by omega) (by omega)
  omega

/-- A comparison continued by another where it finds no difference. -/
theorem lex (first : TotalOn P cmp) (second : TotalOn Q next) {both : γ → γ → Except ε Int}
    {f : γ → α} {g : γ → β} (f_maps : ∀ {x}, R x → P (f x)) (g_maps : ∀ {x}, R x → Q (g x))
    (both_eq : ∀ {x y}, R x → R y →
      both x y = (cmp (f x) (f y)).bind fun c => if c ≠ 0 then .ok c else next (g x) (g y)) :
    TotalOn R both := by
  have answer_cases : ∀ {x y c}, R x → R y → both x y = .ok c →
      c ≠ 0 ∧ cmp (f x) (f y) = .ok c ∨
        cmp (f x) (f y) = .ok 0 ∧ next (g x) (g y) = .ok c := by
    intro x y c x_in y_in answer
    obtain ⟨i, i_eq⟩ := first.returns (f_maps x_in) (f_maps y_in)
    rw [both_eq x_in y_in, i_eq] at answer
    by_cases differ : i ≠ 0
    · left
      obtain rfl : i = c := Except.ok.inj ((if_pos differ).symm.trans answer)
      exact ⟨differ, i_eq⟩
    · right
      have continued : next (g x) (g y) = .ok c := (if_neg differ).symm.trans answer
      rw [not_not.mp differ] at i_eq
      exact ⟨i_eq, continued⟩
  constructor
  · intro x y x_in y_in
    obtain ⟨i, i_eq⟩ := first.returns (f_maps x_in) (f_maps y_in)
    obtain ⟨j, j_eq⟩ := second.returns (g_maps x_in) (g_maps y_in)
    rw [both_eq x_in y_in, i_eq]
    by_cases differ : i ≠ 0
    · exact ⟨i, if_pos differ⟩
    · exact ⟨j, (if_neg differ).trans j_eq⟩
  · intro x y c d x_in y_in forth back
    rcases answer_cases x_in y_in forth with ⟨c_ne, c_eq⟩ | ⟨c_eq, c_next⟩ <;>
      rcases answer_cases y_in x_in back with ⟨d_ne, d_eq⟩ | ⟨d_eq, d_next⟩
    · exact first.swap (f_maps x_in) (f_maps y_in) c_eq d_eq
    · have signs := first.signs (f_maps x_in) (f_maps y_in) c_eq d_eq
      omega
    · have signs := first.signs (f_maps x_in) (f_maps y_in) c_eq d_eq
      omega
    · exact second.swap (g_maps x_in) (g_maps y_in) c_next d_next
  · intro x y z c d e x_in y_in z_in forth onward across c_le d_le
    obtain ⟨k, k_eq⟩ := first.returns (f_maps x_in) (f_maps z_in)
    have step : ∀ {i j : Int}, _ := fun {i j} =>
      @trans_lt _ _ _ _ first _ _ _ i j k (f_maps x_in) (f_maps y_in) (f_maps z_in)
    have level := @trans_zero _ _ _ _ first _ _ _ k (f_maps x_in) (f_maps y_in) (f_maps z_in)
    rcases answer_cases x_in z_in across with ⟨e_ne, e_eq⟩ | ⟨e_eq, e_next⟩
    · obtain rfl : k = e := Except.ok.inj (k_eq.symm.trans e_eq)
      rcases answer_cases x_in y_in forth with ⟨c_ne, c_eq⟩ | ⟨c_eq, c_next⟩ <;>
        rcases answer_cases y_in z_in onward with ⟨d_ne, d_eq⟩ | ⟨d_eq, d_next⟩
      · exact (step c_eq d_eq k_eq c_le d_le (by omega)).le
      · exact (step c_eq d_eq k_eq c_le le_rfl (by omega)).le
      · exact (step c_eq d_eq k_eq le_rfl d_le (by omega)).le
      · exact (level c_eq d_eq k_eq).le
    · obtain rfl : k = 0 := Except.ok.inj (k_eq.symm.trans e_eq)
      rcases answer_cases x_in y_in forth with ⟨c_ne, c_eq⟩ | ⟨c_eq, c_next⟩ <;>
        rcases answer_cases y_in z_in onward with ⟨d_ne, d_eq⟩ | ⟨d_eq, d_next⟩
      · exact absurd (step c_eq d_eq k_eq c_le d_le (by omega)) (lt_irrefl 0)
      · exact absurd (step c_eq d_eq k_eq c_le le_rfl (by omega)) (lt_irrefl 0)
      · exact absurd (step c_eq d_eq k_eq le_rfl d_le (by omega)) (lt_irrefl 0)
      · exact second.trans (g_maps x_in) (g_maps y_in) (g_maps z_in) c_next d_next e_next c_le d_le

end TotalOn

/-! ## Strict weak orders -/

/-- On the values satisfying `P` the predicate answers and is a strict weak order. -/
structure StrictWeakOn (P : α → Prop) (less : α → α → Except ε Bool) : Prop where
  returns : ∀ {a b}, P a → P b → ∃ c, less a b = .ok c
  irrefl : ∀ {a}, P a → less a a = .ok false
  trans : ∀ {a b c}, P a → P b → P c → less a b = .ok true → less b c = .ok true →
    less a c = .ok true
  incomparable : ∀ {a b c}, P a → P b → P c → less a b = .ok false → less b a = .ok false →
    less b c = .ok false → less c b = .ok false → less a c = .ok false ∧ less c a = .ok false

theorem TotalOn.strictWeak {P : α → Prop} {cmp : α → α → Except ε Int}
    {less : α → α → Except ε Bool} (total : TotalOn P cmp)
    (less_eq : ∀ {a b}, P a → P b → less a b = (cmp a b).map fun c => decide (c < 0)) : StrictWeakOn P less := by
  have answer : ∀ {a b c}, P a → P b → cmp a b = .ok c → less a b = .ok (decide (c < 0)) := by
    intro a b c a_in b_in eq
    rw [less_eq a_in b_in, eq]
    rfl
  have inverse : ∀ {a b t}, P a → P b → less a b = .ok t →
      ∃ c, cmp a b = .ok c ∧ (t = true ↔ c < 0) := by
    intro a b t a_in b_in eq
    obtain ⟨c, c_eq⟩ := total.returns a_in b_in
    obtain rfl := Except.ok.inj ((answer a_in b_in c_eq).symm.trans eq)
    exact ⟨c, c_eq, decide_eq_true_iff⟩
  constructor
  · intro a b a_in b_in
    obtain ⟨c, c_eq⟩ := total.returns a_in b_in
    exact ⟨_, answer a_in b_in c_eq⟩
  · intro a a_in
    exact answer a_in a_in (total.refl a_in)
  · intro a b c a_in b_in c_in first second
    obtain ⟨i, i_eq, i_iff⟩ := inverse a_in b_in first
    obtain ⟨j, j_eq, j_iff⟩ := inverse b_in c_in second
    obtain ⟨k, k_eq⟩ := total.returns a_in c_in
    have i_neg := i_iff.mp rfl
    have j_neg := j_iff.mp rfl
    have k_neg := total.trans_lt a_in b_in c_in i_eq j_eq k_eq i_neg.le j_neg.le (Or.inl i_neg)
    rw [answer a_in c_in k_eq, decide_eq_true k_neg]
  · intro a b c a_in b_in c_in ab ba bc cb
    obtain ⟨i, i_eq, i_iff⟩ := inverse a_in b_in ab
    obtain ⟨i', i'_eq, i'_iff⟩ := inverse b_in a_in ba
    obtain ⟨j, j_eq, j_iff⟩ := inverse b_in c_in bc
    obtain ⟨j', j'_eq, j'_iff⟩ := inverse c_in b_in cb
    obtain ⟨k, k_eq⟩ := total.returns a_in c_in
    obtain ⟨k', k'_eq⟩ := total.returns c_in a_in
    simp only [Bool.false_eq_true, false_iff, not_lt] at i_iff i'_iff j_iff j'_iff
    have i_signs := total.signs a_in b_in i_eq i'_eq
    have j_signs := total.signs b_in c_in j_eq j'_eq
    have i_zero : i = 0 := by omega
    have j_zero : j = 0 := by omega
    have k_zero := total.trans_zero a_in b_in c_in (i_zero ▸ i_eq) (j_zero ▸ j_eq) k_eq
    have k_signs := total.signs a_in c_in k_eq k'_eq
    constructor
    · rw [answer a_in c_in k_eq, decide_eq_false (by omega)]
    · rw [answer c_in a_in k'_eq, decide_eq_false (by omega)]

namespace StrictWeakOn

variable {P : α → Prop} {less : α → α → Except ε Bool}

/-- Not coming after is transitive. -/
theorem not_after_trans (order : StrictWeakOn P less) {a b c : α} (a_in : P a) (b_in : P b)
    (c_in : P c) (first : less b a = .ok false) (second : less c b = .ok false) :
    less c a = .ok false := by
  obtain ⟨t, t_eq⟩ := order.returns c_in a_in
  obtain ⟨u, u_eq⟩ := order.returns a_in b_in
  obtain ⟨v, v_eq⟩ := order.returns b_in c_in
  cases t with
  | false => exact t_eq
  | true =>
      cases u with
      | true =>
          have := order.trans c_in a_in b_in t_eq u_eq
          rw [second] at this
          cases this
      | false =>
          cases v with
          | true =>
              have := order.trans b_in c_in a_in v_eq t_eq
              rw [first] at this
              cases this
          | false => exact (order.incomparable a_in b_in c_in u_eq first v_eq second).2

end StrictWeakOn

end MySimpleDb.Lib
