import Mathlib.Data.List.Chain

/-!
# Lists with separators

Texts that are lists of elements with a separator between each two, the lists a
left-recursive rule with an empty base derives, and where separators can stand
in a text.
-/

namespace MySimpleDb.Lib

variable {τ α : Type} (sep : τ) (element : List τ → α → Prop)

/-! ## Separated elements -/

/-- One or more elements, with one separator between each two. -/
inductive Separated : List τ → List α → Prop
  | one {text : List τ} {a : α} (first : element text a) : Separated text [a]
  | cons {text rest : List τ} {a : α} {as : List α} (first : element text a)
      (others : Separated rest as) : Separated (text ++ sep :: rest) (a :: as)

/-- The lists of a left-recursive rule whose base cases are nothing and one element. -/
inductive LeftList : List τ → List α → Prop
  | empty : LeftList [] []
  | snoc {text rest : List τ} {a : α} {as : List α} (others : LeftList text as)
      (last : element rest a) : LeftList (text ++ sep :: rest) (as ++ [a])
  | one {text : List τ} {a : α} (first : element text a) : LeftList text [a]

variable {sep element}

theorem Separated.ne_nil {text : List τ} {as : List α} (separated : Separated sep element text as) :
    as ≠ [] := by
  cases separated <;> exact List.cons_ne_nil _ _

/-- One more element at the end. -/
theorem Separated.snoc {text rest : List τ} {a : α} {as : List α}
    (separated : Separated sep element text as) (last : element rest a) :
    Separated sep element (text ++ sep :: rest) (as ++ [a]) := by
  induction separated with
  | one first => exact .cons first (.one last)
  | cons first others inductionHypothesis =>
      rw [List.append_assoc, List.cons_append, List.cons_append]
      exact .cons first inductionHypothesis

theorem Separated.leftList {text : List τ} {as : List α}
    (separated : Separated sep element text as) (front : List τ) (before : List α)
    (start : ∀ {text a}, element text a → LeftList sep element (front ++ text) (before ++ [a])) :
    LeftList sep element (front ++ text) (before ++ as) := by
  induction separated generalizing front before with
  | one first => exact start first
  | cons first others inductionHypothesis =>
      rename_i text rest a as
      have next : ∀ {t b}, element t b →
          LeftList sep element ((front ++ (text ++ [sep])) ++ t) ((before ++ [a]) ++ [b]) := by
        intro t b one
        have grown := LeftList.snoc (start first) one
        rwa [List.append_assoc, ← List.singleton_append (l := t), ← List.append_assoc text,
          ← List.append_assoc] at grown
      have all := inductionHypothesis _ _ next
      rwa [List.append_assoc, List.append_assoc, List.singleton_append, List.append_assoc,
        List.singleton_append] at all

/-- The rule derives the empty list, the separated lists, and these with a separator in front
too. -/
theorem leftList_iff {text : List τ} {as : List α} :
    LeftList sep element text as ↔ text = [] ∧ as = [] ∨ Separated sep element text as ∨
      ∃ rest, text = sep :: rest ∧ Separated sep element rest as := by
  constructor
  · intro list
    induction list with
    | empty => exact Or.inl ⟨rfl, rfl⟩
    | one first => exact Or.inr (Or.inl (.one first))
    | snoc others last inductionHypothesis =>
        rcases inductionHypothesis with ⟨rfl, rfl⟩ | separated | ⟨rest, rfl, separated⟩
        · exact Or.inr (Or.inr ⟨_, rfl, .one last⟩)
        · exact Or.inr (Or.inl (separated.snoc last))
        · exact Or.inr (Or.inr ⟨_, rfl, separated.snoc last⟩)
  · rintro (⟨rfl, rfl⟩ | separated | ⟨rest, rfl, separated⟩)
    · exact .empty
    · exact separated.leftList [] [] .one
    · exact separated.leftList [sep] [] fun first => .snoc .empty first

/-! ## Where separators stand -/

variable (sep)

/-- No two separators in a row. -/
def NoDouble (text : List τ) : Prop :=
  text.IsChain fun x y => ¬ (x = sep ∧ y = sep)

/-- A text that neither begins nor ends with a separator and holds no two in a row. -/
structure Enclosed (text : List τ) : Prop where
  nonempty : text ≠ []
  head : text.head? ≠ some sep
  last : text.getLast? ≠ some sep
  single : NoDouble sep text

variable {sep}

theorem noDouble_nil : NoDouble sep [] :=
  List.isChain_nil

/-- Texts joined by something else than a separator. -/
theorem NoDouble.join {a b : List τ} {x : τ} (other : x ≠ sep) (left : NoDouble sep a)
    (right : NoDouble sep b) : NoDouble sep (a ++ x :: b) := by
  have behind : NoDouble sep (x :: b) := by
    cases b with
    | nil => exact List.isChain_singleton x
    | cons y b =>
        refine List.isChain_cons_cons.mpr ⟨fun both => other both.1, right⟩
  refine List.isChain_append.mpr ⟨left, behind, ?_⟩
  rintro y - z isHead ⟨-, rfl⟩
  exact other (Option.some.inj isHead)

theorem Enclosed.singleton {x : τ} (other : x ≠ sep) : Enclosed sep [x] where
  nonempty := List.cons_ne_nil _ _
  head := fun same => other (Option.some.inj same)
  last := fun same => other (Option.some.inj same)
  single := List.isChain_singleton x

/-- Anything without doubled separators between two that are none. -/
theorem NoDouble.around {text : List τ} {x y : τ} (first : x ≠ sep) (last : y ≠ sep)
    (inner : NoDouble sep text) : Enclosed sep (x :: (text ++ [y])) where
  nonempty := List.cons_ne_nil _ _
  head := fun same => first (Option.some.inj same)
  last := by
    rw [← List.cons_append, List.getLast?_concat]
    exact fun same => last (Option.some.inj same)
  single := NoDouble.join first noDouble_nil (inner.join last noDouble_nil)

/-- The end of an enclosed text is the end of what it ends. -/
theorem Enclosed.last_behind {b : List τ} (right : Enclosed sep b) (a : List τ) (x : τ) :
    (a ++ x :: b).getLast? ≠ some sep := by
  rw [List.getLast?_append_of_ne_nil _ (List.cons_ne_nil _ _), ← List.singleton_append,
    List.getLast?_append_of_ne_nil _ right.nonempty]
  exact right.last

theorem Enclosed.join {a b : List τ} {x : τ} (other : x ≠ sep) (left : Enclosed sep a)
    (right : Enclosed sep b) : Enclosed sep (a ++ x :: b) where
  nonempty := List.append_ne_nil_of_left_ne_nil left.nonempty _
  head := by
    rw [List.head?_append_of_ne_nil _ left.nonempty]
    exact left.head
  last := right.last_behind a x
  single := left.single.join other right.single

theorem Enclosed.cons {a : List τ} {x : τ} (other : x ≠ sep) (rest : Enclosed sep a) :
    Enclosed sep (x :: a) where
  nonempty := List.cons_ne_nil _ _
  head := fun same => other (Option.some.inj same)
  last := rest.last_behind [] x
  single := NoDouble.join other noDouble_nil rest.single

theorem Enclosed.snoc {a : List τ} {x : τ} (other : x ≠ sep) (rest : Enclosed sep a) :
    Enclosed sep (a ++ [x]) where
  nonempty := List.append_ne_nil_of_left_ne_nil rest.nonempty _
  head := by
    rw [List.head?_append_of_ne_nil _ rest.nonempty]
    exact rest.head
  last := by
    rw [List.getLast?_concat]
    exact fun same => other (Option.some.inj same)
  single := rest.single.join other noDouble_nil

/-- One separator between a text that does not end in one and an enclosed one. -/
theorem NoDouble.separate {a b : List τ} (left : NoDouble sep a) (last : a.getLast? ≠ some sep)
    (right : Enclosed sep b) : NoDouble sep (a ++ sep :: b) := by
  obtain ⟨y, b, rfl⟩ := List.exists_cons_of_ne_nil right.nonempty
  have next : y ≠ sep := fun same => right.head (congrArg some same)
  refine List.isChain_append.mpr ⟨left, ?_, ?_⟩
  · exact List.isChain_cons_cons.mpr ⟨fun both => next both.2, right.single⟩
  · rintro x isLast z - ⟨rfl, -⟩
    exact last isLast

/-- Two enclosed texts with one separator between them. -/
theorem Enclosed.separate {a b : List τ} (left : Enclosed sep a) (right : Enclosed sep b) :
    Enclosed sep (a ++ sep :: b) where
  nonempty := List.append_ne_nil_of_left_ne_nil left.nonempty _
  head := by
    rw [List.head?_append_of_ne_nil _ left.nonempty]
    exact left.head
  last := right.last_behind a sep
  single := left.single.separate left.last right

/-- Separated lists of enclosed texts. -/
theorem Separated.enclosed {text : List τ} {as : List α}
    (separated : Separated sep element text as)
    (enclosed : ∀ {text a}, element text a → Enclosed sep text) : Enclosed sep text := by
  induction separated with
  | one first => exact enclosed first
  | cons first others inductionHypothesis => exact (enclosed first).separate inductionHypothesis

end MySimpleDb.Lib
