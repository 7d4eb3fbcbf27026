import MySimpleDb.Lib.BPlusTree

/-!
# Descents in B+ trees

A descent for a probe ends in a leaf before which every entry lies below the
probe.  Together with the order inside the leaf this places a scan.
-/

namespace MySimpleDb.Lib.BPlus

variable {α T : Type} [LinearOrder α]

/-- The subtree a probe belongs to; without one it is the first. -/
def childFor (probe : Option α) : T → List (α × T) → T
  | t, [] => t
  | t, (k, c) :: rest =>
      match probe with
      | none => t
      | some e => if e < k then t else childFor probe c rest

/-- The leaf that a descent for a probe ends in. -/
def seek (probe : Option α) : (d : Nat) → Tree α d → Leaf α
  | 0, t => t
  | d + 1, t => seek probe d (childFor probe (Node.first t) (Node.rest t))

/-- How many entries of the leaf lie below the probe. -/
def placeIn (probe : Option α) (es : List α) : Nat :=
  probe.elim 0 fun e => (es.takeWhile (· < e)).length

/-- Every entry lies below the probe; without one there is none. -/
def AllBelow (probe : Option α) (es : List α) : Prop :=
  ∀ x ∈ es, ∃ e ∈ probe, x < e

theorem AllBelow.nil (probe : Option α) : AllBelow probe [] := by
  intro x mem
  cases mem

theorem AllBelow.append {probe : Option α} {es es' : List α} (first : AllBelow probe es)
    (second : AllBelow probe es') : AllBelow probe (es ++ es') := by
  intro x mem
  rcases List.mem_append.mp mem with mem | mem
  · exact first x mem
  · exact second x mem

/-- No entry lies below the probe. -/
def NoneBelow (probe : Option α) (es : List α) : Prop :=
  ∀ e ∈ probe, ∀ x ∈ es, e ≤ x

theorem NoneBelow.append {probe : Option α} {es es' : List α} (first : NoneBelow probe es)
    (second : NoneBelow probe es') : NoneBelow probe (es ++ es') := by
  intro e e_mem x mem
  rcases List.mem_append.mp mem with mem | mem
  · exact first e e_mem x mem
  · exact second e e_mem x mem

/-! ## Separators around subtrees -/

/-- Each subtree lies at or above the separator before it and below the one
after it. -/
def CutsAround (ent : T → List α) (t : T) (rest : List (α × T)) : Prop :=
  ∀ i c, (kids t rest)[i]? = some c → ∀ x ∈ ent c,
    (∀ j k, i = j + 1 → (rest.map Prod.fst)[j]? = some k → k ≤ x) ∧
    (∀ k, (rest.map Prod.fst)[i]? = some k → x < k)

section CutsAround

variable {ent : T → List α} {t c : T} {k : α} {rest : List (α × T)}

theorem CutsAround.first (cuts : CutsAround ent t ((k, c) :: rest)) : ∀ x ∈ ent t, x < k := by
  intro x mem
  exact (cuts 0 t rfl x mem).2 k rfl

theorem CutsAround.tail (cuts : CutsAround ent t ((k, c) :: rest)) : CutsAround ent c rest := by
  intro i c' at_i x mem
  have around := cuts (i + 1) c' (by simpa [kids] using at_i) x mem
  constructor
  · intro j k' same at_j
    exact around.1 (j + 1) k' (by omega) (by simpa using at_j)
  · intro k' at_i'
    exact around.2 k' (by simpa using at_i')

/-- Behind a separator everything lies at or above it. -/
theorem CutsAround.others (cuts : CutsAround ent t ((k, c) :: rest))
    (sorted : (((k, c) :: rest).map Prod.fst).Pairwise (· < ·)) :
    ∀ x ∈ (kids c rest).flatMap ent, k ≤ x := by
  intro x mem
  obtain ⟨c', c'_mem, x_mem⟩ := List.mem_flatMap.mp mem
  obtain ⟨i, lt, at_i⟩ := List.getElem_of_mem c'_mem
  have around := cuts (i + 1) c' (by simp [kids, ← at_i]) x x_mem
  have sep_lt : i < (((k, c) :: rest).map Prod.fst).length := by simpa [kids] using lt
  have above := around.1 i _ rfl (List.getElem?_eq_getElem sep_lt)
  cases i with
  | zero => exact above
  | succ i =>
      have later : (((k, c) :: rest).map Prod.fst)[i + 1] ∈ rest.map Prod.fst := by
        simp only [List.map_cons, List.getElem_cons_succ]
        exact List.getElem_mem _
      exact ((List.pairwise_cons.mp sorted).1 _ later).le.trans above

/-- Subtrees that are sorted each and cut by sorted separators are sorted together. -/
theorem CutsAround.sorted (cuts : CutsAround ent t rest)
    (seps : (rest.map Prod.fst).Pairwise (· < ·))
    (each : ∀ c ∈ kids t rest, (ent c).Pairwise (· < ·)) :
    ((kids t rest).flatMap ent).Pairwise (· < ·) := by
  induction rest generalizing t with
  | nil => simpa [kids] using each
  | cons p rest inductionHypothesis =>
      rcases p with ⟨k, c⟩
      have split : kids t ((k, c) :: rest) = t :: kids c rest := rfl
      rw [split] at each ⊢
      rw [List.forall_mem_cons] at each
      rw [List.flatMap_cons, List.pairwise_append]
      refine ⟨each.1, inductionHypothesis cuts.tail (List.pairwise_cons.mp seps).2 each.2, ?_⟩
      intro x mem y mem'
      exact lt_of_lt_of_le (cuts.first x mem) (cuts.others seps y mem')

/-- Left of the subtree a probe belongs to every entry lies below the probe, and
right of it none does. -/
theorem CutsAround.childFor_split (cuts : CutsAround ent t rest)
    (seps : (rest.map Prod.fst).Pairwise (· < ·)) (probe : Option α) :
    ∃ before after, kids t rest = before ++ childFor probe t rest :: after ∧
      AllBelow probe (before.flatMap ent) ∧ NoneBelow probe (after.flatMap ent) := by
  induction rest generalizing t with
  | nil => exact ⟨[], [], rfl, AllBelow.nil probe, by simp [NoneBelow]⟩
  | cons p rest inductionHypothesis =>
      rcases p with ⟨k, c⟩
      cases probe with
      | none => exact ⟨[], kids c rest, rfl, AllBelow.nil none, by simp [NoneBelow]⟩
      | some e =>
          by_cases lt : e < k
          · rw [childFor, if_pos lt]
            refine ⟨[], kids c rest, rfl, AllBelow.nil _, ?_⟩
            rintro _ ⟨⟩ x mem
            exact lt.le.trans (cuts.others seps x mem)
          · rw [childFor, if_neg lt]
            obtain ⟨before, after, split, below, above⟩ :=
              inductionHypothesis cuts.tail (List.pairwise_cons.mp seps).2
            refine ⟨t :: before, after, congrArg (t :: ·) split, ?_, above⟩
            rw [List.flatMap_cons]
            refine AllBelow.append (fun x mem => ⟨e, rfl, ?_⟩) below
            exact lt_of_lt_of_le (cuts.first x mem) (not_lt.mp lt)

theorem childFor_mem (probe : Option α) (t : T) (rest : List (α × T)) :
    childFor probe t rest ∈ kids t rest := by
  induction rest generalizing t with
  | nil => exact List.mem_cons_self ..
  | cons p rest inductionHypothesis =>
      rcases p with ⟨k, c⟩
      cases probe with
      | none => exact List.mem_cons_self ..
      | some e =>
          rw [childFor]
          split
          · exact List.mem_cons_self ..
          · exact List.mem_cons_of_mem _ (inductionHypothesis c)

/-- The subtree is the one behind the separators up to the probe. -/
theorem childFor_eq (probe : Option α) (t : T) (rest : List (α × T)) :
    (kids t rest)[probe.elim 0 fun e => ((rest.map Prod.fst).takeWhile (· ≤ e)).length]? =
      some (childFor probe t rest) := by
  induction rest generalizing t with
  | nil => cases probe <;> rfl
  | cons p rest inductionHypothesis =>
      rcases p with ⟨k, c⟩
      cases probe with
      | none => rfl
      | some e =>
          rw [childFor]
          by_cases lt : e < k
          · simp [kids, lt, not_le.mpr lt]
          · have later := inductionHypothesis c
            simpa [kids, lt, not_lt.mp lt] using later

end CutsAround

/-! ## Descents -/

omit [LinearOrder α] in
theorem leaves_kids {d : Nat} (t : Tree α (d + 1)) :
    t.leaves = (kids (Node.first t) (Node.rest t)).flatMap (Tree.leaves d) := by
  simp [Tree.leaves, kids, List.flatMap_map]

omit [LinearOrder α] in
theorem entries_kids {d : Nat} (t : Tree α (d + 1)) :
    t.entries = (kids (Node.first t) (Node.rest t)).flatMap (Tree.entries d) := by
  simp [Tree.entries, kids, List.flatMap_map]

omit [LinearOrder α] in
theorem entries_leaves {d : Nat} (t : Tree α d) :
    t.entries = t.leaves.flatMap Leaf.entries := by
  induction d with
  | zero => exact (List.append_nil _).symm
  | succ d inductionHypothesis =>
      simp [Tree.entries, Tree.leaves, inductionHypothesis, List.flatMap_assoc]

/-- The entries of a tree whose separators cut and whose leaves are sorted ascend
strictly. -/
theorem Cuts.sorted {d : Nat} {t : Tree α d} (cuts : Cuts d t)
    (leaves : ∀ leaf ∈ t.leaves, leaf.entries.Pairwise (· < ·)) : t.entries.Pairwise (· < ·) := by
  induction d with
  | zero => exact leaves t (List.mem_singleton_self _)
  | succ d inductionHypothesis =>
      rcases cuts with ⟨seps, around, below⟩
      have around : CutsAround (Tree.entries d) (Node.first t) (Node.rest t) := around
      rw [entries_kids]
      apply around.sorted seps
      intro c mem
      apply inductionHypothesis (below c mem)
      intro leaf leaf_mem
      apply leaves
      rw [leaves_kids]
      exact List.mem_flatMap.mpr ⟨c, mem, leaf_mem⟩

/-- Before the leaf a descent ends in every entry lies below the probe, and behind
it none does. -/
theorem Cuts.seek_split (probe : Option α) {d : Nat} {t : Tree α d} (cuts : Cuts d t) :
    ∃ before after, t.leaves = before ++ seek probe d t :: after ∧
      AllBelow probe (before.flatMap Leaf.entries) ∧
        NoneBelow probe (after.flatMap Leaf.entries) := by
  induction d with
  | zero => exact ⟨[], [], rfl, AllBelow.nil probe, by simp [NoneBelow]⟩
  | succ d inductionHypothesis =>
      rcases cuts with ⟨seps, around, children⟩
      have around : CutsAround (Tree.entries d) (Node.first t) (Node.rest t) := around
      obtain ⟨before, after, split, below, above⟩ := around.childFor_split seps probe
      obtain ⟨before', after', split', below', above'⟩ :=
        inductionHypothesis (children _ (childFor_mem probe (Node.first t) (Node.rest t)))
      have entries : (fun t : Tree α d => (Tree.leaves d t).flatMap Leaf.entries) = Tree.entries d :=
        funext fun t => (entries_leaves t).symm
      refine ⟨before.flatMap (Tree.leaves d) ++ before', after' ++ after.flatMap (Tree.leaves d),
        ?_, ?_, ?_⟩
      · rw [leaves_kids, split, List.flatMap_append, List.flatMap_cons, split']
        simp [seek]
      · rw [List.flatMap_append, List.flatMap_assoc, entries]
        exact AllBelow.append below below'
      · rw [List.flatMap_append, List.flatMap_assoc, entries]
        exact NoneBelow.append above' above

/-- Inside a sorted leaf the entries before the place lie below the probe and the
others do not. -/
theorem placeIn_split (probe : Option α) {es : List α} (sorted : es.Pairwise (· < ·)) :
    AllBelow probe (es.take (placeIn probe es)) ∧
      NoneBelow probe (es.drop (placeIn probe es)) := by
  cases probe with
  | none =>
      refine ⟨AllBelow.nil none, fun e mem => ?_⟩
      cases mem
  | some e =>
      simp only [placeIn, NoneBelow, Option.elim_some, Option.mem_some_iff, forall_eq']
      induction es with
      | nil => exact ⟨AllBelow.nil _, by simp⟩
      | cons y es inductionHypothesis =>
          rw [List.pairwise_cons] at sorted
          obtain ⟨below, above⟩ := inductionHypothesis sorted.2
          by_cases lt : y < e
          · rw [List.takeWhile_cons_of_pos (by simpa using lt)]
            have first : AllBelow (some e) [y] := by
              intro x mem
              exact ⟨e, rfl, (List.mem_singleton.mp mem) ▸ lt⟩
            exact ⟨first.append below, above⟩
          · rw [List.takeWhile_cons_of_neg (by simpa using lt)]
            refine ⟨AllBelow.nil _, fun x mem => ?_⟩
            rcases List.mem_cons.mp mem with rfl | mem
            · exact not_lt.mp lt
            · exact (not_lt.mp lt).trans (sorted.1 x mem).le

end MySimpleDb.Lib.BPlus
