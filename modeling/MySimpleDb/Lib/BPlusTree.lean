import Mathlib.Data.List.Perm.Basic
import Mathlib.Data.List.Sort
import Mathlib.Data.List.Range
import Mathlib.Order.Basic
import Mathlib.Tactic.Ring

/-!
# B+ trees

Trees whose leaves hold sorted entries and whose internal nodes hold separators
between subtrees.  A tree is indexed by its height, so that all its leaves are at
one depth by construction.  Every leaf and node carries a number; insertion takes
the numbers of the pages it adds from a counter.
-/

namespace MySimpleDb.Lib.BPlus

/-- A leaf and its entries. -/
structure Leaf (α : Type) where
  no : Nat
  entries : List α

/-- An internal node: its first subtree, and the others each with the separator
before it. -/
structure Node (α T : Type) where
  no : Nat
  first : T
  rest : List (α × T)

/-- Trees of a height. -/
def Tree (α : Type) : Nat → Type
  | 0 => Leaf α
  | d + 1 => Node α (Tree α d)

/-- What inserting into a subtree gives: the subtree, or two of them and the
separator to put between them. -/
inductive Outcome (α T : Type)
  | done (t : T)
  | split (left : T) (sep : α) (right : T)

variable {α T : Type}

namespace Tree

/-- The number of the root. -/
def no : (d : Nat) → Tree α d → Nat
  | 0, t => Leaf.no t
  | _ + 1, t => Node.no t

/-- The leaves from left to right. -/
def leaves : (d : Nat) → Tree α d → List (Leaf α)
  | 0, t => [t]
  | d + 1, t => leaves d (Node.first t) ++ (Node.rest t).flatMap fun p => leaves d p.2

/-- The entries in tree order. -/
def entries : (d : Nat) → Tree α d → List α
  | 0, t => Leaf.entries t
  | d + 1, t => entries d (Node.first t) ++ (Node.rest t).flatMap fun p => entries d p.2

/-- The numbers of all leaves and nodes. -/
def names : (d : Nat) → Tree α d → List Nat
  | 0, t => [Leaf.no t]
  | d + 1, t =>
      Node.no t :: (names d (Node.first t) ++ (Node.rest t).flatMap fun p => names d p.2)

/-- The number of the leftmost leaf. -/
def firstLeaf : (d : Nat) → Tree α d → Nat
  | 0, t => Leaf.no t
  | d + 1, t => firstLeaf d (Node.first t)

end Tree

/-! ## Insertion -/

section Insert

variable [LinearOrder α]

/-- Insert into the subtree that `e` belongs to, the last one with no separator
above `e` before it. -/
def insertFrom (ins : T → Outcome α T × Nat) (e : α) :
    T → List (α × T) → T × List (α × T) × Nat
  | t, [] =>
      match ins t with
      | (.done t, next) => (t, [], next)
      | (.split l k r, next) => (l, [(k, r)], next)
  | t, (k, c) :: rest =>
      if e < k then
        match ins t with
        | (.done t, next) => (t, (k, c) :: rest, next)
        | (.split l k' r, next) => (l, (k', r) :: (k, c) :: rest, next)
      else
        let (c, rest, next) := insertFrom ins e c rest
        (t, (k, c) :: rest, next)

/-- Keep `entries` in a leaf, or halve them over two when they exceed `cap`. -/
def leafOutcome (cap next no : Nat) (entries : List α) : Outcome α (Leaf α) × Nat :=
  if entries.length ≤ cap then (.done ⟨no, entries⟩, next)
  else
    match entries.drop (entries.length / 2) with
    | [] => (.done ⟨no, entries⟩, next)
    | k :: more => (.split ⟨no, entries.take (entries.length / 2)⟩ k ⟨next, k :: more⟩, next + 1)

/-- Keep the subtrees in a node, or halve them over two when the separators
exceed `cap`; the middle separator moves up. -/
def nodeOutcome (cap next no : Nat) (first : T) (rest : List (α × T)) :
    Outcome α (Node α T) × Nat :=
  if rest.length ≤ cap then (.done ⟨no, first, rest⟩, next)
  else
    match rest.drop (rest.length / 2) with
    | [] => (.done ⟨no, first, rest⟩, next)
    | (k, c) :: more =>
        (.split ⟨no, first, rest.take (rest.length / 2)⟩ k ⟨next, c, more⟩, next + 1)

/-- Insert `e`, at most `cap` entries a leaf and `cap` separators a node; `next`
is the next number to give out. -/
def insertRec (cap next : Nat) (e : α) : (d : Nat) → Tree α d → Outcome α (Tree α d) × Nat
  | 0, t => leafOutcome cap next (Leaf.no t) ((Leaf.entries t).orderedInsert (· ≤ ·) e)
  | d + 1, t =>
      let (first, rest, next) :=
        insertFrom (insertRec cap next e d) e (Node.first t) (Node.rest t)
      nodeOutcome cap next (Node.no t) first rest

theorem insertRec_succ (cap next : Nat) (e : α) (d : Nat) (t : Tree α (d + 1)) :
    insertRec cap next e (d + 1) t =
      nodeOutcome cap
        (insertFrom (insertRec cap next e d) e (Node.first t) (Node.rest t)).2.2 (Node.no t)
        (insertFrom (insertRec cap next e d) e (Node.first t) (Node.rest t)).1
        (insertFrom (insertRec cap next e d) e (Node.first t) (Node.rest t)).2.1 :=
  rfl

/-- Insert at the root, which grows the tree when it splits. -/
def insert (cap next : Nat) (e : α) (t : (d : Nat) × Tree α d) :
    ((d : Nat) × Tree α d) × Nat :=
  match insertRec cap next e t.1 t.2 with
  | (.done t', next) => (⟨t.1, t'⟩, next)
  | (.split l k r, next) => (⟨t.1 + 1, (⟨next, l, [(k, r)]⟩ : Node α _)⟩, next + 1)

end Insert

/-! ### Insertion by index -/

theorem insertIdx_append (before : List α) (x : α) (after : List α) :
    (before ++ after).insertIdx before.length x = before ++ x :: after := by
  induction before with
  | nil => rfl
  | cons b before ih => simp [ih]

/-- Sorted insertion puts the entry behind those below it. -/
theorem insertIdx_takeWhile [LinearOrder α] (e : α) (es : List α) :
    es.insertIdx (es.takeWhile (· < e)).length e = es.orderedInsert (· ≤ ·) e := by
  have inserted := insertIdx_append (es.takeWhile (· < e)) e (es.dropWhile (· < e))
  rw [List.takeWhile_append_dropWhile] at inserted
  rw [inserted, List.orderedInsert_eq_take_drop]
  simp only [not_le]

/-- The subtrees of a node from left to right. -/
def kids (first : T) (rest : List (α × T)) : List T :=
  first :: rest.map Prod.snd

/-- Inserting among subtrees replaces the one behind the separators at or below
`e` by the outcome of inserting into it. -/
theorem insertFrom_cut [LinearOrder α] (ins : T → Outcome α T × Nat) (e : α) (first : T)
    (rest : List (α × T)) :
    ∃ before child after low high,
      kids first rest = before ++ child :: after ∧ rest.map Prod.fst = low ++ high ∧
        low = (rest.map Prod.fst).takeWhile (· ≤ e) ∧ low.length = before.length ∧
        (insertFrom ins e first rest).2.2 = (ins child).2 ∧
        match (ins child).1 with
        | .done t =>
            kids (insertFrom ins e first rest).1 (insertFrom ins e first rest).2.1 =
                before ++ t :: after ∧
              (insertFrom ins e first rest).2.1.map Prod.fst = low ++ high
        | .split l k r =>
            kids (insertFrom ins e first rest).1 (insertFrom ins e first rest).2.1 =
                before ++ l :: r :: after ∧
              (insertFrom ins e first rest).2.1.map Prod.fst = low ++ k :: high := by
  induction rest generalizing first with
  | nil =>
      refine ⟨[], first, [], [], [], rfl, rfl, rfl, rfl, ?_⟩
      rw [insertFrom]
      rcases ins first with ⟨t | ⟨l, k, r⟩, next⟩
      · exact ⟨rfl, rfl, rfl⟩
      · exact ⟨rfl, rfl, rfl⟩
  | cons p rest ih =>
      rcases p with ⟨k, c⟩
      rw [insertFrom]
      split
      · rename_i lt
        refine ⟨[], first, kids c rest, [], k :: rest.map Prod.fst, rfl, rfl, ?_, rfl, ?_⟩
        · simp [not_le.mpr lt]
        · rcases ins first with ⟨t | ⟨l, k', r⟩, next⟩
          · exact ⟨rfl, rfl, rfl⟩
          · exact ⟨rfl, rfl, rfl⟩
      · rename_i not_lt
        rcases ih c with ⟨before, child, after, low, high, kids_eq, seps_eq, low_eq, len, next_eq,
          out⟩
        refine ⟨first :: before, child, after, k :: low, high, ?_, ?_, ?_, ?_, next_eq, ?_⟩
        · exact congrArg (first :: ·) kids_eq
        · exact congrArg (k :: ·) seps_eq
        · simp [le_of_not_gt not_lt, low_eq]
        · simp [len]
        · generalize (ins child).1 = result at out ⊢
          cases result with
          | done t => exact ⟨congrArg (first :: ·) out.1, congrArg (k :: ·) out.2⟩
          | split l k' r => exact ⟨congrArg (first :: ·) out.1, congrArg (k :: ·) out.2⟩

/-! ## Order -/

section Order

variable [LinearOrder α]

/-- `x` lies in `[lo, hi)`. -/
structure Within (lo hi : Option α) (x : α) : Prop where
  ge : ∀ l ∈ lo, l ≤ x
  lt : ∀ h ∈ hi, x < h

/-- `k` lies strictly between `lo` and `hi`. -/
structure Between (lo hi : Option α) (k : α) : Prop where
  gt : ∀ l ∈ lo, l < k
  lt : ∀ h ∈ hi, k < h

/-- The separators ascend strictly, and each subtree lies between the separators
around it. -/
def OrderedFrom (ord : Option α → Option α → T → Prop) (hi : Option α) :
    Option α → T → List (α × T) → Prop
  | lo, t, [] => ord lo hi t
  | lo, t, (k, c) :: rest =>
      ord lo (some k) t ∧ Between lo hi k ∧ OrderedFrom ord hi (some k) c rest

/-- The tree is ordered and lies in `[lo, hi)`. -/
def Ordered : (d : Nat) → Option α → Option α → Tree α d → Prop
  | 0, lo, hi, t =>
      (Leaf.entries t).Pairwise (· < ·) ∧ ∀ x ∈ Leaf.entries t, Within lo hi x
  | d + 1, lo, hi, t => OrderedFrom (Ordered d) hi lo (Node.first t) (Node.rest t)

/-- Both halves of an outcome are ordered and lie around its separator. -/
def Outcome.OrderedBy (ord : Option α → Option α → T → Prop) (lo hi : Option α) :
    Outcome α T → Prop
  | .done t => ord lo hi t
  | .split l k r => ord lo (some k) l ∧ Between lo hi k ∧ ord (some k) hi r

theorem Within.widen {lo hi : Option α} {k x : α} (between : Between lo hi k) :
    (Within lo (some k) x → Within lo hi x) ∧ (Within (some k) hi x → Within lo hi x) := by
  constructor
  · intro within
    refine ⟨within.ge, fun h mem => ?_⟩
    exact lt_trans (within.lt k rfl) (between.lt h mem)
  · intro within
    refine ⟨fun l mem => ?_, within.lt⟩
    exact (between.gt l mem).le.trans (within.ge k rfl)

theorem OrderedFrom.within {ord : Option α → Option α → T → Prop} {ent : T → List α}
    (inside : ∀ lo hi t, ord lo hi t → ∀ x ∈ ent t, Within lo hi x) {hi : Option α}
    {rest : List (α × T)} {lo : Option α} {t : T} (ordered : OrderedFrom ord hi lo t rest) :
    ∀ x ∈ ent t ++ rest.flatMap fun p => ent p.2, Within lo hi x := by
  induction rest generalizing lo t with
  | nil =>
      intro x mem
      exact inside lo hi t ordered x (by simpa using mem)
  | cons p rest ih =>
      rcases p with ⟨k, c⟩
      rcases ordered with ⟨first, between, others⟩
      intro x mem
      rw [List.flatMap_cons, List.mem_append] at mem
      rcases mem with mem | mem
      · exact (Within.widen between).1 (inside lo _ t first x mem)
      · exact (Within.widen between).2 (ih others x mem)

theorem Ordered.within {d : Nat} {lo hi : Option α} {t : Tree α d}
    (ordered : Ordered d lo hi t) : ∀ x ∈ t.entries, Within lo hi x := by
  induction d generalizing lo hi with
  | zero => exact ordered.2
  | succ d ih =>
      exact OrderedFrom.within (fun lo hi t ordered => ih ordered) ordered

theorem OrderedFrom.sorted {ord : Option α → Option α → T → Prop} {ent : T → List α}
    (inside : ∀ lo hi t, ord lo hi t → ∀ x ∈ ent t, Within lo hi x)
    (sorted : ∀ lo hi t, ord lo hi t → (ent t).Pairwise (· < ·)) {hi : Option α}
    {rest : List (α × T)} {lo : Option α} {t : T} (ordered : OrderedFrom ord hi lo t rest) :
    (ent t ++ rest.flatMap fun p => ent p.2).Pairwise (· < ·) := by
  induction rest generalizing lo t with
  | nil => simpa using sorted lo hi t ordered
  | cons p rest ih =>
      rcases p with ⟨k, c⟩
      rcases ordered with ⟨first, between, others⟩
      rw [List.flatMap_cons, List.pairwise_append]
      refine ⟨sorted lo _ t first, ih others, ?_⟩
      intro x mem y mem'
      have below := (inside lo _ t first x mem).lt k rfl
      have above := (OrderedFrom.within inside others y mem').ge k rfl
      exact lt_of_lt_of_le below above

/-- The entries of an ordered tree ascend strictly. -/
theorem Ordered.sorted {d : Nat} {lo hi : Option α} {t : Tree α d}
    (ordered : Ordered d lo hi t) : t.entries.Pairwise (· < ·) := by
  induction d generalizing lo hi with
  | zero => exact ordered.1
  | succ d ih =>
      exact OrderedFrom.sorted (fun _ _ _ => Ordered.within) (fun lo hi t ordered => ih ordered)
        ordered

/-- Cutting at a separator leaves two ordered parts. -/
theorem OrderedFrom.cut {ord : Option α → Option α → T → Prop} {hi : Option α}
    {before after : List (α × T)} {k : α} {c : T} {lo : Option α} {t : T} :
    OrderedFrom ord hi lo t (before ++ (k, c) :: after) ↔
      OrderedFrom ord (some k) lo t before ∧ Between lo hi k ∧
        OrderedFrom ord hi (some k) c after := by
  induction before generalizing lo t with
  | nil => rfl
  | cons p before ih =>
      rcases p with ⟨k', c'⟩
      simp only [List.cons_append, OrderedFrom, ih]
      constructor
      · rintro ⟨first, between, others, between', rest⟩
        refine ⟨⟨first, ⟨between.gt, ?_⟩, others⟩, ⟨?_, between'.lt⟩, rest⟩
        · rintro _ ⟨⟩
          exact between'.gt k' rfl
        · intro l mem
          exact lt_trans (between.gt l mem) (between'.gt k' rfl)
      · rintro ⟨⟨first, between, others⟩, between', rest⟩
        have lt : k' < k := between.lt k rfl
        refine ⟨first, ⟨between.gt, ?_⟩, others, ⟨?_, between'.lt⟩, rest⟩
        · intro h mem
          exact lt_trans lt (between'.lt h mem)
        · rintro l ⟨⟩
          exact lt

/-- Every subtree of an ordered node is ordered. -/
theorem OrderedFrom.kids {ord : Option α → Option α → T → Prop} {hi : Option α}
    {rest : List (α × T)} {lo : Option α} {t : T} (ordered : OrderedFrom ord hi lo t rest) :
    ∀ c ∈ kids t rest, ∃ lo hi, ord lo hi c := by
  induction rest generalizing lo t with
  | nil =>
      intro c mem
      obtain rfl : c = t := by simpa [BPlus.kids] using mem
      exact ⟨lo, hi, ordered⟩
  | cons p rest ih =>
      rcases p with ⟨k, c'⟩
      rcases ordered with ⟨first, between, others⟩
      intro c mem
      rcases List.mem_cons.mp mem with rfl | mem
      · exact ⟨lo, some k, first⟩
      · exact ih others c mem

/-- The separators of an ordered node ascend strictly. -/
theorem OrderedFrom.seps_sorted {ord : Option α → Option α → T → Prop} {hi : Option α}
    {rest : List (α × T)} {lo : Option α} {t : T} (ordered : OrderedFrom ord hi lo t rest) :
    (rest.map Prod.fst).Pairwise (· < ·) ∧ ∀ k ∈ rest.map Prod.fst, Between lo hi k := by
  induction rest generalizing lo t with
  | nil => simp
  | cons p rest ih =>
      rcases p with ⟨k, c⟩
      rcases ordered with ⟨first, between, others⟩
      rcases ih others with ⟨sorted, inside⟩
      constructor
      · rw [List.map_cons, List.pairwise_cons]
        exact ⟨fun k' mem => (inside k' mem).gt k rfl, sorted⟩
      · rw [List.map_cons, List.forall_mem_cons]
        refine ⟨between, fun k' mem => ⟨fun l l_mem => ?_, (inside k' mem).lt⟩⟩
        exact lt_trans (between.gt l l_mem) ((inside k' mem).gt k rfl)

/-- Below every node the separators ascend, and the entries of each subtree lie
at or above the separator before it and below the one after it. -/
def Cuts : (d : Nat) → Tree α d → Prop
  | 0, _ => True
  | d + 1, t =>
      ((Node.rest t).map Prod.fst).Pairwise (· < ·) ∧
        (∀ i c, (kids (Node.first t) (Node.rest t))[i]? = some c → ∀ x ∈ c.entries,
          (∀ j k, i = j + 1 → ((Node.rest t).map Prod.fst)[j]? = some k → k ≤ x) ∧
          (∀ k, ((Node.rest t).map Prod.fst)[i]? = some k → x < k)) ∧
        ∀ c ∈ kids (Node.first t) (Node.rest t), Cuts d c

theorem OrderedFrom.between {ord : Option α → Option α → T → Prop} {ent : T → List α}
    (inside : ∀ lo hi t, ord lo hi t → ∀ x ∈ ent t, Within lo hi x) {hi : Option α}
    {rest : List (α × T)} {lo : Option α} {t : T} (ordered : OrderedFrom ord hi lo t rest)
    (i : Nat) (c : T) (at_i : (BPlus.kids t rest)[i]? = some c) (x : α) (mem : x ∈ ent c) :
    (∀ j k, i = j + 1 → (rest.map Prod.fst)[j]? = some k → k ≤ x) ∧
      (∀ k, (rest.map Prod.fst)[i]? = some k → x < k) := by
  induction rest generalizing lo t i with
  | nil => simp
  | cons p rest ih =>
      rcases p with ⟨k₀, c₀⟩
      rcases ordered with ⟨first, between, others⟩
      cases i with
      | zero =>
          obtain rfl : t = c := by simpa [BPlus.kids] using at_i
          constructor
          · intro j k absurdEq
            omega
          · intro k is_k₀
            obtain rfl : k₀ = k := by simpa using is_k₀
            exact (inside lo _ t first x mem).lt k₀ rfl
      | succ i =>
          have tail : (BPlus.kids c₀ rest)[i]? = some c := by simpa [BPlus.kids] using at_i
          rcases ih others i tail with ⟨above, below⟩
          constructor
          · intro j k same is_k
            obtain rfl : j = i := by omega
            cases j with
            | zero =>
                obtain rfl : k₀ = k := by simpa using is_k
                obtain rfl : c₀ = c := by simpa [BPlus.kids] using tail
                rcases rest with _ | ⟨⟨k₁, c₁⟩, rest⟩
                · exact (inside _ _ _ others x mem).ge k₀ rfl
                · exact (inside _ _ _ others.1 x mem).ge k₀ rfl
            | succ j => exact above j k rfl (by simpa using is_k)
          · intro k is_k
            exact below k (by simpa using is_k)

theorem Ordered.cuts {d : Nat} {lo hi : Option α} {t : Tree α d}
    (ordered : Ordered d lo hi t) : Cuts d t := by
  induction d generalizing lo hi with
  | zero => trivial
  | succ d ih =>
      refine ⟨(OrderedFrom.seps_sorted ordered).1, ?_, ?_⟩
      · exact OrderedFrom.between (fun _ _ _ => Ordered.within) ordered
      · intro c mem
        rcases OrderedFrom.kids ordered c mem with ⟨lo', hi', c_ordered⟩
        exact ih c_ordered

/-- The entries of each leaf ascend. -/
theorem Ordered.leaves_sorted {d : Nat} {lo hi : Option α} {t : Tree α d}
    (ordered : Ordered d lo hi t) : ∀ leaf ∈ t.leaves, leaf.entries.Pairwise (· < ·) := by
  induction d generalizing lo hi with
  | zero =>
      intro leaf mem
      rw [List.mem_singleton.mp mem]
      exact ordered.1
  | succ d ih =>
      intro leaf mem
      rcases List.mem_append.mp mem with mem | mem
      · rcases OrderedFrom.kids ordered _ (List.mem_cons_self ..) with ⟨lo', hi', c_ordered⟩
        exact ih c_ordered leaf mem
      · rcases List.mem_flatMap.mp mem with ⟨p, p_mem, mem⟩
        have in_kids : p.2 ∈ BPlus.kids (Node.first t) (Node.rest t) :=
          List.mem_cons_of_mem _ (List.mem_map_of_mem p_mem)
        rcases OrderedFrom.kids ordered _ in_kids with ⟨lo', hi', c_ordered⟩
        exact ih c_ordered leaf mem

/-! ### Insertion keeps order -/

theorem orderedInsert_sorted {e : α} {es : List α} (sorted : es.Pairwise (· < ·))
    (new : e ∉ es) : (es.orderedInsert (· ≤ ·) e).Pairwise (· < ·) := by
  have weak := (sorted.imp fun lt => le_of_lt lt).orderedInsert (r := (· ≤ ·)) e es
  have nodup : (es.orderedInsert (· ≤ ·) e).Nodup := by
    rw [(List.perm_orderedInsert (· ≤ ·) e es).nodup_iff]
    exact List.nodup_cons.mpr ⟨new, sorted.imp fun lt => ne_of_lt lt⟩
  exact (weak.and nodup).imp fun ⟨le, ne⟩ => lt_of_le_of_ne le ne

theorem leafOutcome_ordered {cap next no : Nat} {es : List α} {lo hi : Option α}
    (one : 1 ≤ cap) (sorted : es.Pairwise (· < ·)) (within : ∀ x ∈ es, Within lo hi x) :
    (leafOutcome cap next no es).1.OrderedBy (Ordered 0) lo hi := by
  unfold leafOutcome
  split
  · exact ⟨sorted, within⟩
  · rename_i full
    split
    · exact ⟨sorted, within⟩
    · rename_i k more half
      have parts : es = es.take (es.length / 2) ++ k :: more := by
        rw [← half, List.take_append_drop]
      have nonempty : es.take (es.length / 2) ≠ [] := by
        apply List.ne_nil_of_length_pos
        rw [List.length_take]
        omega
      have cut := List.pairwise_append.mp (parts ▸ sorted)
      have below : ∀ x ∈ es.take (es.length / 2), x < k := fun x mem =>
        cut.2.2 x mem k (List.mem_cons_self ..)
      have k_mem : k ∈ es := by
        rw [parts]
        simp
      refine ⟨⟨cut.1, ?_⟩, ⟨?_, (within k k_mem).lt⟩, cut.2.1, ?_⟩
      · intro x mem
        refine ⟨(within x (List.mem_of_mem_take mem)).ge, ?_⟩
        rintro _ ⟨⟩
        exact below x mem
      · intro l mem
        have x_mem := List.head_mem nonempty
        exact lt_of_le_of_lt ((within _ (List.mem_of_mem_take x_mem)).ge l mem) (below _ x_mem)
      · intro x mem
        have x_mem : x ∈ es := by
          rw [parts]
          exact List.mem_append_right _ mem
        refine ⟨?_, (within x x_mem).lt⟩
        rintro _ ⟨⟩
        rcases List.mem_cons.mp mem with rfl | mem
        · exact le_refl x
        · exact ((List.pairwise_cons.mp cut.2.1).1 x mem).le

theorem nodeOutcome_ordered {d cap next no : Nat} {first : Tree α d}
    {rest : List (α × Tree α d)} {lo hi : Option α}
    (ordered : OrderedFrom (Ordered d) hi lo first rest) :
    (nodeOutcome cap next no first rest).1.OrderedBy (Ordered (d + 1)) lo hi := by
  unfold nodeOutcome
  split
  · exact ordered
  · split
    · exact ordered
    · rename_i k c more half
      have parts : rest = rest.take (rest.length / 2) ++ (k, c) :: more := by
        rw [← half, List.take_append_drop]
      exact OrderedFrom.cut.mp (parts ▸ ordered)

theorem insertFrom_ordered {ord : Option α → Option α → T → Prop} {ent : T → List α}
    {ins : T → Outcome α T × Nat} {e : α}
    (step : ∀ lo hi t, ord lo hi t → Within lo hi e → e ∉ ent t →
      (ins t).1.OrderedBy ord lo hi)
    {hi : Option α} {rest : List (α × T)} {lo : Option α} {t : T}
    (ordered : OrderedFrom ord hi lo t rest) (within : Within lo hi e)
    (new : e ∉ ent t ++ rest.flatMap fun p => ent p.2) :
    OrderedFrom ord hi lo (insertFrom ins e t rest).1 (insertFrom ins e t rest).2.1 := by
  induction rest generalizing lo t with
  | nil =>
      have out := step lo hi t ordered within (by simpa using new)
      rw [insertFrom]
      split <;> rename_i same <;> rw [same] at out
      · exact out
      · exact out
  | cons p rest ih =>
      rcases p with ⟨k, c⟩
      rcases ordered with ⟨first, between, others⟩
      rw [List.flatMap_cons, List.mem_append, not_or] at new
      rw [insertFrom]
      split
      · rename_i lt
        have inFirst : Within lo (some k) e := ⟨within.ge, by rintro _ ⟨⟩; exact lt⟩
        have out := step lo (some k) t first inFirst new.1
        split <;> rename_i same <;> rw [same] at out
        · exact ⟨out, between, others⟩
        · rename_i l k' r _
          have k'_lt : k' < k := out.2.1.lt k rfl
          refine ⟨out.1, ⟨out.2.1.gt, fun h mem => lt_trans k'_lt (between.lt h mem)⟩, out.2.2,
            ⟨?_, between.lt⟩, others⟩
          rintro _ ⟨⟩
          exact k'_lt
      · rename_i not_lt
        have inOthers : Within (some k) hi e := by
          refine ⟨?_, within.lt⟩
          rintro _ ⟨⟩
          exact le_of_not_gt not_lt
        exact ⟨first, between, ih others inOthers new.2⟩

/-- Inserting a new entry keeps a tree ordered. -/
theorem insertRec_ordered {cap next : Nat} {e : α} (one : 1 ≤ cap) {d : Nat}
    {lo hi : Option α} {t : Tree α d} (ordered : Ordered d lo hi t) (within : Within lo hi e)
    (new : e ∉ t.entries) :
    (insertRec cap next e d t).1.OrderedBy (Ordered d) lo hi := by
  induction d generalizing lo hi with
  | zero =>
      apply leafOutcome_ordered one (orderedInsert_sorted ordered.1 new)
      intro x mem
      rcases (List.mem_orderedInsert (· ≤ ·)).mp mem with rfl | mem
      · exact within
      · exact ordered.2 x mem
  | succ d ih =>
      have inserted := insertFrom_ordered (fun _ _ _ => ih) ordered within new
      exact nodeOutcome_ordered inserted

end Order

/-! ## Contents -/

/-- What `f` collects over an outcome, from left to right. -/
def Outcome.collect {β : Type} (f : T → List β) : Outcome α T → List β
  | .done t => f t
  | .split l _ r => f l ++ f r

/-- The subtree of an outcome that keeps the number. -/
def Outcome.left : Outcome α T → T
  | .done t => t
  | .split l _ _ => l

section Contents

variable {β : Type}

/-- What inserting into a subtree adds is what inserting among subtrees adds. -/
theorem insertFrom_perm [LinearOrder α] {f : T → List β} {ins : T → Outcome α T × Nat} {e : α}
    (added : Nat → List β)
    (step : ∀ t, ((ins t).1.collect f).Perm (added (ins t).2 ++ f t))
    (t : T) (rest : List (α × T)) :
    (f (insertFrom ins e t rest).1 ++
        (insertFrom ins e t rest).2.1.flatMap fun p => f p.2).Perm
      (added (insertFrom ins e t rest).2.2 ++ (f t ++ rest.flatMap fun p => f p.2)) := by
  induction rest generalizing t with
  | nil =>
      have out := step t
      rw [insertFrom]
      split <;> rename_i same <;> rw [same] at out <;> simpa [Outcome.collect] using out
  | cons p rest ih =>
      rcases p with ⟨k, c⟩
      rw [insertFrom]
      split
      · have out := step t
        split <;> rename_i same <;> rw [same] at out
        · simpa [Outcome.collect, List.append_assoc] using
            out.append_right (f c ++ rest.flatMap fun p => f p.2)
        · simpa [Outcome.collect, List.append_assoc] using
            out.append_right (f c ++ rest.flatMap fun p => f p.2)
      · have moved := (ih c).append_left (f t)
        have swap := (@List.perm_append_comm _ (f t)
          (added (insertFrom ins e c rest).2.2)).append_right
            (f c ++ rest.flatMap fun p => f p.2)
        rw [List.append_assoc, List.append_assoc] at swap
        simpa [List.append_assoc] using moved.trans swap

theorem leafOutcome_entries (cap next no : Nat) (es : List α) :
    (leafOutcome cap next no es).1.collect (Tree.entries 0) = es := by
  unfold leafOutcome
  split
  · rfl
  · split
    · rfl
    · rename_i half
      change es.take (es.length / 2) ++ (_ :: _) = es
      rw [← half, List.take_append_drop]

theorem nodeOutcome_entries {d : Nat} (cap next no : Nat) (first : Tree α d)
    (rest : List (α × Tree α d)) :
    (nodeOutcome cap next no first rest).1.collect (Tree.entries (d + 1)) =
      first.entries ++ rest.flatMap fun p => p.2.entries := by
  unfold nodeOutcome
  split
  · rfl
  · split
    · rfl
    · rename_i k c more half
      have parts : rest.take (rest.length / 2) ++ (k, c) :: more = rest := by
        rw [← half, List.take_append_drop]
      change first.entries ++ (rest.take (rest.length / 2)).flatMap (fun p => p.2.entries) ++
        (c.entries ++ more.flatMap fun p => p.2.entries) = _
      conv_rhs => rw [← parts]
      simp

/-- Insertion adds the entry and loses none. -/
theorem insertRec_entries [LinearOrder α] (cap next : Nat) (e : α) (d : Nat) (t : Tree α d) :
    ((insertRec cap next e d t).1.collect (Tree.entries d)).Perm (e :: t.entries) := by
  induction d with
  | zero =>
      rw [insertRec, leafOutcome_entries]
      exact List.perm_orderedInsert _ _ _
  | succ d ih =>
      rw [insertRec_succ, nodeOutcome_entries]
      exact insertFrom_perm (fun _ => [e]) (fun t => ih t) (Node.first t) (Node.rest t)

/-! ### Numbers -/

theorem leafOutcome_names (cap next no : Nat) (es : List α) :
    next ≤ (leafOutcome cap next no es).2 ∧
      ((leafOutcome cap next no es).1.collect (Tree.names 0)).Perm
        (List.range' next ((leafOutcome cap next no es).2 - next) ++ [no]) := by
  unfold leafOutcome
  split
  · simp [Outcome.collect, Tree.names]
  · split
    · simp [Outcome.collect, Tree.names]
    · simp only [Outcome.collect, Tree.names, Nat.le_add_right, Nat.add_sub_cancel_left, true_and]
      exact List.Perm.swap _ _ _

theorem nodeOutcome_names {d : Nat} (cap next no : Nat) (first : Tree α d)
    (rest : List (α × Tree α d)) :
    next ≤ (nodeOutcome cap next no first rest).2 ∧
      ((nodeOutcome cap next no first rest).1.collect (Tree.names (d + 1))).Perm
        (List.range' next ((nodeOutcome cap next no first rest).2 - next) ++
          no :: (first.names ++ rest.flatMap fun p => p.2.names)) := by
  unfold nodeOutcome
  split
  · simp [Outcome.collect, Tree.names]
  · split
    · simp [Outcome.collect, Tree.names]
    · rename_i k c more half
      have parts : rest.take (rest.length / 2) ++ (k, c) :: more = rest := by
        rw [← half, List.take_append_drop]
      refine ⟨Nat.le_succ _, ?_⟩
      simp only [Outcome.collect, Tree.names, Nat.add_sub_cancel_left]
      conv_rhs => rw [← parts]
      rw [List.flatMap_append, List.flatMap_cons]
      change List.Perm _ (next :: no :: _)
      have front : List.Perm _ (next :: ((no :: (first.names ++
          (rest.take (rest.length / 2)).flatMap fun p => p.2.names)) ++
            (c.names ++ more.flatMap fun p => p.2.names))) :=
        List.perm_middle
      simpa [List.append_assoc] using front

theorem insertFrom_next [LinearOrder α] {next : Nat} {ins : T → Outcome α T × Nat} {e : α}
    (step : ∀ t, next ≤ (ins t).2) (t : T) (rest : List (α × T)) :
    next ≤ (insertFrom ins e t rest).2.2 := by
  induction rest generalizing t with
  | nil =>
      have le := step t
      rw [insertFrom]
      split <;> rename_i same <;> rw [same] at le <;> exact le
  | cons p rest ih =>
      have le := step t
      rw [insertFrom]
      split
      · split <;> rename_i same <;> rw [same] at le <;> exact le
      · exact ih p.2

/-- Insertion keeps the numbers in use and adds those it took from the counter. -/
theorem insertRec_names [LinearOrder α] (cap next : Nat) (e : α) (d : Nat) (t : Tree α d) :
    next ≤ (insertRec cap next e d t).2 ∧
      ((insertRec cap next e d t).1.collect (Tree.names d)).Perm
        (List.range' next ((insertRec cap next e d t).2 - next) ++ t.names) := by
  induction d with
  | zero => exact leafOutcome_names _ _ _ _
  | succ d ih =>
      have inner := insertFrom_next (e := e) (fun t => (ih t).1) (Node.first t) (Node.rest t)
      have kept := insertFrom_perm (e := e) (fun n => List.range' next (n - next))
        (fun t => (ih t).2) (Node.first t) (Node.rest t)
      rw [insertRec]
      generalize insertFrom (insertRec cap next e d) e (Node.first t) (Node.rest t) = res
        at inner kept ⊢
      rcases res with ⟨first, rest, mid⟩
      have outer := nodeOutcome_names cap mid (Node.no t) first rest
      simp only at inner kept outer ⊢
      generalize nodeOutcome cap mid (Node.no t) first rest = out at outer ⊢
      refine ⟨inner.trans outer.1, outer.2.trans ?_⟩
      have joined : List.range' next (out.2 - next) =
          List.range' next (mid - next) ++ List.range' mid (out.2 - mid) := by
        have parts : out.2 - next = (mid - next) + (out.2 - mid) := by
          have := outer.1
          omega
        have start : next + (mid - next) = mid := by omega
        rw [parts, ← List.range'_append_1, start]
      rw [joined]
      refine ((kept.cons (Node.no t)).append_left _).trans ?_
      apply List.perm_iff_count.mpr
      intro n
      simp only [Tree.names, List.count_append, List.count_cons]
      omega

/-- What the left half of each outcome keeps, the leftmost subtree keeps. -/
theorem insertFrom_first [LinearOrder α] {f : T → β} {ins : T → Outcome α T × Nat} {e : α}
    (step : ∀ t, f (ins t).1.left = f t) (t : T) (rest : List (α × T)) :
    f (insertFrom ins e t rest).1 = f t := by
  have same := step t
  cases rest with
  | nil =>
      rw [insertFrom]
      split <;> rename_i out <;> rw [out] at same <;> exact same
  | cons p rest =>
      rw [insertFrom]
      split
      · split <;> rename_i out <;> rw [out] at same <;> exact same
      · rfl

/-- Insertion leaves the leftmost leaf in place. -/
theorem insertRec_firstLeaf [LinearOrder α] (cap next : Nat) (e : α) (d : Nat) (t : Tree α d) :
    ((insertRec cap next e d t).1.left : Tree α d).firstLeaf = t.firstLeaf := by
  induction d with
  | zero =>
      rw [insertRec, leafOutcome]
      split
      · rfl
      · split <;> rfl
  | succ d ih =>
      have first := insertFrom_first (e := e) ih (Node.first t) (Node.rest t)
      rw [insertRec_succ, nodeOutcome]
      split
      · exact first
      · split <;> exact first

/-- Insertion leaves the root in place. -/
theorem insertRec_no [LinearOrder α] (cap next : Nat) (e : α) (d : Nat) (t : Tree α d) :
    ((insertRec cap next e d t).1.left : Tree α d).no = t.no := by
  cases d with
  | zero =>
      rw [insertRec, leafOutcome]
      split
      · rfl
      · split <;> rfl
  | succ d =>
      rw [insertRec_succ, nodeOutcome]
      split
      · rfl
      · split <;> rfl

end Contents

/-! ## Sizes -/

/-- Leaves and nodes are filled to `cap` at most; those below the root at least
to half of it, the root to `least`. -/
def Sized (cap : Nat) : (least d : Nat) → Tree α d → Prop
  | least, 0, t => least ≤ (Leaf.entries t).length ∧ (Leaf.entries t).length ≤ cap
  | least, d + 1, t =>
      least ≤ (Node.rest t).length ∧ (Node.rest t).length ≤ cap ∧
        Sized cap (cap / 2) d (Node.first t) ∧ ∀ p ∈ Node.rest t, Sized cap (cap / 2) d p.2

/-- The sizes of an outcome: an undivided one keeps the least size of what it
replaces, halves are half full. -/
def Outcome.SizedBy (cap least : Nat) {d : Nat} : Outcome α (Tree α d) → Prop
  | .done t => Sized cap least d t
  | .split l _ r => Sized cap (cap / 2) d l ∧ Sized cap (cap / 2) d r

section Sizes

theorem Sized.weaken {cap least least' d : Nat} {t : Tree α d} (le : least' ≤ least)
    (sized : Sized cap least d t) : Sized cap least' d t := by
  cases d with
  | zero => exact ⟨le.trans sized.1, sized.2⟩
  | succ d => exact ⟨le.trans sized.1, sized.2⟩

theorem leafOutcome_sized {cap least next no : Nat} {es : List α} (one : 1 ≤ cap)
    (ge : least ≤ es.length) (le : es.length ≤ cap + 1) :
    (leafOutcome cap next no es).1.SizedBy (d := 0) cap least := by
  unfold leafOutcome
  split
  · rename_i fits
    exact ⟨ge, fits⟩
  · rename_i full
    have half_length : (es.drop (es.length / 2)).length = es.length - es.length / 2 :=
      List.length_drop
    split
    · rename_i half
      rw [half, List.length_nil] at half_length
      omega
    · rename_i k more half
      rw [half, List.length_cons] at half_length
      have take_length : (es.take (es.length / 2)).length = es.length / 2 := by
        rw [List.length_take]
        omega
      refine ⟨⟨?_, ?_⟩, ?_, ?_⟩
      · change cap / 2 ≤ (es.take (es.length / 2)).length
        omega
      · change (es.take (es.length / 2)).length ≤ cap
        omega
      · change cap / 2 ≤ more.length + 1
        omega
      · change more.length + 1 ≤ cap
        omega

theorem nodeOutcome_sized {cap least next no d : Nat} {first : Tree α d}
    {rest : List (α × Tree α d)} (ge : least ≤ rest.length) (le : rest.length ≤ cap + 1)
    (first_sized : Sized cap (cap / 2) d first)
    (rest_sized : ∀ p ∈ rest, Sized cap (cap / 2) d p.2) :
    (nodeOutcome cap next no first rest).1.SizedBy (d := d + 1) cap least := by
  unfold nodeOutcome
  split
  · rename_i fits
    exact ⟨ge, fits, first_sized, rest_sized⟩
  · rename_i full
    have half_length : (rest.drop (rest.length / 2)).length = rest.length - rest.length / 2 :=
      List.length_drop
    split
    · rename_i half
      rw [half, List.length_nil] at half_length
      omega
    · rename_i k c more half
      rw [half, List.length_cons] at half_length
      have take_length : (rest.take (rest.length / 2)).length = rest.length / 2 := by
        rw [List.length_take]
        omega
      have in_rest : ∀ p ∈ (k, c) :: more, p ∈ rest := by
        intro p mem
        rw [← half] at mem
        exact List.mem_of_mem_drop mem
      refine ⟨⟨?_, ?_, first_sized, ?_⟩, ?_, ?_, ?_, ?_⟩
      · change cap / 2 ≤ (rest.take (rest.length / 2)).length
        omega
      · change (rest.take (rest.length / 2)).length ≤ cap
        omega
      · intro p mem
        exact rest_sized p (List.mem_of_mem_take mem)
      · change cap / 2 ≤ more.length
        omega
      · change more.length ≤ cap
        omega
      · exact rest_sized (k, c) (in_rest _ (List.mem_cons_self ..))
      · intro p mem
        exact rest_sized p (in_rest p (List.mem_cons_of_mem _ mem))

theorem insertFrom_sized [LinearOrder α] {cap d : Nat} {ins : Tree α d → Outcome α (Tree α d) × Nat} {e : α}
    (step : ∀ t, Sized cap (cap / 2) d t → (ins t).1.SizedBy cap (cap / 2))
    {first : Tree α d} {rest : List (α × Tree α d)}
    (first_sized : Sized cap (cap / 2) d first)
    (rest_sized : ∀ p ∈ rest, Sized cap (cap / 2) d p.2) :
    rest.length ≤ (insertFrom ins e first rest).2.1.length ∧
      (insertFrom ins e first rest).2.1.length ≤ rest.length + 1 ∧
      Sized cap (cap / 2) d (insertFrom ins e first rest).1 ∧
      ∀ p ∈ (insertFrom ins e first rest).2.1, Sized cap (cap / 2) d p.2 := by
  induction rest generalizing first with
  | nil =>
      have out := step first first_sized
      rw [insertFrom]
      split <;> rename_i same <;> rw [same] at out
      · exact ⟨Nat.le_refl _, Nat.le_succ _, out, by simp⟩
      · exact ⟨Nat.le_succ _, Nat.le_refl _, out.1, by simpa using out.2⟩
  | cons p rest ih =>
      rw [List.forall_mem_cons] at rest_sized
      rw [insertFrom]
      split
      · have out := step first first_sized
        split <;> rename_i same <;> rw [same] at out
        · exact ⟨Nat.le_refl _, Nat.le_succ _, out, List.forall_mem_cons.mpr rest_sized⟩
        · refine ⟨Nat.le_succ _, Nat.le_refl _, out.1, ?_⟩
          exact List.forall_mem_cons.mpr ⟨out.2, List.forall_mem_cons.mpr rest_sized⟩
      · rcases ih rest_sized.1 rest_sized.2 with ⟨ge, le, head, tail⟩
        refine ⟨Nat.succ_le_succ ge, Nat.succ_le_succ le, first_sized, ?_⟩
        exact List.forall_mem_cons.mpr ⟨head, tail⟩

/-- Insertion keeps a tree filled. -/
theorem insertRec_sized [LinearOrder α] {cap least next : Nat} {e : α} (one : 1 ≤ cap)
    {d : Nat} {t : Tree α d} (sized : Sized cap least d t) :
    (insertRec cap next e d t).1.SizedBy cap least := by
  induction d generalizing least with
  | zero =>
      have len := List.orderedInsert_length (· ≤ ·) (Leaf.entries t) e
      have := sized.1
      have := sized.2
      exact leafOutcome_sized one (by omega) (by omega)
  | succ d ih =>
      rcases sized with ⟨ge, le, first_sized, rest_sized⟩
      rcases insertFrom_sized (e := e) (fun t => ih (t := t)) first_sized rest_sized with
        ⟨ge', le', first_sized', rest_sized'⟩
      exact nodeOutcome_sized (ge.trans ge') (le'.trans (Nat.succ_le_succ le)) first_sized'
        rest_sized'

/-! ### Counting -/

theorem length_flatMap_add {β γ : Type} {f : T → List β} {g : T → List γ} {factor extra : Nat}
    (rest : List (α × T))
    (step : ∀ p ∈ rest, factor * (f p.2).length + extra ≤ (g p.2).length) :
    factor * (rest.flatMap fun p => f p.2).length + extra * rest.length ≤
      (rest.flatMap fun p => g p.2).length := by
  induction rest with
  | nil => simp
  | cons p rest ih =>
      have head := step p (List.mem_cons_self ..)
      have tail := ih fun q mem => step q (List.mem_cons_of_mem _ mem)
      simp only [List.flatMap_cons, List.length_append, List.length_cons, Nat.mul_succ, Nat.mul_add]
      omega

theorem mul_length_le_flatMap {β : Type} {g : T → List β} {least : Nat} (rest : List (α × T))
    (step : ∀ p ∈ rest, least ≤ (g p.2).length) :
    least * rest.length ≤ (rest.flatMap fun p => g p.2).length := by
  have none : 0 * (rest.flatMap fun _ => ([] : List β)).length + least * rest.length ≤
      (rest.flatMap fun p => g p.2).length :=
    length_flatMap_add (f := fun _ => []) rest fun p mem => by simpa using step p mem
  simpa using none

/-- Below the root there are at least two entries for each page. -/
theorem Sized.names_lt {cap d : Nat} {t : Tree α d} (eight : 8 ≤ cap)
    (sized : Sized cap (cap / 2) d t) : 2 * t.names.length + 2 ≤ t.entries.length := by
  induction d with
  | zero =>
      have half : cap / 2 ≤ t.entries.length := sized.1
      have one : t.names.length = 1 := rfl
      omega
  | succ d ih =>
      rcases sized with ⟨ge, le, first_sized, rest_sized⟩
      have first := ih first_sized
      have others := length_flatMap_add (f := Tree.names d) (g := Tree.entries d)
        (Node.rest t) fun p mem => ih (rest_sized p mem)
      have names : (Tree.names (d + 1) t).length = (Node.first t).names.length +
          ((Node.rest t).flatMap fun p => p.2.names).length + 1 := by
        simp [Tree.names]
      have entries : (Tree.entries (d + 1) t).length = (Node.first t).entries.length +
          ((Node.rest t).flatMap fun p => p.2.entries).length := by
        simp [Tree.entries]
      omega

/-- Every level below the root multiplies the entries. -/
theorem Sized.pow_le {cap d : Nat} {t : Tree α d} (sized : Sized cap (cap / 2) d t) :
    (cap / 2 + 1) ^ d * (cap / 2) ≤ t.entries.length := by
  induction d with
  | zero =>
      have half : cap / 2 ≤ t.entries.length := sized.1
      simpa using half
  | succ d ih =>
      rcases sized with ⟨ge, le, first_sized, rest_sized⟩
      have first := ih first_sized
      have others := mul_length_le_flatMap (g := Tree.entries d) (Node.rest t)
        fun p mem => ih (rest_sized p mem)
      have entries : (Tree.entries (d + 1) t).length = (Node.first t).entries.length +
          ((Node.rest t).flatMap fun p => p.2.entries).length := by
        simp [Tree.entries]
      have more : (cap / 2 + 1) ^ d * (cap / 2) * (cap / 2) ≤
          (cap / 2 + 1) ^ d * (cap / 2) * (Node.rest t).length :=
        Nat.mul_le_mul_left _ ge
      have power : (cap / 2 + 1) ^ (d + 1) * (cap / 2) =
          (cap / 2 + 1) ^ d * (cap / 2) * (cap / 2) + (cap / 2 + 1) ^ d * (cap / 2) := by
        ring
      omega

end Sizes

/-! ## Well-formed trees -/

section WellFormed

variable [LinearOrder α]

/-- An ordered tree, filled as insertion fills it, whose pages are numbered from
`base` to `next`. -/
structure Wf (cap base next : Nat) (t : (d : Nat) × Tree α d) : Prop where
  ordered : Ordered t.1 none none t.2
  sized : Sized cap (if t.1 = 0 then 0 else 1) t.1 t.2
  base_le : base ≤ next
  names : t.2.names.Perm (List.range' base (next - base))

/-- Insertion of a new entry keeps the tree well-formed and adds the entry. -/
theorem Wf.insert {cap base next : Nat} {t : (d : Nat) × Tree α d} {e : α} (two : 2 ≤ cap)
    (wf : Wf cap base next t) (new : e ∉ t.2.entries) :
    Wf cap base (insert cap next e t).2 (insert cap next e t).1 ∧
      ((insert cap next e t).1.2.entries).Perm (e :: t.2.entries) := by
  rcases t with ⟨d, t⟩
  have everywhere : Within none none e := ⟨by rintro _ ⟨⟩, by rintro _ ⟨⟩⟩
  have ordered : (insertRec cap next e d t).1.OrderedBy (Ordered d) none none :=
    insertRec_ordered (by omega) wf.ordered everywhere new
  have sized : (insertRec cap next e d t).1.SizedBy cap (if d = 0 then 0 else 1) :=
    insertRec_sized (by omega) wf.sized
  have names := insertRec_names cap next e d t
  have entries := insertRec_entries cap next e d t
  have base_le := wf.base_le
  have renamed : ∀ mid, next ≤ mid → (List.range' next (mid - next) ++ t.names).Perm
      (List.range' base (mid - base)) := by
    intro mid le
    have parts : mid - base = (next - base) + (mid - next) := by omega
    have start : base + (next - base) = next := by omega
    rw [parts, ← List.range'_append_1, start]
    exact (List.perm_append_comm).trans (wf.names.append_right _)
  simp only [BPlus.insert]
  generalize insertRec cap next e d t = out at ordered sized names entries ⊢
  rcases out with ⟨t' | ⟨l, k, r⟩, mid⟩
  · exact ⟨⟨ordered, sized, base_le.trans names.1, names.2.trans (renamed mid names.1)⟩, entries⟩
  · have le := names.1
    refine ⟨⟨ordered, ⟨?_, ?_, sized.1, ?_⟩, ?_, ?_⟩, ?_⟩
    · exact Nat.le_refl 1
    · exact Nat.le_of_lt two
    · simpa using sized.2
    · exact (base_le.trans le).trans (Nat.le_succ mid)
    · have parts : mid + 1 - base = (mid - base) + 1 := by omega
      have start : base + (mid - base) = mid := by omega
      have both : (l.names ++ r.names).Perm (List.range' base (mid - base)) :=
        names.2.trans (renamed mid le)
      rw [parts, ← List.range'_append_1, start]
      have root : (mid :: (l.names ++ r.names)).Perm
          (List.range' base (mid - base) ++ [mid]) :=
        (both.cons mid).trans (List.perm_append_singleton mid _).symm
      simpa [Tree.names] using root
    · simpa [Tree.entries, Outcome.collect] using entries

/-- There are at most half as many pages as entries, and one for the empty tree. -/
theorem Wf.next_le {cap base next : Nat} {t : (d : Nat) × Tree α d} (eight : 8 ≤ cap)
    (wf : Wf cap base next t) : 2 * next ≤ 2 * base + t.2.entries.length + 2 := by
  have count := wf.names.length_eq
  rw [List.length_range'] at count
  rcases t with ⟨d, t⟩
  cases d with
  | zero =>
      have one : t.names.length = 1 := rfl
      simp only at count ⊢
      omega
  | succ d =>
      have sized : Sized cap 1 (d + 1) t := wf.sized
      rcases sized with ⟨ge, le, first_sized, rest_sized⟩
      have first := first_sized.names_lt eight
      have others := length_flatMap_add (f := Tree.names d) (g := Tree.entries d)
        (Node.rest t) fun p mem => (rest_sized p mem).names_lt eight
      have names : (Tree.names (d + 1) t).length = (Node.first t).names.length +
          ((Node.rest t).flatMap fun p => p.2.names).length + 1 := by
        simp [Tree.names]
      have entries : (Tree.entries (d + 1) t).length = (Node.first t).entries.length +
          ((Node.rest t).flatMap fun p => p.2.entries).length := by
        simp [Tree.entries]
      simp only at count ⊢
      omega

/-- The height is logarithmic in the number of entries. -/
theorem Wf.pow_le {cap base next d : Nat} {t : Tree α (d + 1)} (wf : Wf cap base next ⟨d + 1, t⟩) :
    2 * ((cap / 2 + 1) ^ d * (cap / 2)) ≤ t.entries.length := by
  have sized : Sized cap 1 (d + 1) t := wf.sized
  rcases sized with ⟨ge, le, first_sized, rest_sized⟩
  have first := first_sized.pow_le
  have others := mul_length_le_flatMap (g := Tree.entries d) (Node.rest t)
    fun p mem => (rest_sized p mem).pow_le
  have entries : (Tree.entries (d + 1) t).length = (Node.first t).entries.length +
      ((Node.rest t).flatMap fun p => p.2.entries).length := by
    simp [Tree.entries]
  have one : 1 ≤ (Node.rest t).length := ge
  have more : (cap / 2 + 1) ^ d * (cap / 2) * 1 ≤
      (cap / 2 + 1) ^ d * (cap / 2) * (Node.rest t).length :=
    Nat.mul_le_mul_left _ one
  omega

end WellFormed

end MySimpleDb.Lib.BPlus
