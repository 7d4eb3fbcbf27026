import MySimpleDb.Lib.BPlusTree
import MySimpleDb.Storage.BTree
import MySimpleDb.Storage.BTreeLayout
import MySimpleDb.Storage.PoolStrict

/-!
# Insertion keeps the tree

`Holds` says that pages hold an abstract B+ tree.  Insertion over pages does to
it what insertion into the abstract tree does.
-/

namespace MySimpleDb.Storage

open MySimpleDb.Lib
open MySimpleDb.Lib.BPlus (Tree Leaf Node Outcome Ordered Sized Within)

/-! ## Pages that hold a tree -/

/-- The first leaf of the subtrees, or `next` after the last. -/
def headLeaf {T : Type} (firstLeaf : T → Nat) (next : Nat) : List T → Nat
  | [] => next
  | t :: _ => firstLeaf t

/-- Each subtree is held, and chained to the leaf after it. -/
def HoldsKids {T : Type} (holds : Nat → T → Prop) (firstLeaf : T → Nat) (next : Nat) :
    List T → Prop
  | [] => True
  | t :: rest => holds (headLeaf firstLeaf next rest) t ∧ HoldsKids holds firstLeaf next rest

/-- The pages hold the tree, and its last leaf is chained to `next`. -/
def Holds (pages : Nat → Page) : (d : Nat) → Nat → Tree BTreeEntry d → Prop
  | 0, next, t =>
      LeafPage (pages (Leaf.no t)) (Leaf.entries t) ∧
        pageValid (pages (Leaf.no t)) magicBTreeLeaf = true ∧
        (pages (Leaf.no t)).nextPage = next
  | d + 1, next, t =>
      NodePage (pages (Node.no t)) ((Node.rest t).map Prod.fst)
          ((BPlus.kids (Node.first t) (Node.rest t)).map (Tree.no d)) ∧
        pageValid (pages (Node.no t)) magicBTreeLeaf = true ∧
        HoldsKids (Holds pages d) (Tree.firstLeaf d) next (BPlus.kids (Node.first t) (Node.rest t))

theorem HoldsKids.append_iff {T : Type} {holds : Nat → T → Prop} {firstLeaf : T → Nat}
    {next : Nat} {before after : List T} :
    HoldsKids holds firstLeaf next (before ++ after) ↔
      HoldsKids holds firstLeaf (headLeaf firstLeaf next after) before ∧
        HoldsKids holds firstLeaf next after := by
  induction before with
  | nil => simp [HoldsKids]
  | cons t before ih =>
      have head : headLeaf firstLeaf next (before ++ after) =
          headLeaf firstLeaf (headLeaf firstLeaf next after) before := by
        cases before <;> rfl
      simp only [List.cons_append, HoldsKids, ih, head, and_assoc]

theorem HoldsKids.imp {T : Type} {holds holds' : Nat → T → Prop} {firstLeaf : T → Nat}
    {next : Nat} {kids : List T} (step : ∀ c ∈ kids, ∀ next, holds next c → holds' next c)
    (held : HoldsKids holds firstLeaf next kids) : HoldsKids holds' firstLeaf next kids := by
  induction kids with
  | nil => trivial
  | cons t kids ih =>
      rw [List.forall_mem_cons] at step
      exact ⟨step.1 _ held.1, ih step.2 held.2⟩

section Frame

variable {pages pages' : Nat → Page}

theorem names_succ {d : Nat} (t : Tree BTreeEntry (d + 1)) :
    t.names = Node.no t ::
      (BPlus.kids (Node.first t) (Node.rest t)).flatMap (Tree.names d) := by
  simp [Tree.names, BPlus.kids, List.flatMap_map]

/-- A tree is held by the pages it is made of alone. -/
theorem Holds.frame {d next : Nat} {t : Tree BTreeEntry d} (held : Holds pages d next t)
    (same : ∀ n ∈ t.names, pages' n = pages n) : Holds pages' d next t := by
  induction d generalizing next with
  | zero =>
      have own : pages' (Leaf.no t) = pages (Leaf.no t) := same _ (by simp [Tree.names])
      rcases held with ⟨leaf, valid, chained⟩
      exact ⟨own ▸ leaf, own ▸ valid, own ▸ chained⟩
  | succ d ih =>
      rw [names_succ, List.forall_mem_cons] at same
      rcases held with ⟨node, valid, children⟩
      refine ⟨same.1 ▸ node, same.1 ▸ valid, children.imp ?_⟩
      intro c mem next held
      exact ih held fun n n_mem => same.2 n (List.mem_flatMap.mpr ⟨c, mem, n_mem⟩)

theorem HoldsKids.frame {d next : Nat} {kids : List (Tree BTreeEntry d)}
    (held : HoldsKids (Holds pages d) (Tree.firstLeaf d) next kids)
    (same : ∀ n ∈ kids.flatMap (Tree.names d), pages' n = pages n) :
    HoldsKids (Holds pages' d) (Tree.firstLeaf d) next kids := by
  apply held.imp
  intro c mem next held
  exact held.frame fun n n_mem => same n (List.mem_flatMap.mpr ⟨c, mem, n_mem⟩)

/-- The number of a held tree is that of a page of its own. -/
theorem no_mem_names {d : Nat} (t : Tree BTreeEntry d) : t.no ∈ t.names := by
  cases d with
  | zero => exact List.mem_singleton_self _
  | succ d => exact List.mem_cons_self ..

end Frame

/-! ## New pages -/

/-- The file `fid` has pages up to `hint` and zeros from there on, and its tree
object agrees. -/
structure Tail (s : PoolView) (fid root hint : Nat) : Prop where
  tree : s.trees fid = ⟨root, hint⟩
  top : s.top fid = hint
  zero : ∀ n, hint ≤ n → s.pages ⟨fid, n⟩ = Block.zero
  logged : s.unlogged = []

variable {frames fid root hint : Nat} {own : PageId → Page → Prop} {s : PoolView}

theorem page_ne {n no : Nat} (ne : n ≠ no) : (⟨fid, n⟩ : PageId) ≠ ⟨fid, no⟩ := by
  rintro ⟨⟩
  exact ne rfl

theorem newPage_spec {post : Nat → PoolView → Prop} (tail : Tail s fid root hint)
    (room : s.pins.length < frames) (small : hint + 1 < 2 ^ 32)
    (holds : post hint { s with
      top := Function.update s.top fid (hint + 1)
      pins := ⟨fid, hint⟩ :: s.pins
      trees := Function.update s.trees fid ⟨root, hint + 1⟩ }) :
    Prog.Returns (PoolView.strict frames own) (BTree.newPage fid) s post := by
  unfold BTree.newPage
  apply Prog.Returns.bind
  refine PoolView.strict_pageCount fun count le => ?_
  apply Prog.Returns.bind
  refine PoolView.strict_tree ?_
  have no_eq : max count (s.trees fid).nextPageHint = hint := by
    rw [tail.tree]
    rw [tail.top] at le
    exact Nat.max_eq_right le
  rw [no_eq]
  apply Prog.Returns.bind
  refine PoolView.strict_allocate room (tail.zero hint (Nat.le_refl _)) ?_
  apply Prog.Returns.bind
  refine PoolView.strict_setTree ?_
  apply Prog.Returns.pure
  rw [Nat.mod_eq_of_lt small]
  simpa [tail.top, tail.tree] using holds

/-- From `s` to `s'` the file grew from `hint` to `hint'`; of its former pages only
those `touched` changed. -/
structure Grown (s s' : PoolView) (fid root hint hint' : Nat) (touched : List Nat) : Prop where
  le : hint ≤ hint'
  tail : Tail s' fid root hint'
  kept : ∀ n, n < hint → n ∉ touched → s'.pages ⟨fid, n⟩ = s.pages ⟨fid, n⟩
  others : ∀ pid : PageId, pid.fileId ≠ fid → s'.pages pid = s.pages pid
  trees : ∀ f, f ≠ fid → s'.trees f = s.trees f
  tops : ∀ f, f ≠ fid → s'.top f = s.top f

/-- The pages hold what an insertion gave, and the program returned its split. -/
def Inserted (pages : Nat → Page) (d next : Nat) :
    Outcome BTreeEntry (Tree BTreeEntry d) → Option BTreeSplit → Prop
  | .done t, none => Holds pages d next t
  | .split l k r, some split =>
      split = ⟨k, r.no⟩ ∧ Holds pages d r.firstLeaf l ∧ Holds pages d next r
  | _, _ => False

theorem Inserted.done {pages : Nat → Page} {d next : Nat} {t : Tree BTreeEntry d}
    (held : Holds pages d next t) : Inserted pages d next (.done t) none :=
  held

theorem Inserted.split {pages : Nat → Page} {d next : Nat} {l r : Tree BTreeEntry d}
    {k : BTreeEntry} (left : Holds pages d r.firstLeaf l) (right : Holds pages d next r) :
    Inserted pages d next (.split l k r) (some ⟨k, r.no⟩) :=
  ⟨rfl, left, right⟩

/-! ## Leaves -/

theorem LeafPage.freeSpace_eq {p : Page} {es : List BTreeEntry} (leaf : LeafPage p es) :
    freeSpace p = 4072 - 19 * es.length := by
  have begins := leaf.freeBegin
  have ends := leaf.freeEnd
  have fits := leaf.fits
  unfold freeSpace toU16
  omega

theorem LeafPage.entries_eq {p : Page} {es : List BTreeEntry} (leaf : LeafPage p es) :
    (List.range p.slotCount).map (leafEntry p) = es := by
  apply List.ext_getElem
  · simp [leaf.count]
  · intro i _ lt
    simp [leaf.entry i lt]

/-- A sealed leaf holds its entries. -/
theorem holds_leaf {pages : Nat → Page} {p : Page} {no next : Nat} {es : List BTreeEntry}
    (leaf : LeafPage p es) (linked : p.nextPage = next) (stored : pages no = p.seal) :
    Holds pages 0 next (⟨no, es⟩ : Leaf _) := by
  refine ⟨?_, ?_, ?_⟩
  · change LeafPage (pages no) es
    rw [stored]
    exact leaf.seal
  · change pageValid (pages no) magicBTreeLeaf = true
    rw [stored]
    exact pageValid_seal leaf.magic
  · change (pages no).nextPage = next
    rw [stored, Page.nextPage, Page.num_seal _ (by omega)]
    exact linked

theorem nextPage_setNextPage (p : Page) {next : Nat} (small : next < 2 ^ 32) :
    (p.setNextPage next).nextPage = next :=
  Block.num_setNum_same p (by omega) small

/-- Rewriting a page of the file. -/
theorem grown_setPage {no : Nat} (tail : Tail s fid root hint) (inFile : no < hint) (p : Page)
    (pins : List PageId) :
    Grown s { s.setPage ⟨fid, no⟩ p with pins := pins } fid root hint hint [no] := by
  constructor
  case le => exact Nat.le_refl hint
  case tail =>
    refine ⟨tail.tree, tail.top, ?_, tail.logged⟩
    intro n le
    have other : (⟨fid, n⟩ : PageId) ≠ ⟨fid, no⟩ := page_ne (by omega)
    exact (Function.update_of_ne other ..).trans (tail.zero n le)
  case kept =>
    intro n _ other
    have other : (⟨fid, n⟩ : PageId) ≠ ⟨fid, no⟩ := page_ne (by simpa using other)
    exact Function.update_of_ne other ..
  case others =>
    intro pid other
    have other : pid ≠ ⟨fid, no⟩ := by
      rintro rfl
      exact other rfl
    exact Function.update_of_ne other ..
  case trees => exact fun _ _ => rfl
  case tops => exact fun _ _ => rfl

/-- Filling a new page of the file. -/
theorem grown_newPage (tail : Tail s fid root hint) (p : Page) (pins : List PageId) :
    Grown s { s.setPage ⟨fid, hint⟩ p with
      top := Function.update s.top fid (hint + 1)
      pins := pins
      trees := Function.update s.trees fid ⟨root, hint + 1⟩ } fid root hint (hint + 1) [] := by
  constructor
  case le => exact Nat.le_succ hint
  case tail =>
    refine ⟨Function.update_self .., Function.update_self .., ?_, tail.logged⟩
    intro n le
    have other : (⟨fid, n⟩ : PageId) ≠ ⟨fid, hint⟩ := page_ne (by omega)
    exact (Function.update_of_ne other ..).trans (tail.zero n (by omega))
  case kept =>
    intro n lt _
    have other : (⟨fid, n⟩ : PageId) ≠ ⟨fid, hint⟩ := page_ne (by omega)
    exact Function.update_of_ne other ..
  case others =>
    intro pid other
    have other : pid ≠ ⟨fid, hint⟩ := by
      rintro rfl
      exact other rfl
    exact Function.update_of_ne other ..
  case trees => exact fun f other => Function.update_of_ne other ..
  case tops => exact fun f other => Function.update_of_ne other ..

theorem Grown.of_pins {s' : PoolView} {hint' : Nat} {touched : List Nat} {pins : List PageId}
    (grown : Grown { s with pins := pins } s' fid root hint hint' touched) :
    Grown s s' fid root hint hint' touched :=
  ⟨grown.le, grown.tail, grown.kept, grown.others, grown.trees, grown.tops⟩

theorem Grown.mono {s' : PoolView} {hint' : Nat} {touched touched' : List Nat}
    (grown : Grown s s' fid root hint hint' touched) (sub : ∀ n ∈ touched, n ∈ touched') :
    Grown s s' fid root hint hint' touched' where
  le := grown.le
  tail := grown.tail
  kept n lt other := grown.kept n lt fun mem => other (sub n mem)
  others := grown.others
  trees := grown.trees
  tops := grown.tops

theorem Grown.with_pins {s' : PoolView} {hint' : Nat} {touched : List Nat}
    {pins : List PageId} (grown : Grown s s' fid root hint hint' touched) :
    Grown s { s' with pins := pins } fid root hint hint' touched where
  le := grown.le
  tail := ⟨grown.tail.tree, grown.tail.top, grown.tail.zero, grown.tail.logged⟩
  kept := grown.kept
  others := grown.others
  trees := grown.trees
  tops := grown.tops

theorem Grown.trans {s₁ s₂ s₃ : PoolView} {hint₁ hint₂ hint₃ : Nat} {touched touched' : List Nat}
    (first : Grown s₁ s₂ fid root hint₁ hint₂ touched)
    (second : Grown s₂ s₃ fid root hint₂ hint₃ touched') :
    Grown s₁ s₃ fid root hint₁ hint₃ (touched ++ touched') := by
  constructor
  case le => exact first.le.trans second.le
  case tail => exact second.tail
  case kept =>
    intro n lt other
    rw [List.mem_append, not_or] at other
    rw [second.kept n (lt_of_lt_of_le lt first.le) other.2, first.kept n lt other.1]
  case others =>
    intro pid other
    rw [second.others pid other, first.others pid other]
  case trees =>
    intro f other
    rw [second.trees f other, first.trees f other]
  case tops =>
    intro f other
    rw [second.tops f other, first.tops f other]

theorem insertLeaf_spec {next no : Nat} {es : List BTreeEntry} {e : BTreeEntry}
    {pins : List PageId} (owned : PoolView.Owns own fid) (tail : Tail s fid root hint)
    (pinned : s.pins = ⟨fid, no⟩ :: pins) (room : s.pins.length < frames) (inFile : no < hint)
    (small : (BPlus.leafOutcome 214 hint no (es.orderedInsert (· ≤ ·) e)).2 < 2 ^ 32)
    (held : Holds (fun n => s.pages ⟨fid, n⟩) 0 next (⟨no, es⟩ : Leaf _))
    (sorted : es.Pairwise (· < ·)) (le : es.length ≤ 214) :
    Prog.Returns (PoolView.strict frames own) (BTree.insertLeaf ⟨fid, no⟩ e) s fun r s' =>
      Inserted (fun n => s'.pages ⟨fid, n⟩) 0 next
          (BPlus.leafOutcome 214 hint no (es.orderedInsert (· ≤ ·) e)).1 r ∧
        Grown s s' fid root hint
          (BPlus.leafOutcome 214 hint no (es.orderedInsert (· ≤ ·) e)).2 [no] ∧
        s'.pins = pins := by
  rcases held with ⟨leaf, valid, chained⟩
  simp only at leaf valid chained
  have next_small : next < 2 ^ 32 := chained ▸ Block.num_lt _ _ _
  have no_small : no < 2 ^ 32 := inFile.trans (lt_of_le_of_lt (BPlus.leafOutcome_names ..).1 small)
  have mem : (⟨fid, no⟩ : PageId) ∈ s.pins := by
    rw [pinned]
    exact List.mem_cons_self ..
  have pos_le : (es.takeWhile (· < e)).length ≤ es.length :=
    (List.takeWhile_sublist _).length_le
  have inserted_length := List.orderedInsert_length (· ≤ ·) es e
  unfold BTree.insertLeaf
  apply Prog.Returns.bind
  refine PoolView.strict_peek mem ?_
  dsimp only
  rw [leaf.lowerBound sorted, leaf.entries_eq, leaf.freeSpace_eq, BPlus.insertIdx_takeWhile]
  by_cases fits : es.length + 1 ≤ 214
  · have grown := leaf.insertAt pos_le (by omega) e
    have header := leaf.insertAt_header pos_le (by omega) e 16 4 (by omega)
    rw [BPlus.insertIdx_takeWhile] at grown
    rw [if_pos (by simp only [slotSize, btreeCellSize]; omega)]
    refine PoolView.strict_save (owned no no_small _) pinned tail.logged ?_
    apply Prog.Returns.pure
    rw [BPlus.leafOutcome, if_pos (by omega)]
    refine ⟨?_, grown_setPage tail inFile _ pins, rfl⟩
    apply Inserted.done
    apply holds_leaf grown (header.trans chained)
    exact Function.update_self ..
  · rw [if_neg (by simp only [slotSize, btreeCellSize]; omega), inserted_length]
    rcases half : (es.orderedInsert (· ≤ ·) e).drop ((es.length + 1) / 2) with _ | ⟨k, more⟩
    · have lengths := congrArg List.length half
      rw [List.length_drop, inserted_length, List.length_nil] at lengths
      omega
    have sep_eq : (es.orderedInsert (· ≤ ·) e).getD ((es.length + 1) / 2) {} = k := by
      have first := congrArg List.head? half
      rw [List.head?_drop] at first
      rw [List.getD_eq_getElem?_getD, first]
      rfl
    rw [sep_eq]
    rw [BPlus.leafOutcome, if_neg (by omega), inserted_length, half] at small ⊢
    simp only at small
    apply Prog.Returns.bind
    refine newPage_spec tail room small ?_
    refine PoolView.strict_save (owned hint (by omega) _) rfl tail.logged ?_
    refine PoolView.strict_save (owned no no_small _) pinned tail.logged ?_
    apply Prog.Returns.pure
    have apart : (⟨fid, hint⟩ : PageId) ≠ ⟨fid, no⟩ := page_ne (by omega)
    have lower := LeafPage.build (es.orderedInsert (· ≤ ·) e) (Nat.zero_le ((es.length + 1) / 2))
      (by omega) (by omega)
    have upper := LeafPage.build (es.orderedInsert (· ≤ ·) e)
      (show (es.length + 1) / 2 ≤ es.length + 1 by omega) (by omega) (by omega)
    rw [half, List.take_of_length_le (by
      have lengths := congrArg List.length half
      rw [List.length_drop, inserted_length] at lengths
      omega)] at upper
    refine ⟨?_, ?_, rfl⟩
    · apply Inserted.split
      · apply holds_leaf (lower.1.setNextPage hint) (nextPage_setNextPage _ (by omega))
        exact Function.update_self ..
      · apply holds_leaf (upper.1.setNextPage next) (nextPage_setNextPage _ next_small)
        exact (Function.update_of_ne apart ..).trans (chained ▸ Function.update_self ..)
    · have first := grown_newPage tail
        ((leafBuild (es.orderedInsert (· ≤ ·) e) ((es.length + 1) / 2) (es.length + 1)).setNextPage
          (s.pages ⟨fid, no⟩).nextPage).seal s.pins
      exact first.trans (grown_setPage first.tail (by omega) _ pins)

/-! ## Nodes -/

theorem NodePage.freeSpace_eq {p : Page} {seps : List BTreeEntry} {kids : List Nat}
    (node : NodePage p seps kids) : freeSpace p = 4068 - 19 * seps.length := by
  have begins := node.freeBegin
  have ends := node.freeEnd
  have fits := node.fits
  unfold freeSpace toU16
  omega

theorem NodePage.map_sep {p : Page} {seps : List BTreeEntry} {kids : List Nat}
    (node : NodePage p seps kids) {lo len : Nat} (le : lo + len ≤ seps.length) :
    (List.range' lo len).map (nodeSep p) = (seps.drop lo).take len := by
  apply List.ext_getElem
  · simp only [List.length_map, List.length_range', List.length_take, List.length_drop]
    omega
  · intro i lt _
    simp only [List.length_map, List.length_range'] at lt
    simp [node.sep (lo + i) (by omega)]

theorem NodePage.map_child {p : Page} {seps : List BTreeEntry} {kids : List Nat}
    (node : NodePage p seps kids) {lo len : Nat} (le : lo + len ≤ kids.length) :
    (List.range' lo len).map (nodeChild p) = (kids.drop lo).take len := by
  apply List.ext_getElem
  · simp only [List.length_map, List.length_range', List.length_take, List.length_drop]
    omega
  · intro i lt _
    simp only [List.length_map, List.length_range'] at lt
    simp [node.child (lo + i) (by omega)]

/-- A sealed node over subtrees that are held elsewhere holds its tree. -/
theorem holds_node {pages : Nat → Page} {p : Page} {d no next : Nat} {first : Tree BTreeEntry d}
    {rest : List (BTreeEntry × Tree BTreeEntry d)}
    (node : NodePage p (rest.map Prod.fst) ((BPlus.kids first rest).map (Tree.no d)))
    (stored : pages no = p.seal)
    (children : HoldsKids (Holds pages d) (Tree.firstLeaf d) next (BPlus.kids first rest)) :
    Holds pages (d + 1) next (⟨no, first, rest⟩ : Node _ _) := by
  refine ⟨?_, ?_, children⟩
  · change NodePage (pages no) _ _
    rw [stored]
    exact node.seal
  · change pageValid (pages no) magicBTreeLeaf = true
    rw [stored]
    exact pageValid_seal node.magic

theorem insertNode_spec {d next no rno : Nat} {k : BTreeEntry} {low high : List BTreeEntry}
    {kidsLow kidsHigh : List Nat} {first : Tree BTreeEntry d}
    {rest : List (BTreeEntry × Tree BTreeEntry d)} {pins : List PageId}
    (owned : PoolView.Owns own fid) (tail : Tail s fid root hint)
    (pinned : s.pins = ⟨fid, no⟩ :: pins) (room : s.pins.length < frames) (inFile : no < hint)
    (small : (BPlus.nodeOutcome 214 hint no first rest).2 < 2 ^ 32)
    (node : NodePage (s.pages ⟨fid, no⟩) (low ++ high) (kidsLow ++ kidsHigh))
    (kids_length : kidsLow.length = low.length + 1)
    (seps_eq : rest.map Prod.fst = low ++ k :: high)
    (kids_eq : (BPlus.kids first rest).map (Tree.no d) = kidsLow ++ rno :: kidsHigh)
    (held : HoldsKids (Holds (fun n => s.pages ⟨fid, n⟩) d) (Tree.firstLeaf d) next
      (BPlus.kids first rest))
    (names_lt : ∀ n ∈ (BPlus.kids first rest).flatMap (Tree.names d), n < hint)
    (away : no ∉ (BPlus.kids first rest).flatMap (Tree.names d)) :
    Prog.Returns (PoolView.strict frames own) (BTree.insertNode ⟨fid, no⟩ low.length ⟨k, rno⟩) s
      fun r s' =>
        Inserted (fun n => s'.pages ⟨fid, n⟩) (d + 1) next
            (BPlus.nodeOutcome 214 hint no first rest).1 r ∧
          Grown s s' fid root hint (BPlus.nodeOutcome 214 hint no first rest).2 [no] ∧
          s'.pins = pins := by
  have mem : (⟨fid, no⟩ : PageId) ∈ s.pins := by
    rw [pinned]
    exact List.mem_cons_self ..
  have count := node.count
  have kids_count := node.kids_length
  have fits := node.fits
  rw [List.length_append] at count kids_count fits
  rw [List.length_append] at kids_count
  have rest_length : rest.length = low.length + high.length + 1 := by
    have lengths := congrArg List.length seps_eq
    simp only [List.length_map, List.length_append, List.length_cons] at lengths
    omega
  have kid_small : ∀ n ∈ (BPlus.kids first rest).map (Tree.no d), n < 2 ^ 32 := by
    intro n n_mem
    rcases List.mem_map.mp n_mem with ⟨c, c_mem, rfl⟩
    have below := names_lt _ (List.mem_flatMap.mpr ⟨c, c_mem, no_mem_names c⟩)
    have le := (BPlus.nodeOutcome_names 214 hint no first rest).1
    omega
  have no_small : no < 2 ^ 32 := inFile.trans (lt_of_le_of_lt (BPlus.nodeOutcome_names ..).1 small)
  have rno_small : rno < 2 ^ 32 := kid_small rno (by rw [kids_eq]; simp)
  unfold BTree.insertNode
  apply Prog.Returns.bind
  refine PoolView.strict_peek mem ?_
  dsimp only
  rw [node.freeSpace_eq, List.length_append]
  by_cases fits' : rest.length ≤ 214
  · rw [if_pos (by simp only [btreeCellSize]; omega)]
    refine PoolView.strict_save (owned no no_small _) pinned tail.logged ?_
    apply Prog.Returns.pure
    rw [BPlus.nodeOutcome, if_pos fits']
    have grown := node.insertAt (i := low.length) (by simp) (by simp only [List.length_append]; omega)
      k rno_small
    rw [BPlus.insertIdx_append, ← kids_length, BPlus.insertIdx_append, ← seps_eq, ← kids_eq]
      at grown
    refine ⟨?_, grown_setPage tail inFile _ pins, rfl⟩
    apply Inserted.done
    apply holds_node grown
    · exact Function.update_self ..
    · apply held.frame
      intro n n_mem
      exact Function.update_of_ne (page_ne (ne_of_mem_of_not_mem n_mem away)) ..
  · rw [if_neg (by simp only [btreeCellSize]; omega)]
    have seps_read : (List.range low.length).map (nodeSep (s.pages ⟨fid, no⟩)) ++ k ::
        (List.range' low.length ((s.pages ⟨fid, no⟩).slotCount - low.length)).map
          (nodeSep (s.pages ⟨fid, no⟩)) = rest.map Prod.fst := by
      rw [List.range_eq_range', node.map_sep (by simp), node.map_sep (by simp; omega), seps_eq]
      simp [count]
    have kids_read : (List.range (low.length + 1)).map (nodeChild (s.pages ⟨fid, no⟩)) ++ rno ::
        (List.range' (low.length + 1) ((s.pages ⟨fid, no⟩).slotCount - low.length)).map
          (nodeChild (s.pages ⟨fid, no⟩)) = (BPlus.kids first rest).map (Tree.no d) := by
      rw [List.range_eq_range', node.map_child (by simp; omega), node.map_child (by simp; omega),
        kids_eq, ← kids_length]
      have high_length : (s.pages ⟨fid, no⟩).slotCount - low.length = kidsHigh.length := by omega
      simp [high_length]
    rw [seps_read, kids_read, List.length_map]
    rcases half : rest.drop (rest.length / 2) with _ | ⟨⟨k', c⟩, more⟩
    · have lengths := congrArg List.length half
      rw [List.length_drop, List.length_nil] at lengths
      omega
    have sep_eq : (rest.map Prod.fst).getD (rest.length / 2) {} = k' := by
      have head := congrArg List.head? half
      rw [List.head?_drop] at head
      simp [List.getD_eq_getElem?_getD, head]
    rw [sep_eq]
    rw [BPlus.nodeOutcome, if_neg fits', half] at small ⊢
    simp only at small
    apply Prog.Returns.bind
    refine newPage_spec tail room small ?_
    refine PoolView.strict_save (owned hint (by omega) _) rfl tail.logged ?_
    refine PoolView.strict_save (owned no no_small _) pinned tail.logged ?_
    apply Prog.Returns.pure
    have apart : (⟨fid, hint⟩ : PageId) ≠ ⟨fid, no⟩ := page_ne (by omega)
    have more_length := congrArg List.length half
    rw [List.length_drop, List.length_cons] at more_length
    have all_kids : ((BPlus.kids first rest).map (Tree.no d)).length =
        (rest.map Prod.fst).length + 1 := by
      simp [BPlus.kids]
    have parts : BPlus.kids first rest =
        BPlus.kids first (rest.take (rest.length / 2)) ++ BPlus.kids c more := by
      have drop_eq : (rest.map Prod.snd).drop (rest.length / 2) = BPlus.kids c more := by
        rw [← List.map_drop, half]
        rfl
      rw [BPlus.kids, BPlus.kids, ← drop_eq, List.map_take, List.cons_append,
        List.take_append_drop]
    have low_kids : (BPlus.kids first (rest.take (rest.length / 2))).length =
        rest.length / 2 + 1 := by
      simp only [BPlus.kids, List.length_cons, List.length_map, List.length_take]
      omega
    have lower : NodePage
        (nodeBuild (rest.map Prod.fst) ((BPlus.kids first rest).map (Tree.no d)) 0
          (rest.length / 2)) ((rest.take (rest.length / 2)).map Prod.fst)
        ((BPlus.kids first (rest.take (rest.length / 2))).map (Tree.no d)) := by
      have built := NodePage.build (Nat.zero_le (rest.length / 2))
        (by rw [List.length_map]; omega) all_kids kid_small (by omega)
      rw [List.drop_zero, List.drop_zero, Nat.sub_zero, ← List.map_take, ← List.map_take, parts,
        ← low_kids, List.take_left] at built
      rw [← parts] at built
      exact built
    have upper : NodePage
        (nodeBuild (rest.map Prod.fst) ((BPlus.kids first rest).map (Tree.no d))
          (rest.length / 2 + 1) rest.length) (more.map Prod.fst)
        ((BPlus.kids c more).map (Tree.no d)) := by
      have built := NodePage.build (show rest.length / 2 + 1 ≤ rest.length by omega)
        (by rw [List.length_map]) all_kids kid_small (by omega)
      have high_seps : (rest.map Prod.fst).drop (rest.length / 2 + 1) = more.map Prod.fst := by
        rw [← List.map_drop, ← List.drop_drop, half]
        rfl
      have high_kids : ((BPlus.kids first rest).map (Tree.no d)).drop (rest.length / 2 + 1) =
          (BPlus.kids c more).map (Tree.no d) := by
        rw [← List.map_drop, parts, ← low_kids, List.drop_left]
      rw [high_seps, high_kids, List.take_of_length_le (by simp; omega),
        List.take_of_length_le (by simp [BPlus.kids]; omega)] at built
      exact built
    have kids_held := held
    rw [parts, HoldsKids.append_iff] at kids_held
    have kept : ∀ n ∈ (BPlus.kids first rest).flatMap (Tree.names d),
        (⟨fid, n⟩ : PageId) ≠ ⟨fid, no⟩ ∧ (⟨fid, n⟩ : PageId) ≠ ⟨fid, hint⟩ := by
      intro n n_mem
      exact ⟨page_ne (ne_of_mem_of_not_mem n_mem away), page_ne (Nat.ne_of_lt (names_lt n n_mem))⟩
    rw [parts, List.flatMap_append] at kept
    refine ⟨?_, ?_, rfl⟩
    · apply Inserted.split
      · apply holds_node lower
        · exact Function.update_self ..
        · apply kids_held.1.frame
          intro n n_mem
          have others := kept n (List.mem_append_left _ n_mem)
          exact (Function.update_of_ne others.1 ..).trans (Function.update_of_ne others.2 ..)
      · apply holds_node upper
        · exact (Function.update_of_ne apart ..).trans (Function.update_self ..)
        · apply kids_held.2.frame
          intro n n_mem
          have others := kept n (List.mem_append_right _ n_mem)
          exact (Function.update_of_ne others.1 ..).trans (Function.update_of_ne others.2 ..)
    · have first := grown_newPage tail
        (nodeBuild (rest.map Prod.fst) ((BPlus.kids first rest).map (Tree.no d))
          (rest.length / 2 + 1) rest.length).seal s.pins
      exact first.trans (grown_setPage first.tail (by omega) _ pins)

/-! ## Recursion -/

theorem readTree_spec {pid : PageId} {post : Unit → PoolView → Prop}
    (room : s.pins.length < frames) (valid : pageValid (s.pages pid) magicBTreeLeaf = true)
    (type : treePageType (s.pages pid).pageType = true)
    (holds : post () { s with pins := pid :: s.pins }) :
    Prog.Returns (PoolView.strict frames own) (BTree.readTree pid) s post := by
  unfold BTree.readTree
  apply Prog.Returns.bind
  refine PoolView.strict_read room valid ?_
  apply Prog.Returns.bind
  refine PoolView.strict_peek (List.mem_cons_self ..) ?_
  rw [if_pos type]
  exact Prog.Returns.pure holds

theorem Holds.page {pages : Nat → Page} {d next : Nat} {t : Tree BTreeEntry d}
    (held : Holds pages d next t) :
    pageValid (pages t.no) magicBTreeLeaf = true ∧ treePageType (pages t.no).pageType = true := by
  cases d with
  | zero =>
      have type := held.1.type
      exact ⟨held.2.1, by simp [treePageType, Tree.no, type]⟩
  | succ d =>
      have type := held.1.type
      exact ⟨held.2.1, by simp [treePageType, Tree.no, type]⟩

/-- Replacing one subtree, by one or by two, keeps the chain of leaves. -/
theorem HoldsKids.replace {pages pages' : Nat → Page} {d next : Nat}
    {before after middle : List (Tree BTreeEntry d)} {child : Tree BTreeEntry d}
    (held : HoldsKids (Holds pages d) (Tree.firstLeaf d) next (before ++ child :: after))
    (same : ∀ n ∈ (before ++ after).flatMap (Tree.names d), pages' n = pages n)
    (middle_held : HoldsKids (Holds pages' d) (Tree.firstLeaf d)
      (headLeaf (Tree.firstLeaf d) next after) middle)
    (head : ∀ n, headLeaf (Tree.firstLeaf d) n middle = child.firstLeaf) :
    HoldsKids (Holds pages' d) (Tree.firstLeaf d) next (before ++ (middle ++ after)) := by
  rw [List.flatMap_append, List.forall_mem_append] at same
  rw [HoldsKids.append_iff] at held
  rcases held with ⟨low, -, high⟩
  rw [HoldsKids.append_iff, HoldsKids.append_iff]
  have head_eq : headLeaf (Tree.firstLeaf d) next (middle ++ after) = child.firstLeaf := by
    rw [← head (headLeaf (Tree.firstLeaf d) next after)]
    cases middle <;> rfl
  rw [head_eq]
  exact ⟨HoldsKids.frame low same.1, middle_held, HoldsKids.frame high same.2⟩

/-- What a run that inserts into the subtree `t` ends with. -/
def InsertsInto (s : PoolView) (fid root hint : Nat) {d : Nat} (next : Nat) (names : List Nat)
    (out : Outcome BTreeEntry (Tree BTreeEntry d) × Nat) (r : Option BTreeSplit)
    (s' : PoolView) : Prop :=
  Inserted (fun n => s'.pages ⟨fid, n⟩) d next out.1 r ∧
    Grown s s' fid root hint out.2 names ∧ s'.pins = s.pins

/-- The node step: what insertion does below each child, it does below the node. -/
theorem insertRec_node {e : BTreeEntry} {d no next fuel : Nat} {first : Tree BTreeEntry d}
    {rest : List (BTreeEntry × Tree BTreeEntry d)} (owned : PoolView.Owns own fid)
    (room : s.pins.length + 1 < frames)
    (ins : Tree BTreeEntry d → Outcome BTreeEntry (Tree BTreeEntry d) × Nat)
    (ins_left : ∀ t, (ins t).1.left.no = t.no ∧ (ins t).1.left.firstLeaf = t.firstLeaf)
    (ins_names : ∀ t, hint ≤ (ins t).2 ∧ ((ins t).1.collect (Tree.names d)).Perm
      (List.range' hint ((ins t).2 - hint) ++ t.names))
    (step : ∀ child ∈ BPlus.kids first rest, ∀ next, (ins child).2 < 2 ^ 32 →
      Holds (fun n => s.pages ⟨fid, n⟩) d next child →
      Prog.Returns (PoolView.strict frames own) (BTree.insertRec fid e fuel child.no)
        { s with pins := ⟨fid, no⟩ :: s.pins }
        (InsertsInto { s with pins := ⟨fid, no⟩ :: s.pins } fid root hint next child.names
          (ins child)))
    (small : (BPlus.nodeOutcome 214 (BPlus.insertFrom ins e first rest).2.2 no
      (BPlus.insertFrom ins e first rest).1 (BPlus.insertFrom ins e first rest).2.1).2 < 2 ^ 32)
    (held : Holds (fun n => s.pages ⟨fid, n⟩) (d + 1) next (⟨no, first, rest⟩ : Node _ _))
    (sorted : (rest.map Prod.fst).Pairwise (· < ·)) (le : rest.length ≤ 214)
    (names_lt : ∀ n ∈ no :: (BPlus.kids first rest).flatMap (Tree.names d), n < hint)
    (nodup : (no :: (BPlus.kids first rest).flatMap (Tree.names d)).Nodup) :
    Prog.Returns (PoolView.strict frames own) (BTree.insertRec fid e (fuel + 1) no) s
      (InsertsInto (d := d + 1) s fid root hint next
        (no :: (BPlus.kids first rest).flatMap (Tree.names d))
        (BPlus.nodeOutcome 214 (BPlus.insertFrom ins e first rest).2.2 no
          (BPlus.insertFrom ins e first rest).1 (BPlus.insertFrom ins e first rest).2.1)) := by
  have page : pageValid (s.pages ⟨fid, no⟩) magicBTreeLeaf = true ∧
      treePageType (s.pages ⟨fid, no⟩).pageType = true := held.page
  rcases held with ⟨node, valid, children⟩
  change NodePage (s.pages ⟨fid, no⟩) (rest.map Prod.fst) ((BPlus.kids first rest).map _) at node
  change HoldsKids _ _ _ (BPlus.kids first rest) at children
  have not_leaf : (s.pages ⟨fid, no⟩).pageType ≠ PageType.btreeLeaf.code := by
    rw [node.type]
    decide
  rcases BPlus.insertFrom_cut ins e first rest with
    ⟨before, child, after, low, high, kids_eq, seps_eq, low_eq, len, next_eq, out⟩
  have index_eq : nodeChildIndex (s.pages ⟨fid, no⟩) e = low.length := by
    rw [low_eq]
    exact node.childIndex sorted e
  have child_eq : nodeChild (s.pages ⟨fid, no⟩) low.length = child.no := by
    have inKids : low.length < ((BPlus.kids first rest).map (Tree.no d)).length := by
      simp [kids_eq, len]
    refine (node.child low.length inKids).trans ?_
    simp [kids_eq, len]
  have outer := BPlus.nodeOutcome_names 214 (BPlus.insertFrom ins e first rest).2.2 no
    (BPlus.insertFrom ins e first rest).1 (BPlus.insertFrom ins e first rest).2.1
  rw [BTree.insertRec]
  apply Prog.Returns.bind
  refine readTree_spec (by omega) page.1 page.2 ?_
  apply Prog.Returns.bind
  refine PoolView.strict_peek (List.mem_cons_self ..) ?_
  dsimp only
  rw [if_neg not_leaf, index_eq, child_eq]
  apply Prog.Returns.bind
  have child_mem : child ∈ BPlus.kids first rest := by simp [kids_eq]
  have child_held := children
  rw [kids_eq, HoldsKids.append_iff] at child_held
  rw [next_eq] at outer small ⊢
  refine (step child child_mem _ (by omega) child_held.2.1).mono ?_
  rintro r s₁ ⟨inserted, grown, pins⟩
  have names_perm := (ins_names child).2
  have left := ins_left child
  -- the pages of the other children, and the node itself, are as before
  rw [kids_eq, List.forall_mem_cons] at names_lt
  rw [kids_eq, List.nodup_cons, List.flatMap_append, List.flatMap_cons] at nodup
  have apart := List.perm_append_comm_assoc (before.flatMap (Tree.names d)) child.names
    (after.flatMap (Tree.names d)) |>.nodup_iff.mp nodup.2
  rw [← List.flatMap_append, List.nodup_append] at apart
  have child_names : ∀ n ∈ child.names,
      n ∈ no :: (BPlus.kids first rest).flatMap (Tree.names d) := by
    intro n mem
    simp [kids_eq, mem]
  have own_kept : s₁.pages ⟨fid, no⟩ = s.pages ⟨fid, no⟩ := by
    apply grown.kept no names_lt.1
    intro mem
    exact nodup.1 (by simp [mem])
  have others_kept : ∀ n ∈ (before ++ after).flatMap (Tree.names d),
      s₁.pages ⟨fid, n⟩ = s.pages ⟨fid, n⟩ := by
    intro n mem
    apply grown.kept n
    · apply names_lt.2
      rw [List.flatMap_append, List.flatMap_cons, List.mem_append, List.mem_append]
      rcases List.mem_append.mp (List.flatMap_append ▸ mem) with low_mem | high_mem
      · exact Or.inl low_mem
      · exact Or.inr (Or.inr high_mem)
    · intro mem'
      exact apart.2.2 n mem' n mem rfl
  rw [kids_eq] at children node
  rw [seps_eq] at node
  generalize (BPlus.insertFrom ins e first rest).1 = first' at out outer small ⊢
  generalize (BPlus.insertFrom ins e first rest).2.1 = rest' at out outer small ⊢
  generalize ins child = result at out inserted grown names_perm left outer small ⊢
  rcases result with ⟨t' | ⟨l, k, rgt⟩, hint₁⟩
  · rcases out with ⟨kids_eq', seps_eq'⟩
    rcases r with _ | split
    · have rest_length : rest'.length = rest.length := by
        have lengths := congrArg List.length (seps_eq'.trans seps_eq.symm)
        simpa using lengths
      have mem : (⟨fid, no⟩ : PageId) ∈ s₁.pins := by
        rw [pins]
        exact List.mem_cons_self ..
      dsimp only
      refine Prog.Returns.bind (PoolView.strict_unpin mem (by simp [grown.tail.logged]) ?_)
      refine Prog.Returns.pure ?_
      rw [BPlus.nodeOutcome, if_pos (by omega)]
      have kids_held : HoldsKids (Holds (fun n => s₁.pages ⟨fid, n⟩) d) (Tree.firstLeaf d) next
          (BPlus.kids first' rest') := by
        have middle : HoldsKids (Holds (fun n => s₁.pages ⟨fid, n⟩) d) (Tree.firstLeaf d)
            (headLeaf (Tree.firstLeaf d) next after) [t'] := ⟨inserted, trivial⟩
        have replaced := HoldsKids.replace children others_kept middle fun _ => left.2
        rwa [kids_eq']
      have numbers : (before ++ child :: after).map (Tree.no d) =
          (BPlus.kids first' rest').map (Tree.no d) := by
        have same : t'.no = child.no := left.1
        simp [kids_eq', same]
      refine ⟨?_, ?_, ?_⟩
      · refine Inserted.done ⟨?_, ?_, kids_held⟩
        · change NodePage (s₁.pages ⟨fid, no⟩) (rest'.map Prod.fst) _
          rw [own_kept, seps_eq']
          exact numbers ▸ node
        · change pageValid (s₁.pages ⟨fid, no⟩) magicBTreeLeaf = true
          rw [own_kept]
          exact page.1
      · exact (grown.of_pins.mono child_names).with_pins
      · simp [pins]
    · exact inserted.elim
  · rcases out with ⟨kids_eq', seps_eq'⟩
    rcases r with _ | split
    · exact inserted.elim
    · rcases inserted with ⟨rfl, l_held, rgt_held⟩
      have kids_held : HoldsKids (Holds (fun n => s₁.pages ⟨fid, n⟩) d) (Tree.firstLeaf d) next
          (BPlus.kids first' rest') := by
        have middle : HoldsKids (Holds (fun n => s₁.pages ⟨fid, n⟩) d) (Tree.firstLeaf d)
            (headLeaf (Tree.firstLeaf d) next after) [l, rgt] := ⟨l_held, rgt_held, trivial⟩
        have replaced := HoldsKids.replace children others_kept middle fun _ => left.2
        rwa [kids_eq']
      have names_mem : ∀ n ∈ (BPlus.kids first' rest').flatMap (Tree.names d),
          n ∈ (before ++ child :: after).flatMap (Tree.names d) ∨ hint ≤ n ∧ n < hint₁ := by
        intro n mem
        rw [kids_eq', List.flatMap_append, List.flatMap_cons, List.flatMap_cons,
          ← List.append_assoc l.names] at mem
        rw [List.flatMap_append, List.flatMap_cons]
        rcases List.mem_append.mp mem with low_mem | mem
        · exact Or.inl (List.mem_append_left _ low_mem)
        rcases List.mem_append.mp mem with middle_mem | high_mem
        · rcases List.mem_append.mp (names_perm.mem_iff.mp middle_mem) with new | old
          · have bounds := List.mem_range'_1.mp new
            have le := grown.le
            exact Or.inr (by omega)
          · exact Or.inl (List.mem_append_right _ (List.mem_append_left _ old))
        · exact Or.inl (List.mem_append_right _ (List.mem_append_right _ high_mem))
      have node' : NodePage (s₁.pages ⟨fid, no⟩) (low ++ high)
          ((before.map (Tree.no d) ++ [child.no]) ++ after.map (Tree.no d)) := by
        rw [own_kept]
        simpa using node
      have numbers : (BPlus.kids first' rest').map (Tree.no d) =
          (before.map (Tree.no d) ++ [child.no]) ++ rgt.no :: after.map (Tree.no d) := by
        have same : l.no = child.no := left.1
        simp [kids_eq', same]
      dsimp only
      refine (insertNode_spec owned grown.tail pins ?_ ?_ small node' ?_ seps_eq' numbers kids_held
        ?_ ?_).mono ?_
      · rw [pins, List.length_cons]
        omega
      · exact lt_of_lt_of_le names_lt.1 grown.le
      · simp [len]
      · intro n mem
        rcases names_mem n mem with old | new
        · exact lt_of_lt_of_le (names_lt.2 n old) grown.le
        · exact new.2
      · intro mem
        rcases names_mem no mem with old | new
        · rw [List.flatMap_append, List.flatMap_cons] at old
          exact nodup.1 old
        · exact absurd names_lt.1 (Nat.not_lt.mpr new.1)
      · rintro r s₂ ⟨result, grown', pins'⟩
        refine ⟨result, ((grown.of_pins.mono child_names).trans grown').mono ?_, pins'⟩
        intro n mem
        rcases List.mem_append.mp mem with old | own
        · exact old
        · rw [List.mem_singleton.mp own]
          exact List.mem_cons_self ..

/-- Inserting below a page does to its tree what abstract insertion does. -/
theorem insertRec_spec {e : BTreeEntry} (d : Nat) {least next fuel : Nat}
    {lo hi : Option BTreeEntry} {t : Tree BTreeEntry d} (owned : PoolView.Owns own fid)
    (levels : d < fuel) (tail : Tail s fid root hint) (room : s.pins.length + d + 1 < frames)
    (small : (BPlus.insertRec 214 hint e d t).2 < 2 ^ 32)
    (held : Holds (fun n => s.pages ⟨fid, n⟩) d next t) (ordered : Ordered d lo hi t)
    (sized : Sized 214 least d t) (names_lt : ∀ n ∈ t.names, n < hint) (nodup : t.names.Nodup) :
    Prog.Returns (PoolView.strict frames own) (BTree.insertRec fid e fuel t.no) s
      (InsertsInto s fid root hint next t.names (BPlus.insertRec 214 hint e d t)) := by
  induction d generalizing s least next fuel lo hi with
  | zero =>
      obtain ⟨fuel, rfl⟩ : ∃ n, fuel = n + 1 := ⟨fuel - 1, by omega⟩
      have page := held.page
      have leaf : (s.pages ⟨fid, Leaf.no t⟩).pageType = PageType.btreeLeaf.code := held.1.type
      have inFile : Leaf.no t < hint := names_lt _ (no_mem_names t)
      rw [BTree.insertRec]
      apply Prog.Returns.bind
      refine readTree_spec (by omega) page.1 page.2 ?_
      apply Prog.Returns.bind
      refine PoolView.strict_peek (List.mem_cons_self ..) ?_
      dsimp only [Tree.no]
      rw [if_pos leaf]
      have pinnedTail : Tail { s with pins := ⟨fid, Leaf.no t⟩ :: s.pins } fid root hint :=
        ⟨tail.tree, tail.top, tail.zero, tail.logged⟩
      refine (insertLeaf_spec owned pinnedTail rfl ?_ inFile small held ordered.1 sized.2).mono ?_
      · simp only [List.length_cons]
        omega
      · rintro r s' ⟨result, grown, pins⟩
        exact ⟨result, grown.of_pins, pins⟩
  | succ d ih =>
      obtain ⟨fuel, rfl⟩ : ∃ n, fuel = n + 1 := ⟨fuel - 1, by omega⟩
      rcases sized with ⟨ge, le, first_sized, rest_sized⟩
      rw [names_succ] at names_lt nodup ⊢
      have kids_sized : ∀ c ∈ BPlus.kids (Node.first t) (Node.rest t),
          Sized 214 (214 / 2) d c := by
        intro c mem
        rcases List.mem_cons.mp mem with rfl | mem
        · exact first_sized
        · rcases List.mem_map.mp mem with ⟨p, p_mem, rfl⟩
          exact rest_sized p p_mem
      apply insertRec_node owned (by omega) (BPlus.insertRec 214 hint e d)
        (fun c => ⟨BPlus.insertRec_no .., BPlus.insertRec_firstLeaf ..⟩)
        (BPlus.insertRec_names 214 hint e d) _ small held
        (BPlus.OrderedFrom.seps_sorted ordered).1 le names_lt nodup
      intro c mem next small held
      rcases BPlus.OrderedFrom.kids ordered c mem with ⟨lo', hi', c_ordered⟩
      have c_names : c.names.Sublist
          ((BPlus.kids (Node.first t) (Node.rest t)).flatMap (Tree.names d)) :=
        List.sublist_flatten_of_mem (List.mem_map_of_mem mem)
      have pinnedTail : Tail { s with pins := ⟨fid, Node.no t⟩ :: s.pins } fid root hint :=
        ⟨tail.tree, tail.top, tail.zero, tail.logged⟩
      apply ih (by omega) pinnedTail _ small held c_ordered (kids_sized c mem)
      · intro n n_mem
        exact names_lt n (List.mem_cons_of_mem _ (c_names.subset n_mem))
      · exact (List.nodup_cons.mp nodup).2.sublist c_names
      · simp only [List.length_cons]
        omega

end MySimpleDb.Storage
