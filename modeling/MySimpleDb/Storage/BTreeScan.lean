import MySimpleDb.Storage.IndexFile

/-!
# Scans over the pages of a tree

A scanner reads the pages of its tree and pins one leaf at a time.  Over pages
that hold a tree each of its calls returns what the scan of that tree does, so
that the entries between its bounds come in order, once each, and then none.
-/

namespace MySimpleDb.Storage

open MySimpleDb.Lib
open MySimpleDb.Lib.BPlus (Tree Leaf Node seek placeIn childFor)

/-! ## Pages of a held tree -/

section Held

variable {pages : Nat → Page} {d next : Nat} {t : Tree BTreeEntry d}

theorem HoldsKids.child {T : Type} {holds : Nat → T → Prop} {firstLeaf : T → Nat} {next : Nat}
    {kids : List T} (held : HoldsKids holds firstLeaf next kids) :
    ∀ c ∈ kids, ∃ next, holds next c := by
  induction kids with
  | nil => simp
  | cons c kids inductionHypothesis =>
      rw [List.forall_mem_cons]
      exact ⟨⟨_, held.1⟩, inductionHypothesis held.2⟩

/-- Each leaf of a held tree has a page that lays it out. -/
theorem Holds.leaf (held : Holds pages d next t) :
    ∀ leaf ∈ t.leaves, LeafPage (pages leaf.no) leaf.entries ∧
      pageValid (pages leaf.no) magicBTreeLeaf = true := by
  induction d generalizing next with
  | zero =>
      intro leaf mem
      rw [List.mem_singleton.mp mem]
      exact ⟨held.1, held.2.1⟩
  | succ d inductionHypothesis =>
      intro leaf mem
      rw [leaves_succ] at mem
      obtain ⟨c, c_mem, mem⟩ := List.mem_flatMap.mp mem
      obtain ⟨next', child⟩ := held.2.2.child c c_mem
      exact inductionHypothesis child leaf mem

/-- Page numbers that other pages name have four bytes. -/
theorem Holds.names_small (held : Holds pages d next t) (root : t.no < 2 ^ 32) :
    ∀ n ∈ t.names, n < 2 ^ 32 := by
  induction d generalizing next with
  | zero =>
      intro n mem
      rw [List.mem_singleton.mp mem]
      exact root
  | succ d inductionHypothesis =>
      rw [names_succ, List.forall_mem_cons]
      refine ⟨root, fun n mem => ?_⟩
      obtain ⟨c, c_mem, mem⟩ := List.mem_flatMap.mp mem
      obtain ⟨next', child⟩ := held.2.2.child c c_mem
      apply inductionHypothesis child _ n mem
      obtain ⟨j, lt, at_j⟩ := List.getElem_of_mem (List.mem_map_of_mem (f := Tree.no d) c_mem)
      rw [← at_j, ← held.1.child j lt]
      exact Block.num_lt _ _ 4

/-- Every level of a tree has a page. -/
theorem depth_lt_names (t : Tree BTreeEntry d) : d < t.names.length := by
  induction d with
  | zero => exact Nat.one_pos
  | succ d inductionHypothesis =>
      have first := inductionHypothesis (Node.first t)
      rw [names_succ, BPlus.kids, List.flatMap_cons, List.length_cons, List.length_append]
      omega

theorem leaves_names (t : Tree BTreeEntry d) : (t.leaves.map Leaf.no).Sublist t.names := by
  induction d with
  | zero => exact List.Sublist.refl _
  | succ d inductionHypothesis =>
      rw [leaves_succ, names_succ]
      apply List.Sublist.cons
      induction BPlus.kids (Node.first t) (Node.rest t) with
      | nil => exact List.Sublist.refl _
      | cons c kids rest =>
          rw [List.flatMap_cons, List.flatMap_cons, List.map_append]
          exact (inductionHypothesis c).append rest

/-- The chain goes on from a page to the one listed behind it. -/
theorem ChainTo.nextPage {stop n m : Nat} {before after : List Nat}
    (chain : ChainTo pages stop n (before ++ m :: after)) :
    (pages m).nextPage = after.head?.getD stop := by
  induction before generalizing n with
  | nil =>
      have rest := chain.2
      cases after with
      | nil => exact rest
      | cons m' after => exact rest.1
  | cons m' before inductionHypothesis => exact inductionHypothesis chain.2

/-- Distinct numbers below a bound are few. -/
theorem length_le_of_small {ns : List Nat} {bound : Nat} (nodup : ns.Nodup)
    (small : ∀ n ∈ ns, n < bound) : ns.length ≤ bound := by
  have among : ns.Subperm (List.range bound) :=
    nodup.subperm fun n mem => List.mem_range.mpr (small n mem)
  simpa using among.length_le

end Held

variable {frames fid : Nat} {s : PoolView} {es : List BTreeEntry} {t : AnyTree}

namespace TreeInvariant

theorem rootSmall (tree : TreeInvariant s fid es t) : t.2.no < 2 ^ 32 := by
  rw [← tree.root.1]
  exact Block.num_lt _ _ 4

theorem namesSmall (tree : TreeInvariant s fid es t) : ∀ n ∈ t.2.names, n < 2 ^ 32 :=
  tree.layout.names_small tree.rootSmall

theorem searchable (tree : TreeInvariant s fid es t) (nextNo : Nat) :
    (IndexFile.mk t nextNo).Searchable where
  cuts := tree.cuts
  sorted := tree.leaves
  distinct := tree.names.1.sublist (leaves_names t.2)
  positive leaf mem := by
    apply tree.names.2
    exact (leaves_names t.2).subset (List.mem_map_of_mem mem)

/-- A leaf is linked to the leaf behind it. -/
theorem nextPage (tree : TreeInvariant s fid es t) {leaf : Leaf BTreeEntry}
    (mem : leaf ∈ t.2.leaves) :
    (s.pages ⟨fid, leaf.no⟩).nextPage = Chain.next Leaf.no t.2.leaves leaf.no := by
  obtain ⟨before, after, split⟩ := List.append_of_mem mem
  have distinct : (t.2.leaves.map Leaf.no).Nodup := tree.names.1.sublist (leaves_names t.2)
  rw [Chain.next_eq distinct split, Chain.head, ← List.head?_map]
  have chain := tree.chain
  rw [split, List.map_append, List.map_cons] at chain
  exact chain.nextPage

/-- A descent has fuel for every level. -/
theorem levels (tree : TreeInvariant s fid es t) : t.1 < recursionBound := by
  have few := length_le_of_small tree.names.1 tree.namesSmall
  have depth := depth_lt_names t.2
  unfold recursionBound
  omega

/-- A call of `next` has fuel for every entry and every leaf. -/
theorem turns_le (tree : TreeInvariant s fid es t) (nextNo : Nat) :
    IndexScanner.turns ⟨t, nextNo⟩ ≤ scanBound := by
  have few_leaves : t.2.leaves.length ≤ 2 ^ 32 := by
    have few := length_le_of_small (tree.names.1.sublist (leaves_names t.2))
      fun n mem => tree.namesSmall n ((leaves_names t.2).subset mem)
    rwa [List.length_map] at few
  have few_entries : t.2.entries.length ≤ t.2.leaves.length * 214 := by
    rw [BPlus.entries_leaves, List.length_flatMap]
    have each : ∀ n ∈ t.2.leaves.map fun leaf => leaf.entries.length, n ≤ 214 := by
      intro n mem
      obtain ⟨leaf, leaf_mem, rfl⟩ := List.mem_map.mp mem
      have fits := (tree.layout.leaf leaf leaf_mem).1.fits
      omega
    simpa using List.sum_le_card_nsmul _ 214 each
  change t.2.entries.length + 2 * t.2.leaves.length + 2 ≤ 2 ^ 64
  omega

end TreeInvariant

/-- The search in a leaf places the probe. -/
theorem LeafPage.placeIn {p : Page} {es : List BTreeEntry} (leaf : LeafPage p es)
    (sorted : es.Pairwise (· < ·)) (probe : Option BTreeEntry) :
    probe.elim 0 (leafLowerBound p) = BPlus.placeIn probe es := by
  cases probe with
  | none => rfl
  | some e => exact leaf.lowerBound sorted e

/-! ## Scans of the tree -/

namespace IndexScanner

variable {f : IndexFile} {scan v : IndexScanner} {out : Option BTreeEntry} {fuel : Nat}

/-- More fuel changes nothing once the loop has ended. -/
theorem nextLoop_mono {fuel' : Nat} (le : fuel ≤ fuel')
    (given : nextLoop fid f fuel scan = .ok (out, v)) :
    nextLoop fid f fuel' scan = .ok (out, v) := by
  induction fuel generalizing scan fuel' with
  | zero => cases given
  | succ fuel inductionHypothesis =>
      obtain ⟨fuel', rfl⟩ : ∃ n, fuel' = n + 1 := ⟨fuel' - 1, by omega⟩
      have le : fuel ≤ fuel' := Nat.le_of_succ_le_succ le
      unfold nextLoop at given ⊢
      split at given
      · split at given
        · rename_i last
          rw [if_pos last]
          exact given
        · rename_i last
          rw [if_neg last]
          split at given
          · cases given
          · exact inductionHypothesis le given
      · split at given
        · exact inductionHypothesis le given
        · split at given
          · rename_i passed
            simp only [passed, if_true]
            exact given
          · rename_i passed
            split at given
            · rename_i skip
              simp only [passed, skip, if_true, Bool.false_eq_true, if_false]
              exact inductionHypothesis le given
            · rename_i skip
              simp only [passed, skip, Bool.false_eq_true, if_false]
              exact given

/-- A scan that has given none is done. -/
theorem isDone_of_nextLoop (given : nextLoop fid f fuel scan = .ok (none, v)) :
    v.isDone = true := by
  induction fuel generalizing scan with
  | zero => cases given
  | succ fuel inductionHypothesis =>
      unfold nextLoop at given
      split at given
      · split at given
        · cases given
          rfl
        · split at given
          · cases given
          · exact inductionHypothesis given
      · split at given
        · exact inductionHypothesis given
        · split at given
          · cases given
            rfl
          · split at given
            · exact inductionHypothesis given
            · cases given

theorem isDone_of_next (given : next fid f scan = .ok (none, v)) : v.isDone = true := by
  unfold next at given
  split at given
  · rename_i already
    cases given
    exact already
  · exact isDone_of_nextLoop given

theorem next_of_isDone (already : scan.isDone = true) : next fid f scan = .ok (none, scan) :=
  if_pos already

end IndexScanner

/-! ## The scanner and its view -/

namespace BTreeScanner

/-- The scanner as a scan of the tree. -/
def view (scan : BTreeScanner) : IndexScanner :=
  ⟨scan.loBound, scan.hiBound, scan.cur, scan.nextNo, scan.slotIdx, scan.isDone⟩

/-- The pin of a scanner. -/
def pins (scan : BTreeScanner) : List PageId :=
  (scan.cur.map fun no => ⟨scan.fileId, no⟩).toList

/-- `scan` is a scanner of the tree that holds one of its leaves or none, and the
pool is as before except for its pin. -/
structure Scans (s : PoolView) (fid : Nat) (t : AnyTree) (scan : BTreeScanner) (s' : PoolView) :
    Prop where
  fileId : scan.fileId = fid
  cur : ∀ no ∈ scan.cur, ∃ leaf ∈ t.2.leaves, leaf.no = no
  state : s' = { s with pins := scan.pins ++ s.pins }

/-- The tree lies in the pages, and a scan can pin and give up its leaves. -/
structure Ready (frames : Nat) (s : PoolView) (fid : Nat) (es : List BTreeEntry) (t : AnyTree) :
    Prop where
  tree : TreeInvariant s fid es t
  room : s.pins.length < frames
  logged : ∀ no, (⟨fid, no⟩ : PageId) ∉ s.unlogged

/-! ### Descent -/

theorem descend_returns (room : s.pins.length < frames)
    (logged : ∀ no, (⟨fid, no⟩ : PageId) ∉ s.unlogged) (probe : Option BTreeEntry) {d next fuel : Nat}
    {t : Tree BTreeEntry d} (held : Holds (fun n => s.pages ⟨fid, n⟩) d next t)
    (cuts : BPlus.Cuts d t) (levels : d < fuel) :
    Prog.Returns (PoolView.sem frames) (descend fid probe fuel t.no)
      { s with pins := ⟨fid, t.no⟩ :: s.pins } fun no s' =>
        no = (seek probe d t).no ∧ s' = { s with pins := ⟨fid, no⟩ :: s.pins } := by
  induction d generalizing next fuel with
  | zero =>
      obtain ⟨fuel, rfl⟩ : ∃ n, fuel = n + 1 := ⟨fuel - 1, by omega⟩
      unfold descend
      dsimp only
      apply Prog.Returns.bind
      refine PoolView.returns_peek (List.mem_cons_self ..) ?_
      have leaf : (s.pages ⟨fid, Leaf.no t⟩).pageType = PageType.btreeLeaf.code := held.1.type
      have not_node : (s.pages ⟨fid, Leaf.no t⟩).pageType ≠ PageType.btreeInternal.code := by
        rw [leaf]
        decide
      rw [Tree.no, if_neg not_node]
      exact Prog.Returns.pure ⟨rfl, rfl⟩
  | succ d inductionHypothesis =>
      obtain ⟨fuel, rfl⟩ : ∃ n, fuel = n + 1 := ⟨fuel - 1, by omega⟩
      obtain ⟨node, valid, children⟩ := held
      set child := childFor probe (Node.first t) (Node.rest t)
      have child_mem : child ∈ BPlus.kids (Node.first t) (Node.rest t) := BPlus.childFor_mem ..
      obtain ⟨next', child_held⟩ := children.child child child_mem
      have index_eq : probe.elim 0 (nodeChildIndex (s.pages ⟨fid, Node.no t⟩)) =
          probe.elim 0 fun e => (((Node.rest t).map Prod.fst).takeWhile (· ≤ e)).length := by
        cases probe with
        | none => rfl
        | some e => exact node.childIndex cuts.1 e
      have child_eq : nodeChild (s.pages ⟨fid, Node.no t⟩)
          (probe.elim 0 (nodeChildIndex (s.pages ⟨fid, Node.no t⟩))) = child.no := by
        rw [index_eq]
        obtain ⟨lt, at_index⟩ := List.getElem?_eq_some_iff.mp
          (BPlus.childFor_eq probe (Node.first t) (Node.rest t))
        rw [node.child _ (by simpa using lt), List.getElem_map, at_index]
      unfold descend
      dsimp only
      apply Prog.Returns.bind
      refine PoolView.returns_peek (List.mem_cons_self ..) ?_
      rw [Tree.no, if_pos node.type, child_eq]
      apply Prog.Returns.bind
      refine PoolView.returns_unpin (List.mem_cons_self ..) (logged _) ?_
      apply Prog.Returns.bind
      refine PoolView.returns_read ?_ child_held.page.1 ?_
      · simpa using room
      · simp only [List.erase_cons_head]
        exact inductionHypothesis child_held (cuts.2.2 child child_mem) (by omega)

/-- A new scanner stands where the scan of the tree starts. -/
theorem create_returns (ready : Ready frames s fid es t) (nextNo : Nat)
    (lo hi : Option (Bound IndexKey)) :
    Prog.Returns (PoolView.sem frames) (create fid lo hi) s fun scan s' =>
      scan.view = IndexScanner.create ⟨t, nextNo⟩ lo hi ∧ Scans s fid t scan s' := by
  have tree := ready.tree
  set probe : Option BTreeEntry := lo.map fun b => { key := b.key } with probe_eq
  obtain ⟨before, after, split, -, -⟩ := tree.cuts.seek_split probe
  have leaf_mem : seek probe t.1 t.2 ∈ t.2.leaves := by simp [split]
  obtain ⟨page, -⟩ := tree.layout.leaf _ leaf_mem
  have place : probe.elim 0 (leafLowerBound (s.pages ⟨fid, (seek probe t.1 t.2).no⟩)) =
      placeIn probe (seek probe t.1 t.2).entries :=
    page.placeIn (tree.leaves _ leaf_mem) probe
  have levels := tree.levels
  unfold create
  generalize recursionBound = fuel at levels
  dsimp only
  apply Prog.Returns.bind
  refine PoolView.returns_tree ?_
  rw [tree.root.2]
  apply Prog.Returns.bind
  refine PoolView.returns_read ready.room tree.layout.page.1 ?_
  apply Prog.Returns.bind
  refine (descend_returns ready.room ready.logged probe tree.layout tree.cuts levels).mono ?_
  rintro _ _ ⟨rfl, rfl⟩
  apply Prog.Returns.bind
  refine PoolView.returns_peek (List.mem_cons_self ..) ?_
  rw [if_pos page.type]
  refine Prog.Returns.pure ⟨?_, rfl, ?_, rfl⟩
  · simp only [view, IndexScanner.create, ← probe_eq, tree.nextPage leaf_mem, place]
    rfl
  · rintro no ⟨⟩
    exact ⟨_, leaf_mem, rfl⟩

/-! ### Steps -/

/-- What a program of the scanner returns, and the scanner it leaves. -/
def Gives (s : PoolView) (fid : Nat) (t : AnyTree) (out : Option BTreeEntry) (v : IndexScanner)
    (r : Option BTreeEntry × BTreeScanner) (s' : PoolView) : Prop :=
  r.1 = out ∧ r.2.view = v ∧ Scans s fid t r.2 s'

/-- The loop over pages does what the loop over the tree does. -/
theorem nextLoop_returns (ready : Ready frames s fid es t) (nextNo : Nat) {fuel : Nat}
    {scan : BTreeScanner} {s' : PoolView} {out : Option BTreeEntry} {v : IndexScanner}
    (scans : Scans s fid t scan s')
    (given : IndexScanner.nextLoop fid ⟨t, nextNo⟩ fuel scan.view = .ok (out, v)) :
    Prog.Returns (PoolView.sem frames) (nextLoop fuel scan) s' (Gives s fid t out v) := by
  have tree := ready.tree
  have distinct : (t.2.leaves.map Leaf.no).Nodup := (tree.searchable nextNo).distinct
  induction fuel generalizing scan s' with
  | zero => cases given
  | succ fuel inductionHypothesis =>
      obtain ⟨fileId, lo, hi, cur, no, slot, isDone⟩ := scan
      obtain ⟨fid_eq, cur_leaf, rfl⟩ := scans
      obtain rfl : fileId = fid := fid_eq
      change IndexScanner.nextLoop fileId _ (fuel + 1) ⟨lo, hi, cur, no, slot, isDone⟩ = _ at given
      unfold IndexScanner.nextLoop at given
      unfold nextLoop
      cases cur with
      | none =>
          simp only at given ⊢
          by_cases last : no = 0
          · rw [if_pos last] at given
            rw [if_pos last]
            cases given
            exact Prog.Returns.pure ⟨rfl, rfl, rfl, cur_leaf, rfl⟩
          · rw [if_neg last] at given
            rw [if_neg last]
            cases found : Chain.find Leaf.no (IndexFile.mk t nextNo).leaves no with
            | none =>
                rw [found] at given
                cases given
            | some leaf =>
                have leaf_mem : leaf ∈ t.2.leaves := List.mem_of_find?_eq_some found
                have no_eq : leaf.no = no := by simpa using List.find?_some found
                subst no_eq
                obtain ⟨page, valid⟩ := tree.layout.leaf leaf leaf_mem
                rw [found] at given
                apply Prog.Returns.bind
                refine PoolView.returns_read ready.room valid ?_
                apply Prog.Returns.bind
                refine PoolView.returns_peek (List.mem_cons_self ..) ?_
                rw [if_pos page.type]
                refine inductionHypothesis ⟨rfl, ?_, rfl⟩ ?_
                · rintro _ ⟨⟩
                  exact ⟨leaf, leaf_mem, rfl⟩
                · simp only [view]
                  rw [tree.nextPage leaf_mem]
                  exact given
      | some no' =>
          obtain ⟨leaf, leaf_mem, rfl⟩ := cur_leaf no' rfl
          obtain ⟨page, -⟩ := tree.layout.leaf leaf leaf_mem
          have held : (⟨fileId, leaf.no⟩ : PageId) ∈
              (⟨fileId, leaf.no⟩ : PageId) :: s.pins := List.mem_cons_self ..
          obtain ⟨before, after, split⟩ := List.append_of_mem leaf_mem
          have entries : (IndexFile.mk t nextNo).leafEntries leaf.no = leaf.entries :=
            IndexScanner.leafEntries_eq (tree.searchable nextNo) split
          simp only [entries] at given ⊢
          apply Prog.Returns.bind
          refine PoolView.returns_peek held ?_
          change Prog.Returns _ (if slot < (s.pages ⟨fileId, leaf.no⟩).slotCount then _ else _) _ _
          rw [page.count]
          by_cases inside : slot < leaf.entries.length
          · rw [List.getElem?_eq_getElem inside] at given
            rw [if_pos inside]
            change Prog.Returns _ (if beyond hi (leafEntry (s.pages ⟨fileId, leaf.no⟩) slot).key = true
              then _ else _) _ _
            rw [page.entry slot inside]
            simp only at given
            split at given
            · rename_i passed
              cases given
              rw [if_pos passed]
              exact Prog.Returns.pure ⟨rfl, rfl, rfl, cur_leaf, rfl⟩
            · rename_i not_passed
              rw [if_neg not_passed]
              split at given
              · rename_i skip
                rw [if_pos skip]
                exact inductionHypothesis ⟨rfl, cur_leaf, rfl⟩ given
              · rename_i no_skip
                cases given
                rw [if_neg no_skip]
                exact Prog.Returns.pure ⟨rfl, rfl, rfl, cur_leaf, rfl⟩
          · rw [List.getElem?_eq_none (Nat.le_of_not_lt inside)] at given
            rw [if_neg inside]
            apply Prog.Returns.bind
            refine PoolView.returns_unpin held (ready.logged _) ?_
            refine inductionHypothesis ⟨rfl, by simp, ?_⟩ given
            simp [pins]

theorem next_returns (ready : Ready frames s fid es t) (nextNo : Nat) {scan : BTreeScanner}
    {s' : PoolView} {out : Option BTreeEntry} {v : IndexScanner} (scans : Scans s fid t scan s')
    (given : IndexScanner.next fid ⟨t, nextNo⟩ scan.view = .ok (out, v)) :
    Prog.Returns (PoolView.sem frames) (next scan) s' (Gives s fid t out v) := by
  unfold IndexScanner.next at given
  change (if scan.isDone = true then _ else _) = _ at given
  unfold next
  by_cases already : scan.isDone = true
  · rw [if_pos already] at given
    cases given
    rw [if_pos already]
    exact Prog.Returns.pure ⟨rfl, rfl, scans⟩
  · rw [if_neg already] at given
    rw [if_neg already]
    have enough := ready.tree.turns_le nextNo
    generalize scanBound = fuel at enough
    exact nextLoop_returns ready nextNo scans (IndexScanner.nextLoop_mono enough given)

/-! ### Whole scans -/

/-- What `calls` calls of `next` return. -/
def nexts : Nat → BTreeScanner → PoolM (List (Option BTreeEntry) × BTreeScanner)
  | 0, scan => return ([], scan)
  | calls + 1, scan => do
      let (out, scan) ← next scan
      let (outs, scan) ← nexts calls scan
      return (out :: outs, scan)

/-- A scan from its creation to its destruction, with `calls` calls of `next`. -/
def scan (fid : Nat) (lo hi : Option (Bound IndexKey)) (calls : Nat) :
    PoolM (List (Option BTreeEntry)) := do
  let scan ← create fid lo hi
  let (outs, scan) ← nexts calls scan
  let _ ← close scan
  return outs

theorem nexts_returns (ready : Ready frames s fid es t) (nextNo : Nat) {calls : Nat}
    {scan : BTreeScanner} {s' : PoolView} {found : List BTreeEntry} (scans : Scans s fid t scan s')
    (yields : Pull.Yields (IndexScanner.next fid ⟨t, nextNo⟩) scan.view found) :
    Prog.Returns (PoolView.sem frames) (nexts calls scan) s' fun r s'' =>
      r.1 = ((List.range calls).map fun i => found[i]?) ∧ Scans s fid t r.2 s'' := by
  induction calls generalizing scan s' found with
  | zero => exact Prog.Returns.pure ⟨rfl, scans⟩
  | succ calls inductionHypothesis =>
      unfold nexts
      apply Prog.Returns.bind
      generalize view_eq : scan.view = v at yields
      cases yields with
      | done last =>
          subst view_eq
          apply (next_returns ready nextNo scans last).mono
          rintro ⟨out, scan'⟩ s₁ ⟨rfl, rfl, scans'⟩
          have ended := IndexScanner.isDone_of_next last
          apply Prog.Returns.bind
          apply (inductionHypothesis scans' (.done (IndexScanner.next_of_isDone ended))).mono
          rintro ⟨outs, scan''⟩ s₂ ⟨rfl, scans''⟩
          refine Prog.Returns.pure ⟨?_, scans''⟩
          simp [List.range_succ_eq_map, Function.comp_def]
      | row first rest =>
          subst view_eq
          apply (next_returns ready nextNo scans first).mono
          rintro ⟨out, scan'⟩ s₁ ⟨rfl, rfl, scans'⟩
          apply Prog.Returns.bind
          apply (inductionHypothesis scans' rest).mono
          rintro ⟨outs, scan''⟩ s₂ ⟨rfl, scans''⟩
          refine Prog.Returns.pure ⟨?_, scans''⟩
          simp [List.range_succ_eq_map, Function.comp_def]

theorem close_returns (ready : Ready frames s fid es t) {scan : BTreeScanner} {s' : PoolView}
    (scans : Scans s fid t scan s') :
    Prog.Returns (PoolView.sem frames) (close scan) s' fun _ s'' => s'' = s := by
  obtain ⟨rfl, -, rfl⟩ := scans
  unfold close
  cases held : scan.cur with
  | none =>
      refine Prog.Returns.pure ?_
      simp [pins, held]
  | some no =>
      have first : scan.pins = [⟨scan.fileId, no⟩] := by simp [pins, held]
      apply Prog.Returns.bind
      refine PoolView.returns_unpin ?_ (ready.logged no) ?_
      · simp [first]
      · refine Prog.Returns.pure ?_
        simp [first]

/-- Over any tree and any bounds the calls of `next` give exactly the entries whose keys
the bounds admit, once each and in order, and then none for ever; the scan leaves the
pages as they were. -/
theorem scan_exact (frames : Nat) (s : PoolView) (fid : Nat) (es : List BTreeEntry) (t : AnyTree)
    (tree : TreeInvariant s fid es t) (room : s.pins.length < frames)
    (logged : ∀ no, (⟨fid, no⟩ : PageId) ∉ s.unlogged) (lo hi : Option (Bound IndexKey)) :
    ∃ found : List BTreeEntry, found.Pairwise (fun a b => entryCmp a b < 0) ∧
      (∀ e, e ∈ found ↔ e ∈ es ∧ KeyInterval.Mem ⟨lo, hi⟩ e.key) ∧
      ∀ calls, Prog.Returns (PoolView.sem frames) (scan fid lo hi calls) s fun outs s' =>
        outs = ((List.range calls).map fun i => found[i]?) ∧ s' = s := by
  have ready : Ready frames s fid es t := ⟨tree, room, logged⟩
  have sorted : t.2.entries.Pairwise (· < ·) := tree.cuts.sorted tree.leaves
  refine ⟨t.2.entries.filter fun e => decide (KeyInterval.Mem ⟨lo, hi⟩ e.key), ?_, ?_, ?_⟩
  · apply (sorted.filter _).imp
    intro a b lt
    exact BTreeEntry.entryCmp_neg_iff.mpr lt
  · intro e
    rw [List.mem_filter, tree.entries.mem_iff, decide_eq_true_eq]
  · intro calls
    have yields := IndexScanner.create_yields_of_searchable fid (tree.searchable 0) lo hi
    unfold scan
    apply Prog.Returns.bind
    apply (create_returns ready 0 lo hi).mono
    rintro scanner s₁ ⟨view_eq, scans⟩
    apply Prog.Returns.bind
    apply (nexts_returns ready 0 scans (view_eq ▸ yields)).mono
    rintro ⟨outs, scanner'⟩ s₂ ⟨outs_eq, scans'⟩
    apply Prog.Returns.bind
    apply (close_returns ready scans').mono
    rintro _ _ rfl
    exact Prog.Returns.pure ⟨outs_eq, rfl⟩

end BTreeScanner

/-! ## A tree of two leaves -/

/-- Three entries, one of them with the NULL key, in two leaves under a root. -/
def twoLeaves : AnyTree :=
  ⟨1, (⟨3, (⟨1, [⟨⟨5, false⟩, 1, 0⟩, ⟨⟨5, false⟩, 1, 1⟩]⟩ : Leaf _),
    [(⟨⟨0, true⟩, 2, 0⟩, (⟨2, [⟨⟨0, true⟩, 2, 0⟩]⟩ : Leaf _))]⟩ : Node BTreeEntry (Leaf BTreeEntry))⟩

def twoLeavesPage : Nat → Page
  | 0 => (setFileRoot (initPage magicFileHeader .fileHeader) 3).seal
  | 1 => ((leafBuild [⟨⟨5, false⟩, 1, 0⟩, ⟨⟨5, false⟩, 1, 1⟩] 0 2).setNextPage 2).seal
  | 2 => (leafBuild [⟨⟨0, true⟩, 2, 0⟩] 0 1).seal
  | 3 => (nodeBuild [⟨⟨0, true⟩, 2, 0⟩] [1, 2] 0 1).seal
  | _ => Block.zero

def twoLeavesView : PoolView where
  pages pid := if pid.fileId = 7 then twoLeavesPage pid.pageNo else Block.zero
  top _ := 4
  pins := []
  unlogged := []
  trees _ := ⟨3, 4⟩

theorem twoLeaves_held : Holds twoLeavesPage 1 0 twoLeaves.2 := by
  have first := LeafPage.build [⟨⟨5, false⟩, 1, 0⟩, ⟨⟨5, false⟩, 1, 1⟩] (Nat.zero_le 2)
    (Nat.le_refl 2) (by decide)
  have second := LeafPage.build [⟨⟨0, true⟩, 2, 0⟩] (Nat.zero_le 1) (Nat.le_refl 1) (by decide)
  have node : NodePage (nodeBuild [⟨⟨0, true⟩, 2, 0⟩] [1, 2] 0 1) [⟨⟨0, true⟩, 2, 0⟩] [1, 2] :=
    NodePage.build (Nat.zero_le 1) (Nat.le_refl 1) rfl (by decide) (by decide)
  refine holds_node node rfl ⟨?_, ?_, trivial⟩
  · exact holds_leaf (first.1.setNextPage 2) (nextPage_setNextPage _ (by decide)) rfl
  · exact holds_leaf second.1 second.2 rfl

theorem twoLeaves_ordered : BPlus.Ordered 1 none none twoLeaves.2 := by
  have between : BPlus.Between none none (⟨⟨0, true⟩, 2, 0⟩ : BTreeEntry) := ⟨by simp, by simp⟩
  refine ⟨⟨by decide, ?_⟩, between, by decide, ?_⟩
  · intro x mem
    refine ⟨by simp, ?_⟩
    rintro _ ⟨⟩
    revert x
    decide
  · intro x mem
    refine ⟨?_, by simp⟩
    rintro _ ⟨⟩
    revert x
    decide

theorem twoLeaves_tree : TreeInvariant twoLeavesView 7
    [⟨⟨5, false⟩, 1, 0⟩, ⟨⟨5, false⟩, 1, 1⟩, ⟨⟨0, true⟩, 2, 0⟩] twoLeaves where
  cuts := twoLeaves_ordered.cuts
  leaves := by decide
  layout := twoLeaves_held
  chain := twoLeaves_held.chain
  names := by decide
  header := pageValid_setFileRoot 3 (initPage_magic _ _ (by decide))
  root := ⟨fileRoot_setFileRoot _ (by decide), rfl⟩
  entries := List.Perm.refl _

/-- Behind an open lower bound below the NULL key only its entry is left. -/
theorem scan_exact_twoLeaves :
    ∃ found : List BTreeEntry, found.Pairwise (fun a b => entryCmp a b < 0) ∧
      (∀ e, e ∈ found ↔
        e ∈ [⟨⟨5, false⟩, 1, 0⟩, ⟨⟨5, false⟩, 1, 1⟩, ⟨⟨0, true⟩, 2, 0⟩] ∧
          KeyInterval.Mem ⟨some ⟨⟨5, false⟩, false⟩, none⟩ e.key) ∧
      ∀ calls, Prog.Returns (PoolView.sem 1)
        (BTreeScanner.scan 7 (some ⟨⟨5, false⟩, false⟩) none calls) twoLeavesView fun outs s' =>
          outs = ((List.range calls).map fun i => found[i]?) ∧ s' = twoLeavesView :=
  BTreeScanner.scan_exact 1 twoLeavesView 7 _ twoLeaves twoLeaves_tree (by decide)
    (by simp [twoLeavesView]) _ _

end MySimpleDb.Storage
