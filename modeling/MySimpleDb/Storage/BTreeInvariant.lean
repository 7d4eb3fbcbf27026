import MySimpleDb.Storage.BTreeInsert

/-!
# The invariant of a tree file

A tree file holds a well-formed tree and names its root in page 0.  Creation
establishes this, and every insertion keeps it and adds one entry.
-/

namespace MySimpleDb.Storage

open MySimpleDb.Lib
open MySimpleDb.Lib.BPlus (Tree Leaf Node Outcome Ordered Sized Within)

/-- Trees of any height. -/
abbrev AnyTree : Type := (d : Nat) × Tree BTreeEntry d

/-- The file `fid` holds the tree `t`, its pages are numbered below `hint`, and
page 0 and the tree object name its root. -/
structure TreeFile (s : PoolView) (fid hint : Nat) (t : AnyTree) : Prop where
  tail : Tail s fid t.2.no hint
  header : pageValid (s.pages ⟨fid, 0⟩) magicFileHeader = true
  root : fileRoot (s.pages ⟨fid, 0⟩) = t.2.no
  held : Holds (fun n => s.pages ⟨fid, n⟩) t.1 0 t.2
  wf : BPlus.Wf 214 1 hint t

variable {frames fid hint : Nat} {own : PageId → Page → Prop} {s : PoolView}

/-! ## Header pages -/

theorem fileRoot_setFileRoot (p : Page) {root : Nat} (small : root < 2 ^ 32) :
    fileRoot (setFileRoot p root).seal = root := by
  unfold fileRoot setFileRoot
  rw [Page.num_seal _ (by simp only [pageHeaderSize]; omega)]
  exact Block.num_setNum_same p (by simp only [pageHeaderSize]; omega) small

theorem pageValid_setFileRoot {p : Page} (root : Nat) (magic : p.magic = magicFileHeader) :
    pageValid (setFileRoot p root).seal magicFileHeader = true := by
  apply pageValid_seal
  rw [← magic]
  exact Block.num_setNum_of_apart p (by simp only [pageHeaderSize]; omega)

theorem magic_of_pageValid {p : Page} {magic : Nat} (valid : pageValid p magic = true) :
    p.magic = magic := by
  simp only [pageValid, Bool.and_eq_true, decide_eq_true_eq] at valid
  exact valid.1

/-! ## Creation -/

/-- No page of the file has been allocated. -/
structure FreshFile (s : PoolView) (fid : Nat) : Prop where
  top : s.top fid = 0
  zero : ∀ n, s.pages ⟨fid, n⟩ = Block.zero
  logged : s.unlogged = []

theorem create_strict (owned : PoolView.Owns own fid) (fresh : FreshFile s fid)
    (room : s.pins.length + 1 < frames) :
    Prog.Returns (PoolView.strict frames own) (BTree.create fid) s fun _ s' =>
      TreeFile s' fid 2 ⟨0, (⟨1, []⟩ : Leaf _)⟩ ∧ s'.pins = s.pins := by
  have apart : (⟨fid, 1⟩ : PageId) ≠ ⟨fid, 0⟩ := page_ne (by decide)
  unfold BTree.create
  dsimp only
  apply Prog.Returns.bind
  refine PoolView.strict_createTableFile fresh.top ?_
  apply Prog.Returns.bind
  refine PoolView.strict_allocate (by simp; omega) (fresh.zero 0) ?_
  apply Prog.Returns.bind
  refine PoolView.strict_poke (by simp) ?_
  apply Prog.Returns.bind
  refine PoolView.strict_allocate (by simp; omega) (by simp [apart, fresh.zero]) ?_
  apply Prog.Returns.bind
  refine PoolView.strict_poke (by simp) ?_
  apply Prog.Returns.bind
  refine PoolView.strict_peek (by simp) ?_
  apply Prog.Returns.bind
  refine PoolView.strict_poke (by simp) ?_
  apply Prog.Returns.bind
  refine PoolView.strict_markDirty (owned 0 (by decide) _) (by simp) ?_
  apply Prog.Returns.bind
  refine PoolView.strict_unpin (by simp) (by simp) ?_
  apply Prog.Returns.bind
  refine PoolView.strict_flush (by simp) ?_
  apply Prog.Returns.bind
  refine PoolView.strict_markDirty (owned 1 (by decide) _) (by simp [apart]) ?_
  apply Prog.Returns.bind
  refine PoolView.strict_unpin (by simp [apart]) (by simp) ?_
  refine PoolView.strict_setTree ?_
  refine ⟨⟨⟨?_, ?_, ?_, ?_⟩, ?_, ?_, ?_, ?_⟩, ?_⟩
  · simp [Tree.no]
  · simp
  · intro n le
    have not_root : (⟨fid, n⟩ : PageId) ≠ ⟨fid, 1⟩ := page_ne (by omega)
    have not_header : (⟨fid, n⟩ : PageId) ≠ ⟨fid, 0⟩ := page_ne (by omega)
    simp [not_root, not_header, fresh.zero]
  · simp [fresh.logged]
  · simp only [PoolView.setPage_pages, Function.update_self, ne_eq, apart.symm,
      not_false_eq_true, Function.update_of_ne]
    exact pageValid_setFileRoot 1 (initPage_magic _ _ (by decide))
  · simp only [PoolView.setPage_pages, Function.update_self]
    exact fileRoot_setFileRoot _ (show 1 < 2 ^ 32 by decide)
  · refine ⟨?_, ?_, ?_⟩
    · simp only [PoolView.setPage_pages, Function.update_of_ne apart, Function.update_self]
      exact LeafPage.init
    · simp only [PoolView.setPage_pages, Function.update_of_ne apart, Function.update_self]
      exact pageValid_initPage _ _ (by decide)
    · simp only [PoolView.setPage_pages, Function.update_of_ne apart, Function.update_self]
      exact initPage_nextPage _ _
  · refine ⟨⟨List.Pairwise.nil, by simp⟩, ⟨Nat.le_refl 0, Nat.zero_le _⟩, by decide, ?_⟩
    simp [Tree.names]
  · simp [apart]

theorem create_spec (fresh : FreshFile s fid) (room : s.pins.length + 1 < frames) :
    Prog.Returns (PoolView.sem frames) (BTree.create fid) s fun _ s' =>
      TreeFile s' fid 2 ⟨0, (⟨1, []⟩ : Leaf _)⟩ ∧ s'.pins = s.pins := by
  exact PoolView.returns_of_strict (create_strict (PoolView.owns_anyPage fid) fresh room)

/-! ## Insertion -/

theorem setRoot_spec {no : Nat} {post : Unit → PoolView → Prop} (owned : ∀ p, own ⟨fid, 0⟩ p)
    (room : s.pins.length < frames) (logged : s.unlogged = [])
    (header : pageValid (s.pages ⟨fid, 0⟩) magicFileHeader = true)
    (holds : post () { s.setPage ⟨fid, 0⟩ (setFileRoot (s.pages ⟨fid, 0⟩) no).seal with
      trees := Function.update s.trees fid { s.trees fid with rootPage := no } }) :
    Prog.Returns (PoolView.strict frames own) (BTree.setRoot fid no) s post := by
  unfold BTree.setRoot
  dsimp only
  apply Prog.Returns.bind
  refine PoolView.strict_read room header ?_
  apply Prog.Returns.bind
  refine PoolView.strict_peek (List.mem_cons_self ..) ?_
  refine PoolView.strict_save (owned _) rfl logged ?_
  apply Prog.Returns.bind
  refine PoolView.strict_tree ?_
  exact PoolView.strict_setTree holds

theorem TreeFile.names_bounds {t : AnyTree} (file : TreeFile s fid hint t) :
    ∀ n ∈ t.2.names, 1 ≤ n ∧ n < hint := by
  intro n mem
  have bounds := List.mem_range'_1.mp (file.wf.names.mem_iff.mp mem)
  have le := file.wf.base_le
  omega

/-- An insertion keeps the file a tree file, of the tree that abstract insertion
gives, and leaves other files alone. -/
theorem insert_strict {t : AnyTree} {e : BTreeEntry} (owned : PoolView.Owns own fid)
    (file : TreeFile s fid hint t) (room : s.pins.length + t.1 + 1 < frames) (levels : t.1 < recursionBound)
    (small : (BPlus.insert 214 hint e t).2 < 2 ^ 32) (new : e ∉ t.2.entries) :
    Prog.Returns (PoolView.strict frames own) (BTree.insert fid e) s fun _ s' =>
      TreeFile s' fid (BPlus.insert 214 hint e t).2 (BPlus.insert 214 hint e t).1 ∧
        s'.pins = s.pins ∧ ∀ pid : PageId, pid.fileId ≠ fid → s'.pages pid = s.pages pid := by
  have wf := (file.wf.insert (by decide) new).1
  have nodup : t.2.names.Nodup := file.wf.names.nodup_iff.mpr List.nodup_range'
  have bounds := file.names_bounds
  rcases t with ⟨d, t⟩
  simp only at room levels small new nodup bounds ⊢
  unfold BTree.insert
  apply Prog.Returns.bind
  refine PoolView.strict_tree ?_
  rw [file.tail.tree]
  apply Prog.Returns.bind
  have counted : (BPlus.insertRec 214 hint e d t).2 ≤ (BPlus.insert 214 hint e ⟨d, t⟩).2 := by
    rw [BPlus.insert]
    split <;> rename_i same <;> simp only at same <;> simp [same]
  refine (insertRec_spec d owned levels file.tail room (lt_of_le_of_lt counted small) file.held
    file.wf.ordered file.wf.sized (fun n mem => (bounds n mem).2) nodup).mono ?_
  rintro r s₁ ⟨inserted, grown, pins⟩
  have header_kept : s₁.pages ⟨fid, 0⟩ = s.pages ⟨fid, 0⟩ := by
    apply grown.kept
    · have := bounds _ (no_mem_names t)
      omega
    · intro mem
      have := bounds 0 mem
      omega
  have left := BPlus.insertRec_no 214 hint e d t
  have names := (BPlus.insertRec_names 214 hint e d t).2
  simp only [BPlus.insert] at wf small ⊢
  generalize BPlus.insertRec 214 hint e d t = out at wf small inserted grown left counted names ⊢
  rcases out with ⟨t' | ⟨l, k, rgt⟩, hint₁⟩
  · rcases r with _ | split
    · refine Prog.Returns.pure ⟨⟨?_, ?_, ?_, inserted, wf⟩, pins, grown.others⟩
      · have same : t'.no = t.no := left
        exact same ▸ grown.tail
      · rw [header_kept]
        exact file.header
      · rw [header_kept]
        exact file.root.trans left.symm
    · exact inserted.elim
  · rcases r with _ | split
    · exact inserted.elim
    · rcases inserted with ⟨rfl, l_held, rgt_held⟩
      dsimp only at small wf counted ⊢
      have header_ne : (⟨fid, 0⟩ : PageId) ≠ ⟨fid, hint₁⟩ := by
        apply page_ne
        have := grown.le
        have := bounds _ (no_mem_names t)
        omega
      have sides : ∀ n ∈ l.names ++ rgt.names, 1 ≤ n ∧ n < hint₁ := by
        intro n mem
        rcases List.mem_append.mp (names.mem_iff.mp mem) with added | old
        · have range := List.mem_range'_1.mp added
          have := grown.le
          have := bounds _ (no_mem_names t)
          omega
        · have := bounds n old
          have := grown.le
          omega
      have kids_small : ∀ n ∈ [l.no, rgt.no], n < 256 ^ 4 := by
        intro n mem
        have inSides : n ∈ l.names ++ rgt.names := by
          rcases List.mem_cons.mp mem with rfl | mem
          · exact List.mem_append_left _ (no_mem_names l)
          · rw [List.mem_singleton.mp mem]
            exact List.mem_append_right _ (no_mem_names rgt)
        have := (sides n inSides).2
        omega
      have left : l.no = t.no := left
      apply Prog.Returns.bind
      refine PoolView.strict_tree ?_
      apply Prog.Returns.bind
      refine newPage_spec grown.tail (by rw [pins]; omega) small ?_
      refine PoolView.strict_save (owned hint₁ (by omega) _) rfl grown.tail.logged ?_
      refine setRoot_spec (owned 0 (by decide)) ?_ grown.tail.logged ?_ ?_
      · simp only [pins]
        omega
      · simp only [PoolView.setPage_pages, Function.update_of_ne header_ne, header_kept]
        exact file.header
      · have kept : ∀ n ∈ l.names ++ rgt.names, (⟨fid, n⟩ : PageId) ≠ ⟨fid, 0⟩ ∧
            (⟨fid, n⟩ : PageId) ≠ ⟨fid, hint₁⟩ := by
          intro n mem
          have bounds := sides n mem
          exact ⟨page_ne (by omega), page_ne (by omega)⟩
        rw [← left]
        have node : NodePage (nodeBuild [k] [l.no, rgt.no] 0 1) [k] [l.no, rgt.no] :=
          NodePage.build (Nat.zero_le 1) (Nat.le_refl 1) rfl kids_small (by decide)
        refine ⟨⟨⟨?_, ?_, ?_, ?_⟩, ?_, ?_, ?_, wf⟩, pins, ?_⟩
        · simp [grown.tail.tree, Tree.no]
        · simp
        · intro n le
          have not_root : (⟨fid, n⟩ : PageId) ≠ ⟨fid, hint₁⟩ := page_ne (by omega)
          have not_header : (⟨fid, n⟩ : PageId) ≠ ⟨fid, 0⟩ := page_ne (by omega)
          simp [not_root, not_header, grown.tail.zero n (by omega)]
        · simp [grown.tail.logged]
        · simp only [PoolView.setPage_pages, Function.update_self, Function.update_of_ne header_ne,
            header_kept]
          exact pageValid_setFileRoot _ (magic_of_pageValid file.header)
        · simp only [PoolView.setPage_pages, Function.update_self]
          exact fileRoot_setFileRoot _ (by omega)
        · apply holds_node node
          · simp only [PoolView.setPage_pages, Function.update_of_ne header_ne.symm,
              Function.update_self, grown.tail.tree, left]
          · have children : HoldsKids (Holds (fun n => s₁.pages ⟨fid, n⟩) d) (Tree.firstLeaf d) 0
                (BPlus.kids l [(k, rgt)]) := ⟨l_held, rgt_held, trivial⟩
            apply children.frame
            intro n mem
            have others := kept n (by simpa [BPlus.kids] using mem)
            simp [others.1, others.2]
        · intro pid other
          have not_root : pid ≠ ⟨fid, hint₁⟩ := fun same => other (congrArg PageId.fileId same)
          have not_header : pid ≠ ⟨fid, 0⟩ := fun same => other (congrArg PageId.fileId same)
          simp [not_root, not_header, grown.others pid other]

theorem insert_spec {t : AnyTree} {e : BTreeEntry} (file : TreeFile s fid hint t)
    (room : s.pins.length + t.1 + 1 < frames) (levels : t.1 < recursionBound)
    (small : (BPlus.insert 214 hint e t).2 < 2 ^ 32) (new : e ∉ t.2.entries) :
    Prog.Returns (PoolView.sem frames) (BTree.insert fid e) s fun _ s' =>
      TreeFile s' fid (BPlus.insert 214 hint e t).2 (BPlus.insert 214 hint e t).1 ∧
        s'.pins = s.pins ∧ ∀ pid : PageId, pid.fileId ≠ fid → s'.pages pid = s.pages pid := by
  exact PoolView.returns_of_strict (insert_strict (PoolView.owns_anyPage fid) file room levels small new)

/-! ## Runs of insertions -/

/-- The height of a tree of fewer than 2^32 entries. -/
theorem height_le {t : AnyTree} (wf : BPlus.Wf 214 1 hint t)
    (few : t.2.entries.length < 2 ^ 32) : t.1 ≤ 4 := by
  rcases t with ⟨d, t⟩
  rcases d with _ | d
  · exact Nat.zero_le 4
  · have pow_le := wf.pow_le
    by_contra high
    have four : 4 ≤ d := by
      simp only at high
      omega
    have grows : (214 / 2 + 1) ^ 4 ≤ (214 / 2 + 1) ^ d := Nat.pow_le_pow_right (by decide) four
    simp only at few
    omega

/-- From page `n` on, the chain visits the pages listed and goes on to `stop`. -/
def ChainTo (pages : Nat → Page) (stop : Nat) : Nat → List Nat → Prop
  | n, [] => n = stop
  | n, m :: rest => n = m ∧ ChainTo pages stop (pages m).nextPage rest

theorem ChainTo.append {pages : Nat → Page} {stop middle : Nat} {before after : List Nat}
    {n : Nat} (first : ChainTo pages middle n before) (second : ChainTo pages stop middle after) :
    ChainTo pages stop n (before ++ after) := by
  induction before generalizing n with
  | nil =>
      obtain rfl : n = middle := first
      exact second
  | cons m before ih => exact ⟨first.1, ih first.2⟩

theorem leaves_succ {d : Nat} (t : Tree BTreeEntry (d + 1)) :
    t.leaves = (BPlus.kids (Node.first t) (Node.rest t)).flatMap (Tree.leaves d) := by
  simp [Tree.leaves, BPlus.kids, List.flatMap_map]

/-- The chain of a held tree visits its leaves in order. -/
theorem Holds.chain {pages : Nat → Page} {d next : Nat} {t : Tree BTreeEntry d}
    (held : Holds pages d next t) :
    ChainTo pages next t.firstLeaf (t.leaves.map fun leaf => leaf.no) := by
  induction d generalizing next with
  | zero => exact ⟨rfl, held.2.2⟩
  | succ d ih =>
      rw [leaves_succ]
      change ChainTo pages next (headLeaf (Tree.firstLeaf d) next
        (BPlus.kids (Node.first t) (Node.rest t))) _
      have children := held.2.2
      generalize BPlus.kids (Node.first t) (Node.rest t) = kids at children ⊢
      induction kids with
      | nil => rfl
      | cons c kids rest =>
          rw [List.flatMap_cons, List.map_append]
          exact (ih children.1).append (rest children.2)

/-- What a tree file is, page by page: its tree is ordered and all its separators
cut, the pages lay it out, the chain visits its leaves in order and ends, page 0
names the root, and the entries are `es`. -/
structure TreeInvariant (s : PoolView) (fid : Nat) (es : List BTreeEntry) (t : AnyTree) :
    Prop where
  cuts : BPlus.Cuts t.1 t.2
  leaves : ∀ leaf ∈ t.2.leaves, leaf.entries.Pairwise (· < ·)
  layout : Holds (fun n => s.pages ⟨fid, n⟩) t.1 0 t.2
  chain : ChainTo (fun n => s.pages ⟨fid, n⟩) 0 t.2.firstLeaf (t.2.leaves.map fun leaf => leaf.no)
  names : t.2.names.Nodup ∧ ∀ n ∈ t.2.names, n ≠ 0
  header : pageValid (s.pages ⟨fid, 0⟩) magicFileHeader = true
  root : fileRoot (s.pages ⟨fid, 0⟩) = t.2.no ∧ (s.trees fid).rootPage = t.2.no
  entries : t.2.entries.Perm es

theorem TreeFile.invariant {t : AnyTree} {es : List BTreeEntry} (file : TreeFile s fid hint t)
    (perm : t.2.entries.Perm es) : TreeInvariant s fid es t where
  cuts := file.wf.ordered.cuts
  leaves := file.wf.ordered.leaves_sorted
  layout := file.held
  chain := file.held.chain
  names := by
    refine ⟨file.wf.names.nodup_iff.mpr List.nodup_range', fun n mem => ?_⟩
    have := file.names_bounds n mem
    omega
  header := file.header
  root := ⟨file.root, by rw [file.tail.tree]⟩
  entries := perm

/-- Creation and any run of insertions of distinct entries succeed, and leave a
tree of exactly these entries. -/
theorem insertAll_keeps_invariant (frames : Nat) (enough : 16 ≤ frames) (s : PoolView) (fid : Nat)
    (fresh : FreshFile s fid) (unpinned : s.pins = []) (es : List BTreeEntry)
    (distinct : es.Nodup) (few : es.length < 2 ^ 32) :
    Prog.Returns (PoolView.sem frames) (do BTree.create fid; es.forM (BTree.insert fid)) s
      fun _ s' => ∃ t, TreeInvariant s' fid es t := by
  apply Prog.Returns.bind
  refine (create_spec fresh (by rw [unpinned, List.length_nil]; omega)).mono ?_
  rintro _ s₀ ⟨created, pins₀⟩
  refine (Prog.Returns.forM (fun done s' => ∃ hint t, TreeFile s' fid hint t ∧
    t.2.entries.Perm done ∧ s'.pins = []) es ?_ ?_).mono ?_
  · rintro before e after s₁ rfl ⟨hint, t, file, perm, pins⟩
    have new : e ∉ t.2.entries := by
      intro mem
      have apart := (List.nodup_append.mp distinct).2.2 e (perm.mem_iff.mp mem) e
        (List.mem_cons_self ..)
      exact apart rfl
    rcases file.wf.insert (by decide) new with ⟨wf', perm'⟩
    have shorter : before.length + 1 ≤ (before ++ e :: after).length := by simp
    have count := perm.length_eq
    have count' := perm'.length_eq
    rw [List.length_cons] at count'
    have height := height_le file.wf (by omega)
    have pages := wf'.next_le (by decide)
    have depth : s₁.pins.length + t.1 + 1 < frames := by
      rw [pins, List.length_nil]
      omega
    have levels : t.1 < recursionBound := by
      unfold recursionBound
      omega
    refine (insert_spec file depth levels (by omega) new).mono ?_
    rintro _ s₂ ⟨file', pins', -⟩
    refine ⟨_, _, file', ?_, pins'.trans pins⟩
    exact perm'.trans ((perm.cons e).trans (List.perm_append_singleton e before).symm)
  · exact ⟨2, _, created, List.Perm.refl [], pins₀.trans unpinned⟩
  · rintro _ s' ⟨hint, t, file, perm, -⟩
    exact ⟨t, file.invariant perm⟩

/-- Three entries, one of them with the NULL key, over a pool of 16 frames. -/
theorem insertAll_keeps_invariant_three :
    Prog.Returns (PoolView.sem 16)
      (do
        BTree.create 7
        [⟨⟨5, false⟩, 1, 0⟩, ⟨⟨0, true⟩, 1, 1⟩, ⟨⟨5, false⟩, 2, 0⟩].forM (BTree.insert 7))
      ⟨fun _ => Block.zero, fun _ => 0, [], [], fun _ => {}⟩
      fun _ s' => ∃ t, TreeInvariant s' 7
        [⟨⟨5, false⟩, 1, 0⟩, ⟨⟨0, true⟩, 1, 1⟩, ⟨⟨5, false⟩, 2, 0⟩] t :=
  insertAll_keeps_invariant 16 (by decide) _ 7 ⟨rfl, fun _ => rfl, rfl⟩ rfl _ (by decide)
    (by decide)

end MySimpleDb.Storage