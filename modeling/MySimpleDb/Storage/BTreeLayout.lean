import MySimpleDb.Storage.BTreePage
import Mathlib.Data.List.GetD
import Mathlib.Data.List.InsertIdx

/-!
# What tree pages hold

`LeafPage` and `NodePage` say that the bytes of a page lay out given entries,
or given separators and children, with nothing overlapping and all of it inside
the page.  Building, inserting and searching are stated against them.
-/

namespace MySimpleDb.Storage

open MySimpleDb.Lib

/-! ## Reading cells -/

/-- The entry in a cell depends on the bytes of the cell alone. -/
theorem getEntry_of_read_eq {p q : Page} {off off' : Nat}
    (same : p.read off btreeCellSize = q.read off' btreeCellSize) :
    getEntry p off = getEntry q off' := by
  have field (at' width : Nat) (within : at' + width ≤ btreeCellSize) :
      p.num (off + at') width = q.num (off' + at') width := by
    rw [Block.num, Block.num, ← Block.take_drop_read p at' width within,
      ← Block.take_drop_read q at' width within, same]
  have val := field 0 8 (by decide)
  have null := field 8 1 (by decide)
  have page := field 9 4 (by decide)
  have slot := field 13 2 (by decide)
  simp only [Nat.add_zero] at val
  rw [getEntry, getEntry, val, null, page, slot]

theorem getEntry_setNum_of_apart (p : Page) {off off' width v : Nat}
    (apart : off + 15 ≤ off' ∨ off' + width ≤ off) :
    getEntry (p.setNum off' width v) off = getEntry p off :=
  getEntry_of_read_eq (Block.read_setNum_of_apart p apart)

theorem getEntry_move_of_apart (p : Page) {off dst src count : Nat}
    (apart : off + 15 ≤ dst ∨ dst + count ≤ off) :
    getEntry (p.move dst src count) off = getEntry p off :=
  getEntry_of_read_eq (Block.read_move_of_apart p apart)

theorem getEntry_move_within (p : Page) {dst src count : Nat} (at' : Nat)
    (fits : dst + count ≤ 4096) (within : at' + 15 ≤ count) :
    getEntry (p.move dst src count) (dst + at') = getEntry p (src + at') :=
  getEntry_of_read_eq (Block.read_move_within p at' fits within)

theorem num_putEntry_of_apart (p : Page) {off width off' : Nat} {e : BTreeEntry}
    (apart : off + width ≤ off' ∨ off' + 15 ≤ off) :
    (putEntry p off' e).num off width = p.num off width := by
  simp (disch := omega) only [putEntry, Block.num_setNum_of_apart]

theorem getEntry_putEntry_of_apart (p : Page) {off off' : Nat} {e : BTreeEntry}
    (apart : off + 15 ≤ off' ∨ off' + 15 ≤ off) :
    getEntry (putEntry p off' e) off = getEntry p off := by
  simp (disch := omega) only [putEntry, getEntry_setNum_of_apart]

@[simp]
theorem getEntry_putEntry_same (p : Page) {off : Nat} {e : BTreeEntry}
    (fits : off + 15 ≤ 4096) : getEntry (putEntry p off e) off = e := by
  rcases e with ⟨⟨val, null⟩, page, slot⟩
  have val_lt := val.toNat_lt
  have page_lt := page.toNat_lt
  have slot_lt := slot.toNat_lt
  have null_lt : (if null then 1 else 0) < 256 ^ 1 := by split <;> decide
  simp (disch := omega) only [getEntry, putEntry, Block.num_setNum_of_apart,
    Block.num_setNum_same]
  cases null <;> simp

/-! ## Leaves -/

/-- The page lays out the leaf entries `es`. -/
structure LeafPage (p : Page) (es : List BTreeEntry) : Prop where
  magic : p.magic = magicBTreeLeaf
  type : p.pageType = PageType.btreeLeaf.code
  count : p.slotCount = es.length
  freeBegin : p.freeBegin = 24 + 4 * es.length
  freeEnd : p.freeEnd + 15 * es.length = 4096
  fits : 24 + 19 * es.length ≤ 4096
  cell_begin : ∀ i, i < es.length → p.freeEnd ≤ leafSlotOff p i
  cell_end : ∀ i, i < es.length → leafSlotOff p i + 15 ≤ 4096
  cell_len : ∀ i, i < es.length → leafSlotLen p i = 15
  cells_apart : ∀ i j, i < es.length → j < es.length → i ≠ j →
    leafSlotOff p i + 15 ≤ leafSlotOff p j ∨ leafSlotOff p j + 15 ≤ leafSlotOff p i
  entry : ∀ i (h : i < es.length), leafEntry p i = es[i]

/-- An empty leaf. -/
theorem LeafPage.init : LeafPage (initPage magicBTreeLeaf .btreeLeaf) [] where
  magic := initPage_magic _ _ (by decide)
  type := initPage_pageType _ _
  count := initPage_slotCount _ _
  freeBegin := initPage_freeBegin _ _
  freeEnd := by rw [initPage_freeEnd, List.length_nil]
  fits := by simp
  cell_begin := by simp
  cell_end := by simp
  cell_len := by simp
  cells_apart := by simp
  entry := by simp

section LeafInsert

variable {p : Page} {es : List BTreeEntry} {pos : Nat}

/-- `leafInsertAt` with its frontiers read off the layout. -/
theorem LeafPage.insertAt_eq (leaf : LeafPage p es)
    (room : 24 + 19 * (es.length + 1) ≤ 4096) (e : BTreeEntry) :
    leafInsertAt p pos e =
      (((((putEntry
        ((p.move (24 + (pos + 1) * 4) (24 + pos * 4) ((es.length - pos) * 4)).setNum 12 2
          (p.freeEnd - 15)) (p.freeEnd - 15) e).setNum (24 + pos * 4) 2 (p.freeEnd - 15)).setNum
        (24 + pos * 4 + 2) 2 15).setNum 10 2 (24 + 4 * (es.length + 1))).setNum 8 2
        (es.length + 1)) := by
  have count := leaf.count
  have freeBegin := leaf.freeBegin
  have freeEnd := leaf.freeEnd
  simp only [Page.slotCount, Page.freeBegin, Page.freeEnd] at count freeBegin freeEnd
  have end_eq : toU16 ((p.num 12 2 : Nat) - (15 : Nat)) = p.num 12 2 - 15 := by
    unfold toU16
    omega
  have begin_eq : toU16 ((p.num 10 2 : Nat) + (4 : Nat)) = 24 + 4 * (es.length + 1) := by
    unfold toU16
    omega
  have count_eq : toU16 (es.length + 1) = es.length + 1 := by
    unfold toU16
    omega
  simp only [leafInsertAt, Page.setFreeEnd, Page.setFreeBegin, Page.setSlotCount, Page.slotCount,
    Page.freeEnd, Page.freeBegin, leafSlot, pageHeaderSize, slotSize, btreeCellSize, count,
    count_eq]
  have moved_end : Block.num (p.move (24 + (pos + 1) * 4) (24 + pos * 4)
      ((es.length - pos) * 4)) 12 2 = p.num 12 2 :=
    Block.num_move_of_apart p (by omega)
  have cell_lt : p.num 12 2 - 15 < 256 ^ 2 := by omega
  simp (disch := omega) only [moved_end, end_eq, Block.num_setNum_same,
    Block.num_setNum_of_apart, num_putEntry_of_apart, Block.num_move_of_apart, begin_eq]

/-- Header fields other than the counters stay. -/
theorem LeafPage.insertAt_header (leaf : LeafPage p es) (pos_le : pos ≤ es.length)
    (room : 24 + 19 * (es.length + 1) ≤ 4096) (e : BTreeEntry) (off width : Nat)
    (apart : off + width ≤ 8 ∨ (14 ≤ off ∧ off + width ≤ 24)) :
    (leafInsertAt p pos e).num off width = p.num off width := by
  have freeEnd := leaf.freeEnd
  rw [leaf.insertAt_eq room]
  simp (disch := omega) only [Block.num_setNum_of_apart, num_putEntry_of_apart,
    Block.num_move_of_apart]

/-- Slots before the new one stay. -/
theorem LeafPage.insertAt_slot_before (leaf : LeafPage p es) (pos_le : pos ≤ es.length)
    (room : 24 + 19 * (es.length + 1) ≤ 4096) (e : BTreeEntry) (at' : Nat) {i : Nat} (lt : i < pos)
    (within : at' + 2 ≤ 4) :
    (leafInsertAt p pos e).num (24 + i * 4 + at') 2 = p.num (24 + i * 4 + at') 2 := by
  have freeEnd := leaf.freeEnd
  rw [leaf.insertAt_eq room]
  simp (disch := omega) only [Block.num_setNum_of_apart, num_putEntry_of_apart,
    Block.num_move_of_apart]

/-- Slots from the new one on move up by one. -/
theorem LeafPage.insertAt_slot_after (leaf : LeafPage p es) (pos_le : pos ≤ es.length)
    (room : 24 + 19 * (es.length + 1) ≤ 4096) (e : BTreeEntry) (at' : Nat) {i : Nat} (le : pos ≤ i)
    (lt : i < es.length) (within : at' + 2 ≤ 4) :
    (leafInsertAt p pos e).num (24 + (i + 1) * 4 + at') 2 = p.num (24 + i * 4 + at') 2 := by
  have freeEnd := leaf.freeEnd
  rw [leaf.insertAt_eq room]
  simp (disch := omega) only [Block.num_setNum_of_apart, num_putEntry_of_apart]
  have dst : 24 + (i + 1) * 4 + at' = 24 + (pos + 1) * 4 + ((i - pos) * 4 + at') := by omega
  have src : 24 + i * 4 + at' = 24 + pos * 4 + ((i - pos) * 4 + at') := by omega
  rw [dst, src]
  exact Block.num_move_within p _ (by omega) (by omega)

/-- The new slot points to the new cell. -/
theorem LeafPage.insertAt_slot_new (leaf : LeafPage p es) (pos_le : pos ≤ es.length)
    (room : 24 + 19 * (es.length + 1) ≤ 4096) (e : BTreeEntry) :
    leafSlotOff (leafInsertAt p pos e) pos = p.freeEnd - 15 ∧
      leafSlotLen (leafInsertAt p pos e) pos = 15 ∧
      getEntry (leafInsertAt p pos e) (p.freeEnd - 15) = e := by
  have freeEnd := leaf.freeEnd
  have cell_lt : p.freeEnd - 15 < 256 ^ 2 := by omega
  rw [leaf.insertAt_eq room]
  simp only [leafSlotOff, leafSlotLen, leafSlot, pageHeaderSize, slotSize]
  refine ⟨?_, ?_, ?_⟩
  · simp (disch := omega) only [Block.num_setNum_of_apart, Block.num_setNum_same]
  · simp (disch := omega) only [Block.num_setNum_of_apart, Block.num_setNum_same]
  · simp (disch := omega) only [getEntry_setNum_of_apart, getEntry_putEntry_same]

/-- The cells in use stay. -/
theorem LeafPage.insertAt_cell (leaf : LeafPage p es) (pos_le : pos ≤ es.length)
    (room : 24 + 19 * (es.length + 1) ≤ 4096) (e : BTreeEntry) {off : Nat}
    (inUse : p.freeEnd ≤ off) :
    getEntry (leafInsertAt p pos e) off = getEntry p off := by
  have freeEnd := leaf.freeEnd
  rw [leaf.insertAt_eq room]
  simp (disch := omega) only [getEntry_setNum_of_apart, getEntry_putEntry_of_apart,
    getEntry_move_of_apart]

/-- Every slot after an insertion is the new one or one of the old ones. -/
theorem LeafPage.insertAt_slots (leaf : LeafPage p es) (pos_le : pos ≤ es.length)
    (room : 24 + 19 * (es.length + 1) ≤ 4096) (e : BTreeEntry) {i : Nat}
    (lt : i < es.length + 1) :
    (i = pos ∧ leafSlotOff (leafInsertAt p pos e) i = p.freeEnd - 15 ∧
      leafSlotLen (leafInsertAt p pos e) i = 15) ∨
    ∃ k, k < es.length ∧ i = (if k < pos then k else k + 1) ∧
      leafSlotOff (leafInsertAt p pos e) i = leafSlotOff p k ∧
      leafSlotLen (leafInsertAt p pos e) i = leafSlotLen p k := by
  rcases Nat.lt_trichotomy i pos with before | rfl | after
  · right
    refine ⟨i, by omega, by rw [if_pos before], ?_, ?_⟩
    · exact leaf.insertAt_slot_before pos_le room e 0 before (by omega)
    · exact leaf.insertAt_slot_before pos_le room e 2 before (by omega)
  · left
    have slot := leaf.insertAt_slot_new pos_le room e
    exact ⟨rfl, slot.1, slot.2.1⟩
  · right
    obtain ⟨k, rfl⟩ : ∃ k, i = k + 1 := ⟨i - 1, by omega⟩
    refine ⟨k, by omega, by rw [if_neg (by omega)], ?_, ?_⟩
    · exact leaf.insertAt_slot_after pos_le room e 0 (by omega) (by omega) (by omega)
    · exact leaf.insertAt_slot_after pos_le room e 2 (by omega) (by omega) (by omega)

/-- Inserting at a slot inserts the entry at that index. -/
theorem LeafPage.insertAt (leaf : LeafPage p es) (pos_le : pos ≤ es.length)
    (room : 24 + 19 * (es.length + 1) ≤ 4096) (e : BTreeEntry) :
    LeafPage (leafInsertAt p pos e) (es.insertIdx pos e) := by
  have freeEnd := leaf.freeEnd
  have len : (es.insertIdx pos e).length = es.length + 1 :=
    List.length_insertIdx_of_le_length pos_le e
  have slots := fun i => leaf.insertAt_slots pos_le room e (i := i)
  have new_end : (leafInsertAt p pos e).freeEnd = p.freeEnd - 15 := by
    have small : p.freeEnd - 15 < 256 ^ 2 := by omega
    rw [leaf.insertAt_eq room, Page.freeEnd]
    simp (disch := omega) only [Block.num_setNum_of_apart, num_putEntry_of_apart,
      Block.num_setNum_same]
  constructor
  case magic => exact (leaf.insertAt_header pos_le room e _ _ (by omega)).trans leaf.magic
  case type => exact (leaf.insertAt_header pos_le room e _ _ (by omega)).trans leaf.type
  case count =>
    rw [len, leaf.insertAt_eq room, Page.slotCount]
    simp (disch := omega) only [Block.num_setNum_same]
  case freeBegin =>
    rw [len, leaf.insertAt_eq room, Page.freeBegin]
    simp (disch := omega) only [Block.num_setNum_of_apart, Block.num_setNum_same]
  case freeEnd =>
    rw [len, new_end]
    omega
  case fits => omega
  case cell_begin =>
    intro i lt
    rw [new_end]
    rcases slots i (len ▸ lt) with ⟨-, off, -⟩ | ⟨k, lt_k, -, off, -⟩
    · rw [off]
    · rw [off]
      have := leaf.cell_begin k lt_k
      omega
  case cell_end =>
    intro i lt
    rcases slots i (len ▸ lt) with ⟨-, off, -⟩ | ⟨k, lt_k, -, off, -⟩
    · rw [off]
      omega
    · rw [off]
      exact leaf.cell_end k lt_k
  case cell_len =>
    intro i lt
    rcases slots i (len ▸ lt) with ⟨-, -, slotLen⟩ | ⟨k, lt_k, -, -, slotLen⟩
    · exact slotLen
    · rw [slotLen]
      exact leaf.cell_len k lt_k
  case cells_apart =>
    intro i j lt_i lt_j ne
    rcases slots i (len ▸ lt_i) with ⟨at_i, off_i, -⟩ | ⟨k, lt_k, at_i, off_i, -⟩ <;>
      rcases slots j (len ▸ lt_j) with ⟨at_j, off_j, -⟩ | ⟨l, lt_l, at_j, off_j, -⟩
    · omega
    · have := leaf.cell_begin l lt_l
      omega
    · have := leaf.cell_begin k lt_k
      omega
    · rw [off_i, off_j]
      apply leaf.cells_apart k l lt_k lt_l
      rintro rfl
      omega
  case entry =>
    intro i lt
    rcases slots i (len ▸ lt) with ⟨rfl, off, -⟩ | ⟨k, lt_k, at_i, off, -⟩
    · rw [leafEntry, off, (leaf.insertAt_slot_new pos_le room e).2.2,
        List.getElem_insertIdx_self]
    · rw [leafEntry, off, leaf.insertAt_cell pos_le room e (leaf.cell_begin k lt_k)]
      have old : getEntry p (leafSlotOff p k) = es[k] := leaf.entry k lt_k
      rw [old]
      by_cases before : k < pos
      · rw [if_pos before] at at_i
        subst at_i
        rw [List.getElem_insertIdx_of_lt before]
      · rw [if_neg before] at at_i
        subst at_i
        rw [List.getElem_insertIdx_of_gt (by omega)]
        rfl

end LeafInsert

/-- The chain and checksum fields are no part of the layout. -/
theorem LeafPage.setNum {p : Page} {es : List BTreeEntry} (leaf : LeafPage p es)
    {off width : Nat} (v : Nat) (from_le : 16 ≤ off) (to_le : off + width ≤ 24) :
    LeafPage (p.setNum off width v) es := by
  have freeEnd := leaf.freeEnd
  have header {off' width' : Nat} (apart : off' + width' ≤ 16 ∨ 24 ≤ off') :
      (p.setNum off width v).num off' width' = p.num off' width' :=
    Block.num_setNum_of_apart p (by omega)
  have slotOff (i : Nat) : leafSlotOff (p.setNum off width v) i = leafSlotOff p i :=
    header (by simp only [leafSlot, pageHeaderSize, slotSize]; omega)
  have slotLen (i : Nat) : leafSlotLen (p.setNum off width v) i = leafSlotLen p i :=
    header (by simp only [leafSlot, pageHeaderSize, slotSize]; omega)
  have new_end : Page.freeEnd (p.setNum off width v) = p.freeEnd := header (by omega)
  constructor
  case magic => exact (header (by omega)).trans leaf.magic
  case type => exact (header (by omega)).trans leaf.type
  case count => exact (header (by omega)).trans leaf.count
  case freeBegin => exact (header (by omega)).trans leaf.freeBegin
  case freeEnd => rw [new_end, freeEnd]
  case fits => exact leaf.fits
  case cell_begin =>
    intro i lt
    rw [new_end, slotOff]
    exact leaf.cell_begin i lt
  case cell_end =>
    intro i lt
    rw [slotOff]
    exact leaf.cell_end i lt
  case cell_len =>
    intro i lt
    rw [slotLen]
    exact leaf.cell_len i lt
  case cells_apart =>
    intro i j lt_i lt_j ne
    rw [slotOff, slotOff]
    exact leaf.cells_apart i j lt_i lt_j ne
  case entry =>
    intro i lt
    have begins := leaf.cell_begin i lt
    have fits := leaf.fits
    rw [leafEntry, slotOff, getEntry_setNum_of_apart p (by omega)]
    exact leaf.entry i lt

theorem LeafPage.seal {p : Page} {es : List BTreeEntry} (leaf : LeafPage p es) :
    LeafPage p.seal es :=
  leaf.setNum _ (by omega) (by omega)

theorem LeafPage.setNextPage {p : Page} {es : List BTreeEntry} (leaf : LeafPage p es)
    (next : Nat) : LeafPage (p.setNextPage next) es :=
  leaf.setNum _ (by omega) (by omega)

/-- A built leaf holds the entries of its range, and nothing follows it. -/
theorem LeafPage.build (entries : List BTreeEntry) {lo hi : Nat} (le : lo ≤ hi)
    (hi_le : hi ≤ entries.length) (room : 24 + 19 * (hi - lo) ≤ 4096) :
    LeafPage (leafBuild entries lo hi) ((entries.drop lo).take (hi - lo)) ∧
      (leafBuild entries lo hi).nextPage = 0 := by
  obtain ⟨n, rfl⟩ : ∃ n, hi = lo + n := ⟨hi - lo, by omega⟩
  simp only [leafBuild, Nat.add_sub_cancel_left] at room ⊢
  clear le
  induction n with
  | zero => exact ⟨LeafPage.init, initPage_nextPage _ _⟩
  | succ n ih =>
      rcases ih (by omega) (by omega) with ⟨leaf, next⟩
      rw [List.range_succ, List.foldl_append, List.foldl_cons, List.foldl_nil]
      generalize (List.range n).foldl _ _ = built at leaf next ⊢
      have len : ((entries.drop lo).take n).length = n := by
        rw [List.length_take, List.length_drop]
        omega
      have inList : lo + n < entries.length := by omega
      have grown := leaf.insertAt (show n ≤ _ by omega) (by omega) (entries.getD (lo + n) {})
      have header := leaf.insertAt_header (show n ≤ _ by omega) (by omega)
        (entries.getD (lo + n) {}) 16 4 (by omega)
      constructor
      · have take_succ : (entries.drop lo).take (n + 1) =
            (entries.drop lo).take n ++ [entries.getD (lo + n) {}] := by
          rw [List.take_succ_eq_append_getElem (by rw [List.length_drop]; omega),
            List.getElem_drop, List.getD_eq_getElem _ _ inList]
        rw [take_succ]
        have appended := List.insertIdx_length_self (l := (entries.drop lo).take n)
          (x := entries.getD (lo + n) {})
        rw [len] at appended
        rwa [appended] at grown
      · rw [Page.nextPage, header]
        exact next

/-- The search finds the first entry at or above `e`. -/
theorem LeafPage.lowerBound {p : Page} {es : List BTreeEntry} (leaf : LeafPage p es)
    (sorted : es.Pairwise (· < ·)) (e : BTreeEntry) :
    leafLowerBound p e = (es.takeWhile (· < e)).length := by
  rw [leafLowerBound, leaf.count]
  apply bisect_takeWhile
  · intro i lt
    rw [leaf.entry i lt]
    exact decide_eq_decide.mpr BTreeEntry.entryCmp_neg_iff
  · apply sorted.imp
    intro a b lt below
    exact decide_eq_true (lt_trans lt (of_decide_eq_true below))

/-! ## Internal nodes -/

/-- The page lays out the separators `seps` and the child numbers `kids`. -/
structure NodePage (p : Page) (seps : List BTreeEntry) (kids : List Nat) : Prop where
  magic : p.magic = magicBTreeLeaf
  type : p.pageType = PageType.btreeInternal.code
  count : p.slotCount = seps.length
  kids_length : kids.length = seps.length + 1
  freeBegin : p.freeBegin = 24 + 15 * seps.length
  freeEnd : p.freeEnd + 4 * (seps.length + 1) = 4096
  fits : 24 + 15 * seps.length + 4 * (seps.length + 1) ≤ 4096
  sep : ∀ i (h : i < seps.length), nodeSep p i = seps[i]
  child : ∀ j (h : j < kids.length), nodeChild p j = kids[j]

section NodeInsert

variable {p : Page} {seps : List BTreeEntry} {kids : List Nat} {i : Nat}

/-- `nodeInsertAt` with its frontiers read off the layout. -/
theorem NodePage.insertAt_eq (node : NodePage p seps kids) (i_le : i ≤ seps.length)
    (room : 24 + 15 * (seps.length + 1) + 4 * (seps.length + 2) ≤ 4096) (sep : BTreeEntry)
    (right : Nat) :
    nodeInsertAt p i sep right =
      ((((putEntry
        ((p.move (24 + (i + 1) * 15) (24 + i * 15) ((seps.length - i) * 15)).move
          (4096 - (seps.length + 2) * 4) (4096 - (seps.length + 1) * 4)
          ((seps.length - i) * 4)) (24 + i * 15) sep).setNum (4096 - (i + 2) * 4) 4
        right).setNum 10 2 (24 + 15 * (seps.length + 1))).setNum 12 2 (p.freeEnd - 4)).setNum
        8 2 (seps.length + 1) := by
  have count := node.count
  have freeBegin := node.freeBegin
  have freeEnd := node.freeEnd
  simp only [Page.slotCount, Page.freeBegin, Page.freeEnd] at count freeBegin freeEnd
  have end_eq : toU16 ((p.num 12 2 : Nat) - (4 : Int)) = p.num 12 2 - 4 := by
    unfold toU16
    omega
  have begin_eq : toU16 ((p.num 10 2 : Nat) + (15 : Nat)) = 24 + 15 * (seps.length + 1) := by
    unfold toU16
    omega
  have count_eq : toU16 (seps.length + 1) = seps.length + 1 := by
    unfold toU16
    omega
  simp only [nodeInsertAt, setNodeSep, setNodeChild, nodeSepOff, nodeChildOff,
    Page.setFreeEnd, Page.setFreeBegin, Page.setSlotCount, Page.slotCount, Page.freeEnd,
    Page.freeBegin, pageHeaderSize, pageSize, btreeCellSize, count, count_eq]
  simp (disch := omega) only [Block.num_setNum_of_apart, num_putEntry_of_apart,
    Block.num_move_of_apart, begin_eq, end_eq]

/-- Header fields other than the counters stay. -/
theorem NodePage.insertAt_header (node : NodePage p seps kids) (i_le : i ≤ seps.length)
    (room : 24 + 15 * (seps.length + 1) + 4 * (seps.length + 2) ≤ 4096) (sep : BTreeEntry)
    (right : Nat) {off width : Nat} (apart : off + width ≤ 8) :
    (nodeInsertAt p i sep right).num off width = p.num off width := by
  rw [node.insertAt_eq i_le room]
  simp (disch := omega) only [Block.num_setNum_of_apart, num_putEntry_of_apart,
    Block.num_move_of_apart]

theorem nodeSep_eq (p : Page) (k : Nat) : nodeSep p k = getEntry p (24 + k * 15) :=
  rfl

theorem nodeChild_eq (p : Page) (j : Nat) : nodeChild p j = p.num (4096 - (j + 1) * 4) 4 :=
  rfl

theorem NodePage.insertAt_sep (node : NodePage p seps kids) (i_le : i ≤ seps.length)
    (room : 24 + 15 * (seps.length + 1) + 4 * (seps.length + 2) ≤ 4096) (sep : BTreeEntry)
    (right : Nat) {k : Nat} (lt : k < (seps.insertIdx i sep).length) :
    nodeSep (nodeInsertAt p i sep right) k = (seps.insertIdx i sep)[k] := by
  have len : (seps.insertIdx i sep).length = seps.length + 1 :=
    List.length_insertIdx_of_le_length i_le sep
  rw [nodeSep_eq, node.insertAt_eq i_le room]
  rcases Nat.lt_trichotomy k i with before | rfl | after
  · have old : getEntry p (24 + k * 15) = seps[k] := node.sep k (by omega)
    simp (disch := omega) only [getEntry_setNum_of_apart, getEntry_putEntry_of_apart,
      getEntry_move_of_apart, List.getElem_insertIdx_of_lt before, old]
  · simp (disch := omega) only [getEntry_setNum_of_apart, getEntry_putEntry_same,
      List.getElem_insertIdx_self]
  · obtain ⟨k, rfl⟩ : ∃ l, k = l + 1 := ⟨k - 1, by omega⟩
    have old : getEntry p (24 + k * 15) = seps[k] := node.sep k (by omega)
    have moved : getEntry (p.move (24 + (i + 1) * 15) (24 + i * 15) ((seps.length - i) * 15))
        (24 + (i + 1) * 15 + (k - i) * 15) = getEntry p (24 + i * 15 + (k - i) * 15) :=
      getEntry_move_within p _ (by omega) (by omega)
    have dst : 24 + (i + 1) * 15 + (k - i) * 15 = 24 + (k + 1) * 15 := by omega
    have src : 24 + i * 15 + (k - i) * 15 = 24 + k * 15 := by omega
    rw [dst, src, old] at moved
    simp (disch := omega) only [getEntry_setNum_of_apart, getEntry_putEntry_of_apart,
      getEntry_move_of_apart, List.getElem_insertIdx_of_gt, moved, Nat.add_sub_cancel]

theorem NodePage.insertAt_child (node : NodePage p seps kids) (i_le : i ≤ seps.length)
    (room : 24 + 15 * (seps.length + 1) + 4 * (seps.length + 2) ≤ 4096) (sep : BTreeEntry)
    {right : Nat} (right_lt : right < 256 ^ 4) {j : Nat}
    (lt : j < (kids.insertIdx (i + 1) right).length) :
    nodeChild (nodeInsertAt p i sep right) j = (kids.insertIdx (i + 1) right)[j] := by
  have kids_length := node.kids_length
  have len : (kids.insertIdx (i + 1) right).length = kids.length + 1 :=
    List.length_insertIdx_of_le_length (by omega) right
  rw [nodeChild_eq, node.insertAt_eq i_le room]
  rcases Nat.lt_trichotomy j (i + 1) with before | rfl | after
  · have old : p.num (4096 - (j + 1) * 4) 4 = kids[j] := node.child j (by omega)
    simp (disch := omega) only [Block.num_setNum_of_apart, num_putEntry_of_apart,
      Block.num_move_of_apart, List.getElem_insertIdx_of_lt before, old]
  · simp (disch := omega) only [Block.num_setNum_of_apart, Block.num_setNum_same,
      List.getElem_insertIdx_self]
  · obtain ⟨k, rfl⟩ : ∃ l, j = l + 1 := ⟨j - 1, by omega⟩
    have old : p.num (4096 - (k + 1) * 4) 4 = kids[k] := node.child k (by omega)
    have moved : Block.num
        ((p.move (24 + (i + 1) * 15) (24 + i * 15) ((seps.length - i) * 15)).move
          (4096 - (seps.length + 2) * 4) (4096 - (seps.length + 1) * 4) ((seps.length - i) * 4))
        (4096 - (seps.length + 2) * 4 + (seps.length - k) * 4) 4 =
        Block.num (p.move (24 + (i + 1) * 15) (24 + i * 15) ((seps.length - i) * 15))
          (4096 - (seps.length + 1) * 4 + (seps.length - k) * 4) 4 :=
      Block.num_move_within _ _ (by omega) (by omega)
    have dst : 4096 - (seps.length + 2) * 4 + (seps.length - k) * 4 = 4096 - (k + 1 + 1) * 4 := by
      omega
    have src : 4096 - (seps.length + 1) * 4 + (seps.length - k) * 4 = 4096 - (k + 1) * 4 := by
      omega
    rw [dst, src, Block.num_move_of_apart p (by omega), old] at moved
    simp (disch := omega) only [Block.num_setNum_of_apart, num_putEntry_of_apart,
      List.getElem_insertIdx_of_gt, moved, Nat.add_sub_cancel]

/-- Inserting at `i` inserts the separator there and the child after it. -/
theorem NodePage.insertAt (node : NodePage p seps kids) (i_le : i ≤ seps.length)
    (room : 24 + 15 * (seps.length + 1) + 4 * (seps.length + 2) ≤ 4096) (sep : BTreeEntry)
    {right : Nat} (right_lt : right < 256 ^ 4) :
    NodePage (nodeInsertAt p i sep right) (seps.insertIdx i sep)
      (kids.insertIdx (i + 1) right) := by
  have freeEnd := node.freeEnd
  have kids_length := node.kids_length
  have len : (seps.insertIdx i sep).length = seps.length + 1 :=
    List.length_insertIdx_of_le_length i_le sep
  have kids_len : (kids.insertIdx (i + 1) right).length = kids.length + 1 :=
    List.length_insertIdx_of_le_length (by omega) right
  constructor
  case magic => exact (node.insertAt_header i_le room sep right (by omega)).trans node.magic
  case type => exact (node.insertAt_header i_le room sep right (by omega)).trans node.type
  case count =>
    rw [len, node.insertAt_eq i_le room, Page.slotCount]
    simp (disch := omega) only [Block.num_setNum_same]
  case kids_length => omega
  case freeBegin =>
    rw [len, node.insertAt_eq i_le room, Page.freeBegin]
    simp (disch := omega) only [Block.num_setNum_of_apart, Block.num_setNum_same]
  case freeEnd =>
    have small : p.freeEnd - 4 < 256 ^ 2 := by omega
    rw [len, node.insertAt_eq i_le room, Page.freeEnd]
    simp (disch := omega) only [Block.num_setNum_of_apart, Block.num_setNum_same]
    omega
  case fits => omega
  case sep => exact fun k lt => node.insertAt_sep i_le room sep right lt
  case child => exact fun j lt => node.insertAt_child i_le room sep right_lt lt

end NodeInsert

/-- The checksum field is no part of the layout. -/
theorem NodePage.seal {p : Page} {seps : List BTreeEntry} {kids : List Nat}
    (node : NodePage p seps kids) : NodePage p.seal seps kids := by
  have fits := node.fits
  have kids_length := node.kids_length
  have header {off width : Nat} (apart : off + width ≤ 20 ∨ 24 ≤ off) :
      p.seal.num off width = p.num off width :=
    Page.num_seal p apart
  constructor
  case magic => exact (header (by omega)).trans node.magic
  case type => exact (header (by omega)).trans node.type
  case count => exact (header (by omega)).trans node.count
  case kids_length => exact kids_length
  case freeBegin => exact (header (by omega)).trans node.freeBegin
  case freeEnd =>
    have same : p.seal.freeEnd = p.freeEnd := header (by omega)
    rw [same, node.freeEnd]
  case fits => exact fits
  case sep =>
    intro i lt
    have same : nodeSep p.seal i = nodeSep p i :=
      getEntry_setNum_of_apart p (by simp only [nodeSepOff, pageHeaderSize, btreeCellSize]; omega)
    rw [same, node.sep i lt]
  case child =>
    intro j lt
    have same : nodeChild p.seal j = nodeChild p j :=
      header (by simp only [nodeChildOff, pageSize]; omega)
    rw [same, node.child j lt]

section NodeBuild

variable {seps : List BTreeEntry} {kids : List Nat} {lo hi : Nat}

/-- The page the loop of `nodeBuild` leaves after `n` turns. -/
def nodeFill (seps : List BTreeEntry) (kids : List Nat) (lo n : Nat) : Page :=
  (List.range n).foldl
    (fun p i =>
      setNodeChild (setNodeSep p i (seps.getD (lo + i) {})) i (kids.getD (lo + i) 0))
    (initPage magicBTreeLeaf .btreeInternal)

theorem nodeFill_succ (n : Nat) :
    nodeFill seps kids lo (n + 1) =
      setNodeChild (setNodeSep (nodeFill seps kids lo n) n (seps.getD (lo + n) {})) n
        (kids.getD (lo + n) 0) := by
  rw [nodeFill, List.range_succ, List.foldl_append, List.foldl_cons, List.foldl_nil, nodeFill]

theorem nodeFill_header {n : Nat} (room : 24 + 15 * n + 4 * (n + 1) ≤ 4096) {off width : Nat}
    (header : off + width ≤ 24) :
    (nodeFill seps kids lo n).num off width =
      (initPage magicBTreeLeaf .btreeInternal).num off width := by
  induction n with
  | zero => rfl
  | succ n ih =>
      rw [nodeFill_succ, setNodeChild, setNodeSep, nodeSepOff, nodeChildOff]
      simp (disch := omega) only [Block.num_setNum_of_apart, num_putEntry_of_apart,
        pageHeaderSize, pageSize, btreeCellSize]
      exact ih (by omega)

theorem nodeFill_sep {n : Nat} (room : 24 + 15 * n + 4 * (n + 1) ≤ 4096) {k : Nat} (lt : k < n) :
    nodeSep (nodeFill seps kids lo n) k = seps.getD (lo + k) {} := by
  induction n with
  | zero => omega
  | succ n ih =>
      rw [nodeFill_succ, setNodeChild, setNodeSep, nodeSepOff, nodeChildOff, nodeSep_eq]
      rcases Nat.lt_or_eq_of_le (Nat.le_of_lt_succ lt) with earlier | rfl
      · simp (disch := omega) only [getEntry_setNum_of_apart, getEntry_putEntry_of_apart,
          pageHeaderSize, pageSize, btreeCellSize]
        exact ih (by omega) earlier
      · simp (disch := omega) only [getEntry_setNum_of_apart, getEntry_putEntry_same,
          pageHeaderSize, pageSize, btreeCellSize]

theorem nodeFill_child {n : Nat} (room : 24 + 15 * n + 4 * (n + 1) ≤ 4096)
    (small : ∀ k ∈ kids, k < 256 ^ 4) {k : Nat} (lt : k < n) (inKids : lo + k < kids.length) :
    nodeChild (nodeFill seps kids lo n) k = kids[lo + k] := by
  induction n with
  | zero => omega
  | succ n ih =>
      rw [nodeFill_succ, setNodeChild, setNodeSep, nodeSepOff, nodeChildOff, nodeChild_eq]
      rcases Nat.lt_or_eq_of_le (Nat.le_of_lt_succ lt) with earlier | rfl
      · simp (disch := omega) only [Block.num_setNum_of_apart, num_putEntry_of_apart,
          pageHeaderSize, pageSize, btreeCellSize]
        exact ih (by omega) earlier
      · have kid_lt : kids.getD (lo + k) 0 < 256 ^ 4 := by
          rw [List.getD_eq_getElem _ _ inKids]
          exact small _ (List.getElem_mem inKids)
        simp (disch := omega) only [Block.num_setNum_same, pageSize]
        rw [List.getD_eq_getElem _ _ inKids]

/-- A built node holds the separators and the children of its range. -/
theorem NodePage.build (le : lo ≤ hi) (hi_le : hi ≤ seps.length)
    (kids_length : kids.length = seps.length + 1) (small : ∀ k ∈ kids, k < 256 ^ 4)
    (room : 24 + 15 * (hi - lo) + 4 * (hi - lo + 1) ≤ 4096) :
    NodePage (nodeBuild seps kids lo hi) ((seps.drop lo).take (hi - lo))
      ((kids.drop lo).take (hi - lo + 1)) := by
  obtain ⟨n, rfl⟩ : ∃ n, hi = lo + n := ⟨hi - lo, by omega⟩
  simp only [Nat.add_sub_cancel_left] at room ⊢
  have len : ((seps.drop lo).take n).length = n := by
    rw [List.length_take, List.length_drop]
    omega
  have kids_len : ((kids.drop lo).take (n + 1)).length = n + 1 := by
    rw [List.length_take, List.length_drop]
    omega
  have begin_eq : toU16 (24 + ((lo : Int) + n - lo) * 15) = 24 + 15 * n := by
    unfold toU16
    omega
  have end_eq : toU16 (4096 - ((lo : Int) + n - lo + 1) * 4) = 4096 - 4 * (n + 1) := by
    unfold toU16
    omega
  have count_eq : toU16 ((lo : Int) + n - lo) = n := by
    unfold toU16
    omega
  have kid_lt : kids.getD (lo + n) 0 < 256 ^ 4 := by
    rw [List.getD_eq_getElem _ _ (by omega)]
    exact small _ (List.getElem_mem _)
  have built : nodeBuild seps kids lo (lo + n) =
      ((((nodeFill seps kids lo n).setNum (4096 - (n + 1) * 4) 4 (kids.getD (lo + n) 0)).setNum
        10 2 (24 + 15 * n)).setNum 12 2 (4096 - 4 * (n + 1))).setNum 8 2 n := by
    simp only [nodeBuild, Nat.add_sub_cancel_left, Page.setSlotCount, Page.setFreeBegin,
      Page.setFreeEnd, setNodeChild, nodeChildOff, nodeFill]
    push_cast
    rw [begin_eq, end_eq, count_eq]
  rw [built]
  constructor
  case magic =>
    rw [Page.magic]
    simp (disch := omega) only [Block.num_setNum_of_apart]
    exact (nodeFill_header room (by omega)).trans (initPage_magic _ _ (by decide))
  case type =>
    rw [Page.pageType]
    simp (disch := omega) only [Block.num_setNum_of_apart]
    exact (nodeFill_header room (by omega)).trans (initPage_pageType _ _)
  case count =>
    rw [Page.slotCount, len]
    simp (disch := omega) only [Block.num_setNum_same]
  case kids_length => omega
  case freeBegin =>
    rw [Page.freeBegin, len]
    simp (disch := omega) only [Block.num_setNum_of_apart, Block.num_setNum_same]
  case freeEnd =>
    rw [Page.freeEnd, len]
    simp (disch := omega) only [Block.num_setNum_of_apart, Block.num_setNum_same]
    omega
  case fits => omega
  case sep =>
    intro k lt
    rw [len] at lt
    rw [nodeSep_eq]
    simp (disch := omega) only [getEntry_setNum_of_apart]
    have filled : getEntry (nodeFill seps kids lo n) (24 + k * 15) = seps.getD (lo + k) {} :=
      nodeFill_sep room lt
    rw [filled, List.getElem_take, List.getElem_drop, List.getD_eq_getElem]
  case child =>
    intro k lt
    rw [kids_len] at lt
    rw [nodeChild_eq, List.getElem_take, List.getElem_drop]
    rcases Nat.lt_or_eq_of_le (Nat.le_of_lt_succ lt) with earlier | rfl
    · simp (disch := omega) only [Block.num_setNum_of_apart]
      exact nodeFill_child room small earlier (by omega)
    · simp (disch := omega) only [Block.num_setNum_of_apart, Block.num_setNum_same]
      rw [List.getD_eq_getElem]

/-- The search finds the first separator above `e`. -/
theorem NodePage.childIndex {p : Page} (node : NodePage p seps kids)
    (sorted : seps.Pairwise (· < ·)) (e : BTreeEntry) :
    nodeChildIndex p e = (seps.takeWhile (· ≤ e)).length := by
  rw [nodeChildIndex, node.count]
  apply bisect_takeWhile
  · intro i lt
    rw [node.sep i lt]
    exact decide_eq_decide.mpr BTreeEntry.entryCmp_nonpos_iff
  · apply sorted.imp
    intro a b lt below
    exact decide_eq_true (lt.le.trans (of_decide_eq_true below))

end NodeBuild

end MySimpleDb.Storage
