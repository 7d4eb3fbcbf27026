import MySimpleDb.Lib.Bisect
import MySimpleDb.Storage.IndexKey
import MySimpleDb.Storage.Page

/-!
# Pages of index trees

Leaves hold a slot directory that grows from the header on and cells that grow
from the page end back; internal nodes hold separators from the header on and
child numbers from the page end back.
-/

namespace MySimpleDb.Storage

open MySimpleDb.Lib

/-- Entry of a leaf: encoded key and physical row location. -/
structure BTreeEntry where
  key : IndexKey := {}
  pageNo : UInt32 := 0
  slot : UInt16 := 0
deriving DecidableEq

abbrev btreeCellSize : Nat := 15

/-- Three-way comparison by key, then by row location. -/
def entryCmp (a b : BTreeEntry) : Int :=
  let c := keyCmp a.key b.key
  if c ≠ 0 then c
  else if a.pageNo ≠ b.pageNo then (if a.pageNo < b.pageNo then -1 else 1)
  else if a.slot ≠ b.slot then (if a.slot < b.slot then -1 else 1)
  else 0

/-! ## Cells -/

/-- The entry in the cell at `off`. -/
def getEntry (p : Page) (off : Nat) : BTreeEntry where
  key := ⟨UInt64.ofNat (p.num off 8), p.num (off + 8) 1 ≠ 0⟩
  pageNo := UInt32.ofNat (p.num (off + 9) 4)
  slot := UInt16.ofNat (p.num (off + 13) 2)

/-- Write `e` into the cell at `off`. -/
def putEntry (p : Page) (off : Nat) (e : BTreeEntry) : Page :=
  let p : Page := p.setNum off 8 e.key.val.toNat
  let p : Page := p.setNum (off + 8) 1 (if e.key.null then 1 else 0)
  let p : Page := p.setNum (off + 9) 4 e.pageNo.toNat
  p.setNum (off + 13) 2 e.slot.toNat

/-! ## Leaves -/

/-- Offset of slot `i` of a leaf. -/
def leafSlot (i : Nat) : Nat := pageHeaderSize + i * slotSize

def leafSlotOff (p : Page) (i : Nat) : Nat := p.num (leafSlot i) 2
def leafSlotLen (p : Page) (i : Nat) : Nat := p.num (leafSlot i + 2) 2

def leafEntry (p : Page) (i : Nat) : BTreeEntry := getEntry p (leafSlotOff p i)

/-- Index of the first entry at or above `e`. -/
def leafLowerBound (p : Page) (e : BTreeEntry) : Nat :=
  bisect (fun mid => entryCmp (leafEntry p mid) e < 0) 0 p.slotCount

def leafInsertAt (p : Page) (pos : Nat) (e : BTreeEntry) : Page :=
  let n := p.slotCount
  let p : Page := p.move (leafSlot (pos + 1)) (leafSlot pos) ((n - pos) * slotSize)
  let p : Page := p.setFreeEnd (toU16 (p.freeEnd - btreeCellSize))
  let cell := p.freeEnd
  let p : Page := putEntry p cell e
  let p : Page := p.setNum (leafSlot pos) 2 cell
  let p : Page := p.setNum (leafSlot pos + 2) 2 btreeCellSize
  let p : Page := p.setFreeBegin (toU16 (p.freeBegin + slotSize))
  p.setSlotCount (toU16 (n + 1))

/-- A leaf of the entries `[lo, hi)`. -/
def leafBuild (entries : List BTreeEntry) (lo hi : Nat) : Page :=
  (List.range (hi - lo)).foldl (fun p i => leafInsertAt p i (entries.getD (lo + i) {}))
    (initPage magicBTreeLeaf .btreeLeaf)

/-! ## Internal nodes -/

/-- Offset of separator `i`. -/
def nodeSepOff (i : Nat) : Nat := pageHeaderSize + i * btreeCellSize

/-- Offset of child `j`. -/
def nodeChildOff (j : Nat) : Nat := pageSize - (j + 1) * 4

def nodeSep (p : Page) (i : Nat) : BTreeEntry := getEntry p (nodeSepOff i)
def setNodeSep (p : Page) (i : Nat) (e : BTreeEntry) : Page := putEntry p (nodeSepOff i) e
def nodeChild (p : Page) (j : Nat) : Nat := p.num (nodeChildOff j) 4
def setNodeChild (p : Page) (j child : Nat) : Page := p.setNum (nodeChildOff j) 4 child

/-- Index of the subtree an entry belongs to: the first separator above it. -/
def nodeChildIndex (p : Page) (e : BTreeEntry) : Nat :=
  bisect (fun mid => entryCmp (nodeSep p mid) e ≤ 0) 0 p.slotCount

/-- Insert separator `sep` at `i` and the page `right` as child `i + 1`. -/
def nodeInsertAt (p : Page) (i : Nat) (sep : BTreeEntry) (right : Nat) : Page :=
  let n := p.slotCount
  let p : Page := p.move (nodeSepOff (i + 1)) (nodeSepOff i) ((n - i) * btreeCellSize)
  let p : Page := p.move (nodeChildOff (n + 1)) (nodeChildOff n) ((n - i) * 4)
  let p : Page := setNodeSep p i sep
  let p : Page := setNodeChild p (i + 1) right
  let p : Page := p.setFreeBegin (toU16 (p.freeBegin + btreeCellSize))
  let p : Page := p.setFreeEnd (toU16 (p.freeEnd - 4))
  p.setSlotCount (toU16 (n + 1))

/-- A node of the separators `[lo, hi)` and the children `[lo, hi]`. -/
def nodeBuild (seps : List BTreeEntry) (children : List Nat) (lo hi : Nat) : Page :=
  let p : Page := (List.range (hi - lo)).foldl
    (fun p i =>
      setNodeChild (setNodeSep p i (seps.getD (lo + i) {})) i (children.getD (lo + i) 0))
    (initPage magicBTreeLeaf .btreeInternal)
  let p : Page := setNodeChild p (hi - lo) (children.getD hi 0)
  let p : Page := p.setFreeBegin (toU16 (pageHeaderSize + (hi - lo) * btreeCellSize))
  let p : Page := p.setFreeEnd (toU16 (pageSize - (hi - lo + 1) * 4))
  p.setSlotCount (toU16 (hi - lo))

def treePageType (type : Nat) : Bool :=
  type = PageType.btreeLeaf.code || type = PageType.btreeInternal.code

/-! ## Entries are linearly ordered -/

namespace BTreeEntry

/-- Position of an entry in composite order. -/
def rank (e : BTreeEntry) : Nat :=
  (e.key.rank * 2 ^ 32 + e.pageNo.toNat) * 2 ^ 16 + e.slot.toNat

theorem rank_injective : Function.Injective rank := by
  rintro ⟨aKey, aPage, aSlot⟩ ⟨bKey, bPage, bSlot⟩ same
  have aPage_lt := aPage.toNat_lt
  have bPage_lt := bPage.toNat_lt
  have aSlot_lt := aSlot.toNat_lt
  have bSlot_lt := bSlot.toNat_lt
  simp only [rank] at same
  have slot_eq : aSlot = bSlot := UInt16.toNat_inj.mp (by omega)
  have page_eq : aPage = bPage := UInt32.toNat_inj.mp (by omega)
  have key_eq : aKey = bKey := IndexKey.rank_injective (by omega)
  rw [slot_eq, page_eq, key_eq]

instance : LinearOrder BTreeEntry :=
  LinearOrder.lift' rank rank_injective

theorem lt_iff_rank {a b : BTreeEntry} : a < b ↔ a.rank < b.rank :=
  Iff.rfl

/-- Entries in order have their keys in order. -/
theorem key_le_of_le {a b : BTreeEntry} (le : a ≤ b) : a.key ≤ b.key := by
  have le_rank : a.rank ≤ b.rank := le
  have aPage_lt := a.pageNo.toNat_lt
  have bPage_lt := b.pageNo.toNat_lt
  have aSlot_lt := a.slot.toNat_lt
  have bSlot_lt := b.slot.toNat_lt
  rw [IndexKey.le_iff_rank]
  simp only [rank] at le_rank
  omega

/-- The comparison function decides the order. -/
theorem entryCmp_eq (a b : BTreeEntry) :
    entryCmp a b = if a < b then -1 else if b < a then 1 else 0 := by
  have aPage_lt := a.pageNo.toNat_lt
  have bPage_lt := b.pageNo.toNat_lt
  have aSlot_lt := a.slot.toNat_lt
  have bSlot_lt := b.slot.toNat_lt
  have page_ne : a.pageNo ≠ b.pageNo ↔ a.pageNo.toNat ≠ b.pageNo.toNat :=
    not_congr UInt32.toNat_inj.symm
  have slot_ne : a.slot ≠ b.slot ↔ a.slot.toNat ≠ b.slot.toNat :=
    not_congr UInt16.toNat_inj.symm
  simp only [entryCmp, keyCmp_eq, IndexKey.lt_iff_rank, lt_iff_rank, rank, page_ne, slot_ne,
    UInt32.lt_iff_toNat_lt, UInt16.lt_iff_toNat_lt]
  grind

theorem entryCmp_neg_iff {a b : BTreeEntry} : entryCmp a b < 0 ↔ a < b := by
  rw [entryCmp_eq]
  split_ifs with lt gt <;> simp [lt]

theorem entryCmp_nonpos_iff {a b : BTreeEntry} : entryCmp a b ≤ 0 ↔ a ≤ b := by
  rw [entryCmp_eq, ← not_lt]
  split_ifs with lt gt
  · simp [lt.le]
  · simp [gt]
  · simp [not_lt.mp gt]

/-- The entry that a key is searched by lies at or below the entries of its
key. -/
theorem probe_le_iff {key : IndexKey} {e : BTreeEntry} : { key } ≤ e ↔ key ≤ e.key := by
  constructor
  · exact key_le_of_le
  · intro le
    have le_rank : key.rank ≤ e.key.rank := le
    change rank { key } ≤ e.rank
    simp only [rank, UInt32.toNat_zero, UInt16.toNat_zero]
    omega

end BTreeEntry

end MySimpleDb.Storage
