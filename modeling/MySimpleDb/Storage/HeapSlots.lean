import MySimpleDb.Storage.HeapFile

/-!
# Heap pages in bytes

The slots and records of a heap page as they lie in its bytes: the slot array
grows down from the end of the page, the records grow up from the header.
Appending and deleting on the bytes is what it is on the page of slots.
-/

namespace MySimpleDb.Storage

open MySimpleDb.Lib

/-! ## Slots -/

/-- The place of slot `i`: `slot_at`. -/
def slotAt (i : Nat) : Nat :=
  pageSize - slotSize * (i + 1)

/-- Conversion to a 32-bit unsigned number. -/
def toU32 (v : Int) : Nat := (v % 2 ^ 32).toNat

namespace Page

def slotOff (p : Page) (i : Nat) : Nat := p.num (slotAt i) 2
def slotLen (p : Page) (i : Nat) : Nat := p.num (slotAt i + 2) 2

def setSlot (p : Page) (i off len : Nat) : Page :=
  (p.setNum (slotAt i) 2 off).setNum (slotAt i + 2) 2 len

/-- The bytes a slot points to. -/
def record (p : Page) (i : Nat) : Bytes := p.read (p.slotOff i) (p.slotLen i)

end Page

def slotTombstone (p : Page) (i : Nat) : Bool :=
  p.slotOff i = 0 && p.slotLen i = 0

/-- `heap_append`: the page and the slot, if the record fits. -/
def heapAppend (p : Page) (rec : Bytes) : Option (Page × Nat) :=
  let avail := toU32 (p.freeEnd - p.freeBegin)
  if avail < rec.length + slotSize then none
  else
    let off := p.freeBegin
    let p : Page := p.write off rec
    let p := p.setSlot p.slotCount off rec.length
    let p := p.setFreeBegin (toU16 (off + rec.length))
    let p := p.setFreeEnd (toU16 (p.freeEnd - slotSize))
    let p := p.setSlotCount (toU16 (p.slotCount + 1))
    let p := p.seal
    some (p, toU16 (p.slotCount - 1))

/-- `heap_delete`. -/
def heapDelete (p : Page) (slot : Nat) : Page :=
  (p.setSlot slot 0 0).seal

/-! ## Slots and records in order -/

/-- The slots from `i` on hold `slots`: a dead one is zero, a live one points to its record,
and the records lie in order between `start` and `finish`. -/
def Placed (p : Page) : Nat → Nat → List (Option Bytes) → Nat → Prop
  | _, start, [], finish => start ≤ finish
  | i, start, none :: slots, finish =>
      p.slotOff i = 0 ∧ p.slotLen i = 0 ∧ Placed p (i + 1) start slots finish
  | i, start, some rec :: slots, finish =>
      p.slotLen i = rec.length ∧ start ≤ p.slotOff i ∧ p.read (p.slotOff i) rec.length = rec ∧
        Placed p (i + 1) (p.slotOff i + rec.length) slots finish

theorem Placed.le {p : Page} {i start finish : Nat} {slots : List (Option Bytes)}
    (placed : Placed p i start slots finish) : start ≤ finish := by
  induction slots generalizing i start with
  | nil => exact placed
  | cons slot slots inductionHypothesis =>
      cases slot with
      | none => exact inductionHypothesis placed.2.2
      | some rec =>
          have after := inductionHypothesis placed.2.2.2
          have before := placed.2.1
          omega

/-- The slots and the records between the bounds are all that counts. -/
theorem Placed.congr {p q : Page} {i start finish : Nat} {slots : List (Option Bytes)}
    (placed : Placed p i start slots finish) (records : q.AgreeOn p start finish)
    (offs : ∀ j, i ≤ j → j < i + slots.length → q.slotOff j = p.slotOff j)
    (lens : ∀ j, i ≤ j → j < i + slots.length → q.slotLen j = p.slotLen j) :
    Placed q i start slots finish := by
  induction slots generalizing i start with
  | nil => exact placed
  | cons slot slots inductionHypothesis =>
      rw [List.length_cons] at offs lens
      have off := offs i le_rfl (by omega)
      have len := lens i le_rfl (by omega)
      have offs' : ∀ j, i + 1 ≤ j → j < i + 1 + slots.length → q.slotOff j = p.slotOff j :=
        fun j low high => offs j (by omega) (by omega)
      have lens' : ∀ j, i + 1 ≤ j → j < i + 1 + slots.length → q.slotLen j = p.slotLen j :=
        fun j low high => lens j (by omega) (by omega)
      cases slot with
      | none =>
          obtain ⟨dead, empty, placed⟩ := placed
          exact ⟨off.trans dead, len.trans empty, inductionHypothesis placed records offs' lens'⟩
      | some rec =>
          obtain ⟨length, above, bytes, placed⟩ := placed
          have room := placed.le
          refine ⟨len.trans length, ?_, ?_, ?_⟩
          · rw [off]
            exact above
          · rw [off, records.read ⟨above, room⟩]
            exact bytes
          · rw [off]
            exact inductionHypothesis placed (records.mono (by omega) le_rfl) offs' lens'

/-- One more record at the end. -/
theorem Placed.append {p : Page} {i start finish : Nat} {slots : List (Option Bytes)} {rec : Bytes}
    (placed : Placed p i start slots finish) (off : p.slotOff (i + slots.length) = finish)
    (len : p.slotLen (i + slots.length) = rec.length) (bytes : p.read finish rec.length = rec) :
    Placed p i start (slots ++ [some rec]) (finish + rec.length) := by
  induction slots generalizing i start with
  | nil =>
      refine ⟨len, ?_, ?_, ?_⟩
      · exact placed.trans_eq off.symm
      · rw [List.length_nil, Nat.add_zero] at off
        rw [off]
        exact bytes
      · rw [List.length_nil, Nat.add_zero] at off
        rw [off]
        exact le_refl _
  | cons slot slots inductionHypothesis =>
      have shift : i + (slot :: slots).length = i + 1 + slots.length := by
        rw [List.length_cons]
        omega
      rw [shift] at off len
      cases slot with
      | none =>
          obtain ⟨dead, empty, placed⟩ := placed
          exact ⟨dead, empty, inductionHypothesis placed off len⟩
      | some rec' =>
          obtain ⟨length, above, kept, placed⟩ := placed
          exact ⟨length, above, kept, inductionHypothesis placed off len⟩

/-- A lower bound may be lowered. -/
theorem Placed.mono {p : Page} {i start start' finish : Nat} {slots : List (Option Bytes)}
    (placed : Placed p i start' slots finish) (low : start ≤ start') :
    Placed p i start slots finish := by
  induction slots generalizing i start start' with
  | nil => exact low.trans placed
  | cons slot slots inductionHypothesis =>
      cases slot with
      | none => exact ⟨placed.1, placed.2.1, inductionHypothesis placed.2.2 low⟩
      | some rec => exact ⟨placed.1, low.trans placed.2.1, placed.2.2⟩

/-- One slot made dead. -/
theorem Placed.delete {p q : Page} {i start finish k : Nat} {slots : List (Option Bytes)}
    (placed : Placed p i start slots finish) (below : k < slots.length)
    (records : q.AgreeOn p start finish) (dead : q.slotOff (i + k) = 0)
    (empty : q.slotLen (i + k) = 0)
    (offs : ∀ j, j ≠ i + k → j < i + slots.length → q.slotOff j = p.slotOff j)
    (lens : ∀ j, j ≠ i + k → j < i + slots.length → q.slotLen j = p.slotLen j) :
    Placed q i start (slots.set k none) finish := by
  induction slots generalizing i start k with
  | nil => cases below
  | cons slot slots inductionHypothesis =>
      rw [List.length_cons] at below offs lens
      cases k with
      | zero =>
          have rest : Placed p (i + 1) start slots finish := by
            cases slot with
            | none => exact placed.2.2
            | some rec => exact placed.2.2.2.mono (by have := placed.2.1; omega)
          exact ⟨dead, empty, rest.congr records
            (fun j _ high => offs j (by omega) (by omega))
            (fun j _ high => lens j (by omega) (by omega))⟩
      | succ k =>
          have shift : i + (k + 1) = i + 1 + k := by omega
          rw [shift] at dead empty
          have offs' : ∀ j, j ≠ i + 1 + k → j < i + 1 + slots.length →
              q.slotOff j = p.slotOff j := fun j other high => offs j (by omega) (by omega)
          have lens' : ∀ j, j ≠ i + 1 + k → j < i + 1 + slots.length →
              q.slotLen j = p.slotLen j := fun j other high => lens j (by omega) (by omega)
          have off := offs i (by omega) (by omega)
          have len := lens i (by omega) (by omega)
          have within : k < slots.length := Nat.lt_of_succ_lt_succ below
          rw [List.set_cons_succ]
          cases slot with
          | none =>
              obtain ⟨dead', empty', placed⟩ := placed
              exact ⟨off.trans dead', len.trans empty',
                inductionHypothesis placed within records dead empty offs' lens'⟩
          | some rec =>
              obtain ⟨length, above, bytes, placed⟩ := placed
              have room := placed.le
              refine ⟨len.trans length, above.trans_eq off.symm, ?_, ?_⟩
              · rw [off, records.read ⟨above, room⟩]
                exact bytes
              · rw [off]
                exact inductionHypothesis placed within (records.mono (by omega) le_rfl)
                  dead empty offs' lens'

/-! ## Bytes of a page of slots -/

/-- The bytes `p` lay out the page of slots `a`. -/
structure HeapLaid (p : Page) (a : HeapPage) : Prop where
  valid : pageValid p magicHeap = true
  count : p.slotCount = a.slots.length
  freeBegin : p.freeBegin = a.freeBegin
  freeEnd : p.freeEnd = a.freeEnd
  room : a.freeBegin + slotSize * a.slots.length ≤ pageSize
  placed : Placed p 0 pageHeaderSize a.slots a.freeBegin

theorem HeapLaid.magic {p : Page} {a : HeapPage} (laid : HeapLaid p a) : p.magic = magicHeap := by
  have valid := laid.valid
  rw [pageValid, Bool.and_eq_true] at valid
  exact of_decide_eq_true valid.1

/-- The empty page. -/
theorem heapLaid_initPage (no : Nat) : HeapLaid (initPage magicHeap .heap) { no := no } where
  valid := pageValid_initPage magicHeap .heap (by decide)
  count := initPage_slotCount magicHeap .heap
  freeBegin := initPage_freeBegin magicHeap .heap
  freeEnd := initPage_freeEnd magicHeap .heap
  room := (by decide : 24 + 4 * 0 ≤ 4096)
  placed := le_refl pageHeaderSize

section Room

variable {p : Page} {a : HeapPage} (laid : HeapLaid p a)
include laid

/-- The records end before the slots begin. -/
theorem HeapLaid.bounds : 24 ≤ a.freeBegin ∧ a.freeBegin + 4 * a.slots.length ≤ 4096 :=
  ⟨laid.placed.le, laid.room⟩

theorem HeapLaid.avail : toU32 (p.freeEnd - p.freeBegin) = a.freeEnd - a.freeBegin := by
  have bounds := laid.bounds
  have freeEnd : a.freeEnd = 4096 - 4 * a.slots.length := rfl
  rw [laid.freeBegin, laid.freeEnd, toU32]
  omega

end Room

/-- The slots above a place are untouched by a write below it. -/
theorem slots_congr {p q : Page} {k : Nat} (same : q.AgreeOn p (4096 - 4 * k) 4096) :
    (∀ j, j < k → q.slotOff j = p.slotOff j) ∧ ∀ j, j < k → q.slotLen j = p.slotLen j := by
  constructor
  · intro j below
    have place : slotAt j = 4096 - 4 * (j + 1) := rfl
    exact same.num (by omega)
  · intro j below
    have place : slotAt j = 4096 - 4 * (j + 1) := rfl
    exact same.num (by omega)

/-! ## Appending -/

/-- The bytes after a record went in at `off` and a slot at `at'`. -/
def appended (p : Page) (rec : Bytes) (at' off newEnd count : Nat) : Page :=
  let p : Page := p.write off rec
  let p : Page := (p.setNum at' 2 off).setNum (at' + 2) 2 rec.length
  (((p.setFreeBegin (off + rec.length)).setFreeEnd newEnd).setSlotCount count).seal

section Appended

variable (p : Page) (rec : Bytes) {at' off newEnd count : Nat} (low : 24 ≤ off)
  (apart : off + rec.length ≤ at') (inside : at' + 4 ≤ 4096)
include low apart inside

theorem appended_fields (newEnd_lt : newEnd < 65536) (count_lt : count < 65536) :
    (appended p rec at' off newEnd count).magic = p.magic ∧
      (appended p rec at' off newEnd count).slotCount = count ∧
      (appended p rec at' off newEnd count).freeBegin = off + rec.length ∧
      (appended p rec at' off newEnd count).freeEnd = newEnd := by
  have small : off + rec.length < 65536 := by omega
  refine ⟨?_, ?_, ?_, ?_⟩
  all_goals
    simp (disch := omega) only [appended, Page.magic, Page.slotCount, Page.freeBegin, Page.freeEnd,
      Page.num_seal, Page.setFreeBegin, Page.setFreeEnd, Page.setSlotCount,
      Block.num_setNum_of_apart, Block.num_setNum_same, Block.num_write_of_apart]

theorem appended_slot :
    (appended p rec at' off newEnd count).num at' 2 = off ∧
      (appended p rec at' off newEnd count).num (at' + 2) 2 = rec.length := by
  have off_lt : off < 256 ^ 2 := by omega
  have length_lt : rec.length < 256 ^ 2 := by omega
  constructor
  all_goals
    simp (disch := omega) only [appended, Page.num_seal, Page.setFreeBegin, Page.setFreeEnd,
      Page.setSlotCount, Block.num_setNum_of_apart, Block.num_setNum_same]

theorem appended_read : (appended p rec at' off newEnd count).read off rec.length = rec := by
  simp (disch := omega) only [appended, Page.seal, Page.setFreeBegin, Page.setFreeEnd,
    Page.setSlotCount, Block.read_setNum_of_apart, Block.read_write_same]

omit inside in
/-- What lies between the header and the record, and above the slot, stays. -/
theorem appended_agreeOn {lo hi : Nat} (apart' : 24 ≤ lo ∧ hi ≤ off ∨ at' + 4 ≤ lo) :
    (appended p rec at' off newEnd count).AgreeOn p lo hi := by
  have written : (p.write off rec).AgreeOn p lo hi := p.agreeOn_write (by omega)
  refine (Block.agreeOn_setNum _ (by omega)).trans ?_
  refine (Block.agreeOn_setNum _ (by omega)).trans ?_
  refine (Block.agreeOn_setNum _ (by omega)).trans ?_
  refine (Block.agreeOn_setNum _ (by omega)).trans ?_
  refine (Block.agreeOn_setNum _ (by omega)).trans ?_
  exact (Block.agreeOn_setNum _ (by omega)).trans written

end Appended

theorem HeapLaid.heapAppend_eq {p : Page} {a : HeapPage} (laid : HeapLaid p a) (rec : Bytes) :
    heapAppend p rec =
      if a.freeEnd - a.freeBegin < rec.length + slotSize then none
      else some (appended p rec (slotAt a.slots.length) a.freeBegin (a.freeEnd - 4)
        (a.slots.length + 1), a.slots.length) := by
  have bounds := laid.bounds
  have freeEnd : a.freeEnd = 4096 - 4 * a.slots.length := rfl
  rw [heapAppend, laid.avail]
  by_cases full : a.freeEnd - a.freeBegin < rec.length + slotSize
  · rw [if_pos full, if_pos full]
  · rw [if_neg full, if_neg full]
    have fits : rec.length + 4 ≤ a.freeEnd - a.freeBegin := not_lt.mp full
    have place : slotAt a.slots.length = 4096 - 4 * (a.slots.length + 1) := rfl
    have written : (p.write a.freeBegin rec).num 8 2 = a.slots.length := by
      rw [Block.num_write_of_apart p (by omega)]
      exact laid.count
    have ended : (p.write a.freeBegin rec).num 12 2 = a.freeEnd := by
      rw [Block.num_write_of_apart p (by omega)]
      exact laid.freeEnd
    have begin' : toU16 (a.freeBegin + rec.length) = a.freeBegin + rec.length := by
      rw [toU16]
      omega
    have end' : toU16 (a.freeEnd - slotSize) = a.freeEnd - 4 := by
      have four : (slotSize : Int) = 4 := rfl
      rw [toU16]
      omega
    have count' : toU16 (a.slots.length + 1) = a.slots.length + 1 := by
      rw [toU16]
      omega
    have slot' : toU16 ((a.slots.length + 1 : Nat) - 1) = a.slots.length := by
      rw [toU16]
      omega
    have count_lt : a.slots.length + 1 < 256 ^ 2 := by omega
    simp (disch := omega) only [appended, Page.setSlot, laid.freeBegin, Page.slotCount, written,
      Page.freeEnd, Page.setFreeBegin, Page.setFreeEnd, Page.setSlotCount, ended, begin', end',
      count', slot', Page.num_seal, Block.num_setNum_of_apart, Block.num_setNum_same]

/-- A record is appended to the bytes as it is to the slots. -/
theorem HeapLaid.append {p : Page} {a : HeapPage} (laid : HeapLaid p a) (rec : Bytes) :
    (heapAppend p rec = none ∧ a.append rec = none) ∨
      ∃ p' a' slot, heapAppend p rec = some (p', slot) ∧ a.append rec = some (a', slot) ∧
        HeapLaid p' a' := by
  have bounds := laid.bounds
  have freeEnd : a.freeEnd = 4096 - 4 * a.slots.length := rfl
  rw [laid.heapAppend_eq, HeapPage.append]
  by_cases full : a.freeEnd - a.freeBegin < rec.length + slotSize
  · exact Or.inl ⟨if_pos full, if_pos full⟩
  · refine Or.inr ⟨_, _, _, if_neg full, if_neg full, ?_⟩
    have place : slotAt a.slots.length = 4096 - 4 * (a.slots.length + 1) := rfl
    have fits : rec.length + 4 ≤ a.freeEnd - a.freeBegin := not_lt.mp full
    have apart : a.freeBegin + rec.length ≤ slotAt a.slots.length := by omega
    have inside : slotAt a.slots.length + 4 ≤ 4096 := by omega
    obtain ⟨magic, count, begin', end'⟩ := appended_fields p rec bounds.1 apart inside
      (by omega : a.freeEnd - 4 < 65536) (by omega : a.slots.length + 1 < 65536)
    obtain ⟨off, len⟩ := @appended_slot p rec _ _ (a.freeEnd - 4) (a.slots.length + 1)
      bounds.1 apart inside
    have records := @appended_agreeOn p rec _ _ (a.freeEnd - 4) (a.slots.length + 1)
      bounds.1 apart 24 a.freeBegin (Or.inl ⟨le_rfl, le_rfl⟩)
    have slots := @appended_agreeOn p rec _ _ (a.freeEnd - 4) (a.slots.length + 1)
      bounds.1 apart (4096 - 4 * a.slots.length) 4096 (Or.inr (by omega))
    obtain ⟨offs, lens⟩ := slots_congr slots
    have kept := laid.placed.congr records
      (fun j _ high => offs j (by omega)) (fun j _ high => lens j (by omega))
    refine ⟨pageValid_seal ?_, ?_, begin', ?_, ?_, ?_⟩
    · exact ((Page.num_seal _ (Or.inl (by decide))).symm.trans magic).trans laid.magic
    · rw [count, List.length_append]
      rfl
    · change _ = 4096 - 4 * (a.slots ++ [some rec]).length
      rw [end', List.length_append, List.length_singleton]
      omega
    · change a.freeBegin + rec.length + 4 * (a.slots ++ [some rec]).length ≤ 4096
      rw [List.length_append, List.length_singleton]
      omega
    · apply kept.append
      · rw [Nat.zero_add]
        exact off
      · rw [Nat.zero_add]
        exact len
      · exact appended_read p rec bounds.1 apart inside

/-! ## Deleting -/

/-- A slot is made dead in the bytes as it is in the slots. -/
theorem HeapLaid.delete {p : Page} {a : HeapPage} (laid : HeapLaid p a) {slot : Nat}
    (below : slot < a.slots.length) : HeapLaid (heapDelete p slot) (a.delete slot) := by
  have bounds := laid.bounds
  have place : slotAt slot = 4096 - 4 * (slot + 1) := rfl
  have header : ∀ off width, off + width ≤ 20 →
      (heapDelete p slot).num off width = p.num off width := by
    intro off width low
    simp (disch := omega) only [heapDelete, Page.setSlot, Page.num_seal, Block.num_setNum_of_apart]
  have agree : ∀ lo hi, 24 ≤ lo → hi ≤ slotAt slot ∨ slotAt slot + 4 ≤ lo →
      (heapDelete p slot).AgreeOn p lo hi := by
    intro lo hi low apart
    refine (Block.agreeOn_setNum _ (by omega)).trans ?_
    exact (Block.agreeOn_setNum _ (by omega)).trans (Block.agreeOn_setNum _ (by omega))
  have slots : ∀ j, j ≠ slot → j < a.slots.length →
      (heapDelete p slot).AgreeOn p (slotAt j) (slotAt j + 4) := by
    intro j other high
    have place' : slotAt j = 4096 - 4 * (j + 1) := rfl
    exact agree _ _ (by omega) (by omega)
  refine ⟨pageValid_seal ?_, (header 8 2 (by decide)).trans ?_, (header 10 2 (by decide)).trans ?_,
    (header 12 2 (by decide)).trans ?_, ?_, ?_⟩
  · have magic := header 0 4 (by decide)
    exact ((Page.num_seal _ (Or.inl (by decide))).symm.trans magic).trans laid.magic
  · exact laid.count.trans (List.length_set).symm
  · exact laid.freeBegin
  · have freeEnd : (a.delete slot).freeEnd = a.freeEnd := by
      rw [HeapPage.freeEnd, HeapPage.delete, List.length_set]
      rfl
    rw [freeEnd]
    exact laid.freeEnd
  · change a.freeBegin + 4 * (a.slots.set slot none).length ≤ 4096
    rw [List.length_set]
    exact bounds.2
  · have dead : (heapDelete p slot).num (slotAt slot) 2 = 0 := by
      simp (disch := omega) only [heapDelete, Page.setSlot, Page.num_seal,
        Block.num_setNum_of_apart, Block.num_setNum_same]
    have empty : (heapDelete p slot).num (slotAt slot + 2) 2 = 0 := by
      simp (disch := omega) only [heapDelete, Page.setSlot, Page.num_seal, Block.num_setNum_same]
    apply laid.placed.delete below
    · exact agree _ _ le_rfl (by omega)
    · rw [Nat.zero_add]
      exact dead
    · rw [Nat.zero_add]
      exact empty
    · intro j other high
      rw [Nat.zero_add] at other high
      exact (slots j other high).num ⟨le_rfl, by omega⟩
    · intro j other high
      rw [Nat.zero_add] at other high
      exact (slots j other high).num ⟨by omega, by omega⟩

/-! ## What a page holds -/

/-- The slots as they are read. -/
def slotsOf (p : Page) : List (Option Bytes) :=
  (List.range p.slotCount).map fun i => if slotTombstone p i then none else some (p.record i)

/-- The records that are not dead, in the order of their slots. -/
def liveRecords (p : Page) : List Bytes :=
  (slotsOf p).reduceOption

theorem Placed.slots_eq {p : Page} {i start finish : Nat} {slots : List (Option Bytes)}
    (placed : Placed p i start slots finish) (pos : 0 < start) :
    (List.range' i slots.length).map
      (fun i => if slotTombstone p i then none else some (p.record i)) = slots := by
  induction slots generalizing i start with
  | nil => rfl
  | cons slot slots inductionHypothesis =>
      rw [List.length_cons, List.range'_succ, List.map_cons]
      cases slot with
      | none =>
          obtain ⟨dead, empty, placed⟩ := placed
          have tombstone : slotTombstone p i = true := by
            rw [slotTombstone, dead, empty]
            rfl
          rw [if_pos tombstone, inductionHypothesis placed pos]
      | some rec =>
          obtain ⟨length, above, bytes, placed⟩ := placed
          have live : ¬ slotTombstone p i = true := by
            rw [slotTombstone, Bool.and_eq_true, decide_eq_true_eq]
            omega
          rw [if_neg live, Page.record, length, bytes, inductionHypothesis placed (by omega)]

theorem HeapLaid.slotsOf_eq {p : Page} {a : HeapPage} (laid : HeapLaid p a) :
    slotsOf p = a.slots := by
  rw [slotsOf, laid.count, List.range_eq_range']
  exact laid.placed.slots_eq (by decide)

/-! ## Runs -/

/-- The calls on a heap page. -/
inductive HeapCall
  | append (rec : Bytes)
  | delete (slot : Nat)

/-- A call and the slot it took or freed; a row is deleted at a slot of the page only. -/
def HeapCall.run (p : Page) : HeapCall → Page × Option Nat
  | .append rec =>
      match heapAppend p rec with
      | some (p, slot) => (p, some slot)
      | none => (p, none)
  | .delete slot => if slot < p.slotCount then (heapDelete p slot, some slot) else (p, none)

/-- The page and the answers after a run of calls. -/
def runCalls (p : Page) : List HeapCall → Page × List (Option Nat)
  | [] => (p, [])
  | call :: calls =>
      let (p, answer) := call.run p
      let (p, answers) := runCalls p calls
      (p, answer :: answers)

namespace HeapPage

/-- `HeapCall.run` on the slots. -/
def call (a : HeapPage) : HeapCall → HeapPage × Option Nat
  | .append rec =>
      match a.append rec with
      | some (a, slot) => (a, some slot)
      | none => (a, none)
  | .delete slot => if slot < a.slots.length then (a.delete slot, some slot) else (a, none)

def calls (a : HeapPage) : List HeapCall → HeapPage × List (Option Nat)
  | [] => (a, [])
  | c :: cs =>
      let (a, answer) := a.call c
      let (a, answers) := a.calls cs
      (a, answer :: answers)

end HeapPage

/-- A call on the bytes is the call on the slots. -/
theorem HeapLaid.call {p : Page} {a : HeapPage} (laid : HeapLaid p a) (c : HeapCall) :
    HeapLaid (c.run p).1 (a.call c).1 ∧ (c.run p).2 = (a.call c).2 := by
  cases c with
  | append rec =>
      rcases laid.append rec with ⟨full, full'⟩ | ⟨p', a', slot, done, done', laid'⟩
      · rw [HeapCall.run, HeapPage.call, full, full']
        exact ⟨laid, rfl⟩
      · rw [HeapCall.run, HeapPage.call, done, done']
        exact ⟨laid', rfl⟩
  | delete slot =>
      rw [HeapCall.run, HeapPage.call, laid.count]
      by_cases below : slot < a.slots.length
      · rw [if_pos below, if_pos below]
        exact ⟨laid.delete below, rfl⟩
      · rw [if_neg below, if_neg below]
        exact ⟨laid, rfl⟩

/-- A run on the bytes is the run on the slots. -/
theorem HeapLaid.calls {p : Page} {a : HeapPage} (laid : HeapLaid p a) (cs : List HeapCall) :
    HeapLaid (runCalls p cs).1 (a.calls cs).1 ∧ (runCalls p cs).2 = (a.calls cs).2 := by
  induction cs generalizing p a with
  | nil => exact ⟨laid, rfl⟩
  | cons c cs inductionHypothesis =>
      obtain ⟨laid', answer⟩ := laid.call c
      obtain ⟨laid'', answers⟩ := inductionHypothesis laid'
      rw [runCalls, HeapPage.calls]
      exact ⟨laid'', congrArg₂ List.cons answer answers⟩

end MySimpleDb.Storage
