import Mathlib.Data.List.ReduceOption
import MySimpleDb.Storage.HeapSlots

/-!
# Compaction of heap pages

Compaction moves the live records down in place and rewrites the slots from the
front.  What is still to be read lies above what was written: a record is moved
to no place above its own, and a slot is written at no number above its own.
-/

namespace MySimpleDb.Storage

open MySimpleDb.Lib

/-! ## The loop -/

/-- The loop of `heap_compact` from slot `i`, with the next free place and slot. -/
def compactLoop (p : Page) (i off dst : Nat) : Page × Nat × Nat :=
  if more : i < p.slotCount then
    if slotTombstone p i then compactLoop p (i + 1) off dst
    else
      let n := p.slotLen i
      let moved : Page := p.move off (p.slotOff i) n
      compactLoop (moved.setSlot dst off n) (i + 1) (toU16 (off + n)) (dst + 1)
  else (p, off, dst)
termination_by 65536 - i
decreasing_by
  all_goals
    have small : p.slotCount < 65536 := p.num_lt 8 2
    omega

/-- `heap_compact`. -/
def heapCompact (p : Page) : Page :=
  let (p, off, dst) := compactLoop p 0 pageHeaderSize 0
  let p := (p.setSlotCount dst).setFreeBegin off
  (p.setFreeEnd (toU16 (pageSize - dst * slotSize))).seal

/-! ## One record moved -/

/-- A live record moved down: its slot and its bytes, and what stays. -/
theorem moved_agreeOn (p : Page) {src n off dst lo hi : Nat} (records : hi ≤ off ∨ off + n ≤ lo)
    (slots : hi ≤ slotAt dst ∨ slotAt dst + 4 ≤ lo) :
    (Page.setSlot (p.move off src n) dst off n).AgreeOn p lo hi := by
  refine (Block.agreeOn_setNum _ (by omega)).trans ?_
  refine (Block.agreeOn_setNum _ (by omega)).trans ?_
  exact p.agreeOn_move records

theorem moved_slot (p : Page) (src : Nat) {n off dst : Nat} (off_lt : off < 65536)
    (n_lt : n < 65536) (inside : slotAt dst + 4 ≤ 4096) :
    (Page.setSlot (p.move off src n) dst off n).slotOff dst = off ∧
      (Page.setSlot (p.move off src n) dst off n).slotLen dst = n := by
  have off_lt : off < 256 ^ 2 := off_lt
  have n_lt : n < 256 ^ 2 := n_lt
  constructor
  · simp (disch := omega) only [Page.slotOff, Page.setSlot, Block.num_setNum_of_apart,
      Block.num_setNum_same]
  · simp (disch := omega) only [Page.slotLen, Page.setSlot, Block.num_setNum_same]

theorem moved_read (p : Page) {src n off dst : Nat} (apart : off + n ≤ slotAt dst)
    (inside : slotAt dst ≤ 4096) :
    (Page.setSlot (p.move off src n) dst off n).read off n = p.read src n := by
  have fits : off + n ≤ 4096 := by omega
  have kept : (p.move off src n).read (off + 0) n = p.read (src + 0) n :=
    p.read_move_within 0 fits (by omega)
  rw [Nat.add_zero, Nat.add_zero] at kept
  rw [Page.setSlot, Block.read_setNum_of_apart _ (by omega), Block.read_setNum_of_apart _ (by omega),
    kept]

/-! ## The invariant of the loop -/

/-- The records `done` fill the page from the header up to `off`. -/
structure Packed (p : Page) (done : List Bytes) (off : Nat) : Prop where
  placed : Placed p 0 pageHeaderSize (done.map some) off
  tight : off = pageHeaderSize + done.flatten.length

/-- What is written ends below what is read, and leaves the header alone. -/
theorem compactLoop_spec {slots : List (Option Bytes)} {p : Page} {i start finish off : Nat}
    {done : List Bytes} (rest : Placed p i start slots finish)
    (count : p.slotCount = i + slots.length) (packed : Packed p done off) (below : off ≤ start)
    (behind : done.length ≤ i) (room : finish + 4 * (i + slots.length) ≤ 4096) :
    ∃ p' off', compactLoop p i off done.length =
        (p', off', (done ++ slots.reduceOption).length) ∧
      Packed p' (done ++ slots.reduceOption) off' ∧ off' ≤ finish ∧ p'.AgreeOn p 0 24 := by
  induction slots generalizing p i start off done with
  | nil =>
      rw [List.length_nil, Nat.add_zero] at count
      rw [compactLoop, dif_neg (by omega), List.reduceOption_nil, List.append_nil]
      exact ⟨p, off, rfl, packed, below.trans rest, fun _ _ _ => rfl⟩
  | cons slot slots inductionHypothesis =>
      rw [List.length_cons] at count room
      have more : i < p.slotCount := by omega
      have count' : p.slotCount = i + 1 + slots.length := by omega
      have room' : finish + 4 * (i + 1 + slots.length) ≤ 4096 := by omega
      rw [compactLoop, dif_pos more]
      cases slot with
      | none =>
          obtain ⟨dead, empty, rest⟩ := rest
          have tombstone : slotTombstone p i = true := by
            rw [slotTombstone, dead, empty]
            rfl
          rw [if_pos tombstone, List.reduceOption_cons_of_none]
          exact inductionHypothesis rest count' packed below (by omega) room'
      | some rec =>
          obtain ⟨length, above, bytes, rest⟩ := rest
          have header : 24 ≤ off := packed.placed.le
          have last := rest.le
          have live : ¬ slotTombstone p i = true := by
            rw [slotTombstone, Bool.and_eq_true, decide_eq_true_eq]
            omega
          have fits : toU16 ((off : Int) + (rec.length : Nat)) = off + rec.length := by
            rw [toU16]
            omega
          have place : ∀ j, slotAt j = 4096 - 4 * (j + 1) := fun _ => rfl
          have target := place done.length
          rw [if_neg live, length]
          dsimp only
          rw [fits, List.reduceOption_cons_of_some]
          let q : Page := Page.setSlot (p.move off (p.slotOff i) rec.length) done.length off rec.length
          have agree : ∀ lo hi, hi ≤ off ∨ off + rec.length ≤ lo →
              hi ≤ slotAt done.length ∨ slotAt done.length + 4 ≤ lo → q.AgreeOn p lo hi :=
            fun lo hi => moved_agreeOn p
          have others : ∀ j, j ≠ done.length → j < i + 1 + slots.length →
              q.slotOff j = p.slotOff j ∧ q.slotLen j = p.slotLen j := by
            intro j other high
            have here := place j
            have same := agree (slotAt j) (slotAt j + 4) (by omega) (by omega)
            exact ⟨same.num ⟨le_rfl, by omega⟩, same.num ⟨by omega, by omega⟩⟩
          obtain ⟨slotOff, slotLen⟩ := moved_slot p (p.slotOff i)
            (by omega : off < 65536) (by omega : rec.length < 65536)
            (by omega : slotAt done.length + 4 ≤ 4096)
          have read := (moved_read p (by omega : off + rec.length ≤ slotAt done.length)
            (by omega)).trans bytes
          have unread : Placed q (i + 1) (p.slotOff i + rec.length) slots finish :=
            rest.congr (agree _ _ (by omega) (by omega))
              (fun j low high => (others j (by omega) (by omega)).1)
              (fun j low high => (others j (by omega) (by omega)).2)
          have earlier : ∀ j, j < 0 + (done.map some).length →
              q.slotOff j = p.slotOff j ∧ q.slotLen j = p.slotLen j := by
            intro j high
            rw [Nat.zero_add, List.length_map] at high
            exact others j (by omega) (by omega)
          have written : Placed q 0 pageHeaderSize (done.map some) off :=
            packed.placed.congr (agree _ _ (by omega) (by omega))
              (fun j _ high => (earlier j high).1) (fun j _ high => (earlier j high).2)
          have packed' : Packed q (done ++ [rec]) (off + rec.length) := by
            constructor
            · rw [List.map_append, List.map_singleton]
              apply written.append
              · rw [Nat.zero_add, List.length_map]
                exact slotOff
              · rw [Nat.zero_add, List.length_map]
                exact slotLen
              · exact read
            · rw [packed.tight, List.flatten_append, List.length_append, List.flatten_singleton,
                Nat.add_assoc]
          have kept : q.slotCount = p.slotCount :=
            (agree 0 24 (by omega) (by omega)).num ⟨by omega, by omega⟩
          have counted : (done ++ [rec]).length = done.length + 1 := by
            rw [List.length_append, List.length_singleton]
          obtain ⟨p', off', done', all, within, header'⟩ :=
            inductionHypothesis unread (kept.trans count') packed' (by omega) (by omega) room'
          rw [counted, List.append_assoc, List.singleton_append] at done'
          rw [List.append_assoc, List.singleton_append] at all
          exact ⟨p', off', done', all, within, header'.trans (agree 0 24 (by omega) (by omega))⟩

/-! ## The compacted page -/

namespace HeapPage

/-- The page with the live records alone. -/
def compact (a : HeapPage) : HeapPage :=
  { a with
    freeBegin := pageHeaderSize + a.slots.reduceOption.flatten.length
    slots := a.slots.reduceOption.map some }

end HeapPage

theorem HeapLaid.compact {p : Page} {a : HeapPage} (laid : HeapLaid p a) :
    HeapLaid (heapCompact p) a.compact := by
  have bounds := laid.bounds
  have count : p.slotCount = 0 + a.slots.length := by rw [laid.count, Nat.zero_add]
  obtain ⟨q, off, done, packed, within, header⟩ := compactLoop_spec laid.placed count
    (⟨le_refl pageHeaderSize, rfl⟩ : Packed p [] pageHeaderSize) le_rfl (Nat.zero_le _)
    (by omega)
  rw [List.nil_append] at done packed
  have live : a.slots.reduceOption.length ≤ a.slots.length := List.reduceOption_length_le _
  have low : 24 ≤ off := packed.placed.le
  have tight : off = a.compact.freeBegin := packed.tight
  have four : (slotSize : Int) = 4 := rfl
  have all : (pageSize : Int) = 4096 := rfl
  have end' : toU16 ((pageSize : Int) - (a.slots.reduceOption.length : Nat) * (slotSize : Nat)) =
      4096 - 4 * a.slots.reduceOption.length := by
    rw [toU16, four, all]
    omega
  have count_lt : a.slots.reduceOption.length < 256 ^ 2 := by omega
  have off_lt : off < 256 ^ 2 := by omega
  have end_lt : 4096 - 4 * a.slots.reduceOption.length < 256 ^ 2 := by omega
  have compacted : heapCompact p =
      Page.seal (((q.setNum 8 2 a.slots.reduceOption.length).setNum 10 2 off).setNum 12 2
        (4096 - 4 * a.slots.reduceOption.length)) := by
    unfold heapCompact
    rw [List.length_nil] at done
    rw [done, ← end']
    rfl
  have agree : ∀ lo hi, 24 ≤ lo → (heapCompact p).AgreeOn q lo hi := by
    intro lo hi above
    rw [compacted]
    refine (Block.agreeOn_setNum _ (by omega)).trans ?_
    refine (Block.agreeOn_setNum _ (by omega)).trans ?_
    exact (Block.agreeOn_setNum _ (by omega)).trans (Block.agreeOn_setNum _ (by omega))
  have length : (a.slots.reduceOption.map some).length = a.slots.reduceOption.length :=
    List.length_map _
  refine ⟨?_, ?_, ?_, ?_, ?_, ?_⟩
  · rw [compacted]
    apply pageValid_seal
    have magic : q.num 0 4 = magicHeap := (header.num ⟨le_rfl, by omega⟩).trans laid.magic
    simp (disch := omega) only [Page.magic, Block.num_setNum_of_apart, magic]
  · change (heapCompact p).num 8 2 = _
    rw [compacted, Page.num_seal _ (by omega)]
    simp (disch := omega) only [Block.num_setNum_of_apart, Block.num_setNum_same]
    exact length.symm
  · change (heapCompact p).num 10 2 = _
    rw [compacted, Page.num_seal _ (by omega)]
    simp (disch := omega) only [Block.num_setNum_of_apart, Block.num_setNum_same]
    exact tight
  · change (heapCompact p).num 12 2 = 4096 - 4 * (a.slots.reduceOption.map some).length
    rw [compacted, Page.num_seal _ (by omega), length]
    simp (disch := omega) only [Block.num_setNum_same]
  · change a.compact.freeBegin + 4 * (a.slots.reduceOption.map some).length ≤ 4096
    rw [length, ← tight]
    omega
  · rw [← tight]
    have slots := slots_congr (agree (4096 - 4 * a.slots.reduceOption.length) 4096 (by omega))
    have placed : Placed (heapCompact p) 0 pageHeaderSize (a.slots.reduceOption.map some) off := by
      apply packed.placed.congr (agree _ _ le_rfl)
      · intro j _ high
        exact slots.1 j (by omega)
      · intro j _ high
        exact slots.2 j (by omega)
    exact placed

/-! ## Records without gaps -/

theorem Placed.length_le {p : Page} {i start finish : Nat} {recs : List Bytes}
    (placed : Placed p i start (recs.map some) finish) :
    start + recs.flatten.length ≤ finish := by
  induction recs generalizing i start with
  | nil => exact placed
  | cons rec recs inductionHypothesis =>
      obtain ⟨-, above, -, placed⟩ := placed
      have rest := inductionHypothesis placed
      rw [List.flatten_cons, List.length_append]
      omega

/-- Records that fill their range begin where it begins. -/
theorem Placed.tight_cons {p : Page} {i start finish : Nat} {rec : Bytes} {recs : List Bytes}
    (placed : Placed p i start ((rec :: recs).map some) finish)
    (full : finish = start + (rec :: recs).flatten.length) :
    p.slotOff i = start ∧ p.slotLen i = rec.length ∧
      Placed p (i + 1) (start + rec.length) (recs.map some) finish ∧
      finish = start + rec.length + recs.flatten.length := by
  obtain ⟨length, above, -, placed⟩ := placed
  have rest := placed.length_le
  rw [List.flatten_cons, List.length_append] at full
  have first : p.slotOff i = start := by omega
  rw [first] at placed
  exact ⟨first, length, placed, by omega⟩

/-- Records that fill their range follow each other without gaps. -/
theorem Placed.tight {p : Page} {i start finish : Nat} {recs : List Bytes}
    (placed : Placed p i start (recs.map some) finish)
    (full : finish = start + recs.flatten.length) {k : Nat} (below : k < recs.length) :
    p.slotOff (i + k) = start + (recs.take k).flatten.length ∧
      p.slotLen (i + k) = (recs.getD k []).length := by
  induction recs generalizing i start k with
  | nil => cases below
  | cons rec recs inductionHypothesis =>
      obtain ⟨off, len, placed, full⟩ := placed.tight_cons full
      cases k with
      | zero => exact ⟨off, len⟩
      | succ k =>
          obtain ⟨off, len⟩ := inductionHypothesis placed full (Nat.lt_of_succ_lt_succ below)
          have shift : i + (k + 1) = i + 1 + k := by omega
          rw [shift, off, len, List.take_succ_cons, List.flatten_cons, List.length_append,
            Nat.add_assoc, List.getD_cons_succ]
          exact ⟨rfl, rfl⟩

/-- On records without gaps the loop changes nothing. -/
theorem compactLoop_tight {p : Page} {i start finish : Nat} {recs : List Bytes}
    (placed : Placed p i start (recs.map some) finish)
    (full : finish = start + recs.flatten.length) (count : p.slotCount = i + recs.length)
    (pos : 0 < start) (inside : finish ≤ 4096) :
    compactLoop p i start i = (p, finish, i + recs.length) := by
  induction recs generalizing i start with
  | nil =>
      rw [List.length_nil, Nat.add_zero] at count
      rw [compactLoop, dif_neg (by omega), full]
      rfl
  | cons rec recs inductionHypothesis =>
      rw [List.length_cons] at count
      obtain ⟨off, len, placed, full⟩ := placed.tight_cons full
      have live : ¬ slotTombstone p i = true := by
        rw [slotTombstone, Bool.and_eq_true, decide_eq_true_eq]
        omega
      have fits : toU16 ((start : Int) + (rec.length : Nat)) = start + rec.length := by
        rw [toU16]
        omega
      have kept : Page.setSlot (p.move start start rec.length) i start rec.length = p := by
        have first : Block.setNum p (slotAt i) 2 start = p := by
          rw [← off]
          exact p.setNum_num_self (slotAt i) 2
        have second : Block.setNum p (slotAt i + 2) 2 rec.length = p := by
          rw [← len]
          exact p.setNum_num_self (slotAt i + 2) 2
        rw [Block.move_self, Page.setSlot, first, second]
      rw [compactLoop, dif_pos (by omega), if_neg live, len, off]
      dsimp only
      rw [kept, fits, inductionHypothesis placed full (by omega) (by omega), List.length_cons]
      congr 2
      omega

/-- Sealing a valid page again changes nothing. -/
theorem seal_of_valid {p : Page} {magic : Nat} (valid : pageValid p magic = true) : p.seal = p := by
  rw [pageValid, Bool.and_eq_true] at valid
  have checksum : p.num 20 4 = pageChecksum p := of_decide_eq_true valid.2
  rw [Page.seal, ← checksum]
  exact p.setNum_num_self 20 4

theorem HeapLaid.compact_of_live {p : Page} {a : HeapPage} (laid : HeapLaid p a.compact) :
    heapCompact p = p := by
  have bounds := laid.bounds
  have length : a.compact.slots.length = a.slots.reduceOption.length := List.length_map _
  have count : p.slotCount = 0 + a.slots.reduceOption.length := by
    rw [laid.count, length, Nat.zero_add]
  have loop := compactLoop_tight laid.placed rfl count (by decide) (by omega)
  have four : (slotSize : Int) = 4 := rfl
  have all : (pageSize : Int) = 4096 := rfl
  have end' : toU16 ((pageSize : Int) - (a.slots.reduceOption.length : Nat) * (slotSize : Nat)) =
      p.freeEnd := by
    have freeEnd : p.freeEnd = 4096 - 4 * a.compact.slots.length := laid.freeEnd
    rw [toU16, four, all, freeEnd]
    omega
  rw [Nat.zero_add] at loop count
  unfold heapCompact
  rw [loop]
  dsimp only
  rw [end', ← count, ← laid.freeBegin, Page.setSlotCount, Page.slotCount, Block.setNum_num_self,
    Page.setFreeBegin, Page.freeBegin, Block.setNum_num_self, Page.setFreeEnd, Page.freeEnd,
    Block.setNum_num_self, seal_of_valid laid.valid]

/-! ## A page of the live records alone -/

theorem HeapPage.append_of_room (a : HeapPage) {rec : Bytes}
    (room : a.freeBegin + rec.length + 4 * (a.slots.length + 1) ≤ 4096) :
    a.append rec = some ({ a with
      freeBegin := a.freeBegin + rec.length
      slots := a.slots ++ [some rec] }, a.slots.length) := by
  have freeEnd : a.freeEnd = 4096 - 4 * a.slots.length := rfl
  have four : slotSize = 4 := rfl
  rw [HeapPage.append, if_neg (by omega)]

/-- Records for which there is room are appended one after the other. -/
theorem HeapPage.calls_append (recs : List Bytes) (a : HeapPage)
    (room : a.freeBegin + recs.flatten.length + 4 * (a.slots.length + recs.length) ≤ 4096) :
    a.calls (recs.map .append) = ({ a with
      freeBegin := a.freeBegin + recs.flatten.length
      slots := a.slots ++ recs.map some }, (List.range' a.slots.length recs.length).map some) := by
  induction recs generalizing a with
  | nil => simp [HeapPage.calls]
  | cons rec recs inductionHypothesis =>
      rw [List.flatten_cons, List.length_append, List.length_cons] at room
      rw [List.map_cons, HeapPage.calls, HeapPage.call, a.append_of_room (by omega)]
      dsimp only
      rw [inductionHypothesis _ (by
        dsimp only
        rw [List.length_append, List.length_singleton]
        omega)]
      dsimp only
      rw [List.length_append, List.length_singleton, List.length_cons, List.range'_succ,
        List.flatten_cons, List.length_append, Nat.add_assoc, List.append_assoc]
      rfl

theorem HeapLaid.freeSpace_eq {p : Page} {a : HeapPage} (laid : HeapLaid p a) :
    freeSpace p = 4096 - 4 * a.slots.length - a.freeBegin := by
  have bounds := laid.bounds
  have freeEnd : p.freeEnd = 4096 - 4 * a.slots.length := laid.freeEnd
  rw [freeSpace, toU16, freeEnd, laid.freeBegin]
  omega

/-! ## Compaction -/

/-- The page `q` holds the records `live` and nothing else: the slots are the records in
order, these follow each other from the header and end before the slot array, what is left
is free, and the page is valid.  Calls are answered as on a page to which `live` was
appended, with the same slots and the same room afterwards, and compaction changes nothing. -/
structure Compacted (q : Page) (live : List Bytes) : Prop where
  slots : slotsOf q = live.map some
  count : q.slotCount = live.length
  contiguous : ∀ k < live.length,
    q.slotOff k = pageHeaderSize + (live.take k).flatten.length ∧
      q.slotLen k = (live.getD k []).length
  apart : ∀ k < live.length, pageHeaderSize + live.flatten.length ≤ slotAt k
  free : freeSpace q = pageSize - pageHeaderSize - live.flatten.length - slotSize * live.length
  valid : pageValid q magicHeap = true
  later : ∃ fresh, runCalls (initPage magicHeap .heap) (live.map .append) =
      (fresh, (List.range live.length).map some) ∧
    ∀ calls, (runCalls q calls).2 = (runCalls fresh calls).2 ∧
      slotsOf (runCalls q calls).1 = slotsOf (runCalls fresh calls).1 ∧
      freeSpace (runCalls q calls).1 = freeSpace (runCalls fresh calls).1
  again : heapCompact q = q

/-- The bytes do not hold the number of the page. -/
theorem HeapLaid.renumber {p : Page} {a : HeapPage} (laid : HeapLaid p a) (no : Nat) :
    HeapLaid p { a with no := no } :=
  ⟨laid.valid, laid.count, laid.freeBegin, laid.freeEnd, laid.room, laid.placed⟩

theorem HeapLaid.compacted {p : Page} {a : HeapPage} (laid : HeapLaid p a) :
    Compacted (heapCompact p) a.slots.reduceOption := by
  have laid := laid.compact
  have bounds := laid.bounds
  have length : a.compact.slots.length = a.slots.reduceOption.length := List.length_map _
  have begin' : a.compact.freeBegin = 24 + a.slots.reduceOption.flatten.length := rfl
  refine ⟨laid.slotsOf_eq, laid.count.trans length, ?_, ?_, ?_, laid.valid, ?_,
    laid.compact_of_live⟩
  · intro k below
    have record := laid.placed.tight rfl below
    rwa [Nat.zero_add] at record
  · intro k below
    have place : slotAt k = 4096 - 4 * (k + 1) := rfl
    have header : pageHeaderSize = 24 := rfl
    omega
  · rw [laid.freeSpace_eq, length, begin']
    have header : pageHeaderSize = 24 := rfl
    have page : pageSize = 4096 := rfl
    have slot : slotSize = 4 := rfl
    rw [header, page, slot]
    omega
  · have room : pageHeaderSize + a.slots.reduceOption.flatten.length +
        4 * (0 + a.slots.reduceOption.length) ≤ 4096 := by
      rw [Nat.zero_add, ← length]
      exact bounds.2
    obtain ⟨fresh, answers⟩ :=
      (heapLaid_initPage 0).calls (a.slots.reduceOption.map .append)
    rw [HeapPage.calls_append _ _ room] at fresh answers
    refine ⟨_, Prod.ext rfl (answers.trans ?_), ?_⟩
    · rw [List.range_eq_range']
      rfl
    · intro calls
      obtain ⟨left, answersLeft⟩ := (laid.renumber 0).calls calls
      obtain ⟨right, answersRight⟩ := fresh.calls calls
      refine ⟨answersLeft.trans answersRight.symm, ?_, ?_⟩
      · exact left.slotsOf_eq.trans right.slotsOf_eq.symm
      · exact left.freeSpace_eq.trans right.freeSpace_eq.symm

/-- Compaction of a page that was filled by any run of calls keeps its live records. -/
theorem heapCompact_exact (calls : List HeapCall) :
    Compacted (heapCompact (runCalls (initPage magicHeap .heap) calls).1)
      (liveRecords (runCalls (initPage magicHeap .heap) calls).1) := by
  have laid := ((heapLaid_initPage 0).calls calls).1
  rw [liveRecords, laid.slotsOf_eq]
  exact laid.compacted

end MySimpleDb.Storage
