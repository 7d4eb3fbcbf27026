import MySimpleDb.Storage.EngineHeap
import MySimpleDb.Storage.HeapUpdate
import MySimpleDb.Storage.PoolStrict

/-!
# Table files in pages

What the pages of a table file hold: the header page with the counter of row ids and
the number of the first data page, and the data pages in bytes, each with the number
of the next.
-/

namespace MySimpleDb.Storage

open MySimpleDb.Lib

/-! ## The number of the next page -/

namespace Page

theorem nextPage_seal (p : Page) : p.seal.nextPage = p.nextPage :=
  Page.num_seal p (.inl (by decide))

theorem nextPage_setNextPage_seal (p : Page) {no : Nat} (small : no < 2 ^ 32) :
    (p.setNextPage no).seal.nextPage = no := by
  rw [nextPage_seal]
  exact Block.num_setNum_same p (by decide) small

end Page

/-- The number of the next page is no part of what a heap page holds. -/
theorem HeapLaid.setNextPage {p : Page} {a : HeapPage} (laid : HeapLaid p a) (no : Nat) :
    HeapLaid (p.setNextPage no).seal a := by
  have field : ∀ off width, off + width ≤ 16 →
      ((p.setNextPage no).seal).num off width = p.num off width := by
    intro off width low
    rw [Page.num_seal _ (.inl (by omega))]
    exact Block.num_setNum_of_apart p (by omega)
  have agree : ∀ lo hi, 24 ≤ lo → ((p.setNextPage no).seal).AgreeOn p lo hi := by
    intro lo hi low
    exact (Block.agreeOn_setNum _ (by omega)).trans (Block.agreeOn_setNum _ (by omega))
  have bounds := laid.bounds
  have slots := slots_congr (agree (4096 - 4 * a.slots.length) 4096 (by omega))
  refine ⟨pageValid_seal ?_, (field 8 2 (by decide)).trans laid.count,
    (field 10 2 (by decide)).trans laid.freeBegin, (field 12 2 (by decide)).trans laid.freeEnd,
    laid.room, ?_⟩
  · exact ((Page.num_seal _ (.inl (by decide))).symm.trans (field 0 4 (by decide))).trans laid.magic
  · apply laid.placed.congr (agree _ _ (le_refl 24))
    · exact fun j _ high => slots.1 j (by omega)
    · exact fun j _ high => slots.2 j (by omega)

theorem HeapLaid.nextPage_append {p p' : Page} {a : HeapPage} {rec : Bytes} {slot : Nat}
    (laid : HeapLaid p a) (appended : heapAppend p rec = some (p', slot)) :
    p'.nextPage = p.nextPage := by
  have bounds := laid.bounds
  have freeEnd : a.freeEnd = 4096 - 4 * a.slots.length := rfl
  have place : slotAt a.slots.length = 4096 - 4 * (a.slots.length + 1) := rfl
  rw [laid.heapAppend_eq] at appended
  split at appended
  · cases appended
  · rename_i fits
    have four : slotSize = 4 := rfl
    cases appended
    simp (disch := omega) only [Storage.appended, Page.nextPage, Page.num_seal, Page.setFreeBegin,
      Page.setFreeEnd, Page.setSlotCount, Block.num_setNum_of_apart, Block.num_write_of_apart]

theorem HeapLaid.nextPage_delete {p : Page} {a : HeapPage} (laid : HeapLaid p a) {slot : Nat}
    (below : slot < a.slots.length) : (heapDelete p slot).nextPage = p.nextPage := by
  have bounds := laid.bounds
  have place : slotAt slot = 4096 - 4 * (slot + 1) := rfl
  simp (disch := omega) only [heapDelete, Page.setSlot, Page.nextPage, Page.num_seal,
    Block.num_setNum_of_apart]

/-! ## Slots of a page in bytes -/

section Slots

variable {p : Page} {a : HeapPage} {slot : Nat}

/-- A slot that is dead or beyond the count has no record. -/
theorem HeapLaid.record_none (laid : HeapLaid p a) (slot : Nat) :
    a.record? slot = none ↔ p.slotCount ≤ slot ∨ slotTombstone p slot = true := by
  have slots := laid.slotsOf_eq
  unfold slotsOf at slots
  rw [HeapPage.record?, ← slots, List.getD_eq_getElem?_getD, List.getElem?_map]
  by_cases beyond : p.slotCount ≤ slot
  · rw [List.getElem?_eq_none (by simpa using beyond)]
    simp [beyond]
  · rw [List.getElem?_range (by omega)]
    cases dead : slotTombstone p slot <;> simp [beyond, dead]

theorem HeapLaid.record_some (laid : HeapLaid p a) {rec : Bytes} (live : a.record? slot = some rec) :
    p.record slot = rec ∧ slot < a.slots.length := by
  have there : ¬ (p.slotCount ≤ slot ∨ slotTombstone p slot = true) := by
    rw [← laid.record_none, live]
    simp
  rw [not_or, not_le] at there
  have slots := laid.slotsOf_eq
  unfold slotsOf at slots
  rw [HeapPage.record?, ← slots, List.getD_eq_getElem?_getD, List.getElem?_map,
    List.getElem?_range there.1] at live
  have record : p.record slot = rec := by simpa [there.2] using live
  exact ⟨record, laid.count ▸ there.1⟩

/-- The live slots of a page with their records. -/
theorem HeapLaid.liveSlots_eq (laid : HeapLaid p a) :
    (liveSlots p).map (fun i => ((a.no, i), p.record i)) = a.liveFrom 0 := by
  have loop : ∀ (n i : Nat), ((List.range' i n).filter fun i => !slotTombstone p i).map
      (fun i => (i, p.record i)) =
        HeapPage.liveAt i ((List.range' i n).map
          fun i => if slotTombstone p i then none else some (p.record i)) := by
    intro n
    induction n with
    | zero => exact fun i => rfl
    | succ n inductionHypothesis =>
        intro i
        rw [List.range'_succ, List.filter_cons, List.map_cons]
        cases dead : slotTombstone p i with
        | true => simpa [HeapPage.liveAt] using inductionHypothesis (i + 1)
        | false => simpa [HeapPage.liveAt] using inductionHypothesis (i + 1)
  have slots := laid.slotsOf_eq
  unfold slotsOf at slots
  rw [List.range_eq_range'] at slots
  rw [HeapPage.liveFrom, List.drop_zero, ← slots, ← loop, liveSlots, List.range_eq_range',
    List.map_map]
  rfl

end Slots

/-! ## Header pages -/

section Header

variable {p : Page}

theorem header_takeRowid (valid : pageValid p magicFileHeader = true) {rid : Nat}
    (small : rid < 2 ^ 64) :
    pageValid (setFileNextRowid p rid).seal magicFileHeader = true ∧
      (setFileNextRowid p rid).seal.nextPage = p.nextPage ∧
      fileNextRowid (setFileNextRowid p rid).seal = rid := by
  have magic : p.magic = magicFileHeader := by
    rw [pageValid, Bool.and_eq_true] at valid
    exact of_decide_eq_true valid.1
  refine ⟨pageValid_seal ?_, ?_, ?_⟩
  · exact (Block.num_setNum_of_apart p (by decide)).trans magic
  · rw [Page.nextPage_seal]
    exact Block.num_setNum_of_apart p (by decide)
  · rw [fileNextRowid, Page.num_seal _ (by decide)]
    exact Block.num_setNum_same p (by decide) small

theorem header_setNextPage (valid : pageValid p magicFileHeader = true) {no : Nat}
    (small : no < 2 ^ 32) :
    pageValid (p.setNextPage no).seal magicFileHeader = true ∧
      (p.setNextPage no).seal.nextPage = no ∧
      fileNextRowid (p.setNextPage no).seal = fileNextRowid p := by
  have magic : p.magic = magicFileHeader := by
    rw [pageValid, Bool.and_eq_true] at valid
    exact of_decide_eq_true valid.1
  refine ⟨pageValid_seal ?_, Page.nextPage_setNextPage_seal p small, ?_⟩
  · exact (Block.num_setNum_of_apart p (by decide)).trans magic
  · rw [fileNextRowid, Page.num_seal _ (by decide)]
    exact Block.num_setNum_of_apart p (by decide)

theorem fileNextRowid_initPage (magic : Nat) (type : PageType) :
    fileNextRowid (initPage magic type) = 0 := by
  simp (disch := omega) only [fileNextRowid, initPage, pageHeaderSize, Page.num_seal,
    Page.setFreeBegin, Page.setFreeEnd, Block.num_setNum_of_apart, Block.num_zero]

end Header

/-! ## Numbers along the chain -/

namespace HeapFile

variable {h h' : HeapFile}

/-- Successors are a matter of the numbers alone. -/
theorem nextPage_eq_nos (h : HeapFile) (no : Nat) :
    h.nextPage no = (((h.pages.map HeapPage.no).dropWhile (· ≠ no)).tail.head?).getD 0 := by
  have skipped : (h.pages.map HeapPage.no).dropWhile (fun n => decide (n ≠ no)) =
      (h.pages.dropWhile fun p => p.no ≠ no).map HeapPage.no := by
    rw [List.dropWhile_map]
    rfl
  rw [nextPage, skipped]
  generalize h.pages.dropWhile (fun p => decide (p.no ≠ no)) = rest
  rcases rest with - | ⟨p, - | ⟨q, rest⟩⟩ <;> rfl

theorem nextPage_of_nos (same : h'.pages.map HeapPage.no = h.pages.map HeapPage.no) (no : Nat) :
    h'.nextPage no = h.nextPage no := by
  rw [nextPage_eq_nos, nextPage_eq_nos, same]

theorem firstPage_of_nos (same : h'.pages.map HeapPage.no = h.pages.map HeapPage.no) :
    h'.firstPage = h.firstPage := by
  rw [firstPage, firstPage, ← List.head?_map, ← List.head?_map, same]

theorem tail_of_nos (same : h'.pages.map HeapPage.no = h.pages.map HeapPage.no) :
    h'.tail = h.tail := by
  rw [tail, tail, ← List.getLast?_map, ← List.getLast?_map, same]

theorem tail_eq_zero (wellFormed : h.WellFormed) : h.tail = 0 ↔ h.pages = [] := by
  constructor
  · intro zero
    by_contra some
    obtain ⟨before, p, split⟩ : ∃ before p, h.pages = before ++ [p] :=
      ⟨_, _, (List.dropLast_append_getLast some).symm⟩
    rw [tail_of_split split] at zero
    have := wellFormed.positive p (by simp [split])
    omega
  · intro empty
    rw [tail, empty]
    rfl

/-- The number that `extend` gives. -/
theorem tail_extend (h : HeapFile) (pageCount : Nat) :
    (h.extend pageCount).tail = if h.pages = [] then 1 else max pageCount (h.tail + 1) := by
  rw [tail, extend, List.getLast?_concat]
  rfl

end HeapFile

/-! ## The file -/

/-- The pages of the file hold the heap file, and there is nothing behind its tail. -/
structure RowFile (s : PoolView) (fid : Nat) (h : HeapFile) : Prop where
  wellFormed : h.WellFormed
  header : pageValid (s.pages ⟨fid, 0⟩) magicFileHeader = true
  first : (s.pages ⟨fid, 0⟩).nextPage = h.firstPage
  rowid : fileNextRowid (s.pages ⟨fid, 0⟩) = h.nextRowid
  laid : ∀ a ∈ h.pages, HeapLaid (s.pages ⟨fid, a.no⟩) a
  chained : ∀ a ∈ h.pages, (s.pages ⟨fid, a.no⟩).nextPage = h.nextPage a.no
  beyond : ∀ no, h.tail < no → s.pages ⟨fid, no⟩ = Block.zero
  allocated : h.tail < s.top fid

/-- From `s` to `s'` only the pages of the file changed, by one new page at most, and all
changes were marked. -/
structure OnlyFile (s s' : PoolView) (fid : Nat) : Prop where
  others : ∀ pid : PageId, pid.fileId ≠ fid → s'.pages pid = s.pages pid
  tops : ∀ f, f ≠ fid → s'.top f = s.top f
  grows : s.top fid ≤ s'.top fid
  trees : s'.trees = s.trees
  pins : s'.pins = s.pins
  logged : s'.unlogged = []

section Changes

variable {s s' s'' : PoolView} {fid : Nat} {h : HeapFile} {p : Page} {pins : List PageId}

theorem OnlyFile.refl (logged : s.unlogged = []) : OnlyFile s s fid :=
  ⟨fun _ _ => rfl, fun _ _ => rfl, le_rfl, rfl, rfl, logged⟩

theorem OnlyFile.trans (first : OnlyFile s s' fid) (second : OnlyFile s' s'' fid) :
    OnlyFile s s'' fid where
  others pid apart := (second.others pid apart).trans (first.others pid apart)
  tops f apart := (second.tops f apart).trans (first.tops f apart)
  grows := first.grows.trans second.grows
  trees := second.trees.trans first.trees
  pins := second.pins.trans first.pins
  logged := second.logged

/-- The file is in its pages alone. -/
theorem RowFile.congr (file : RowFile s fid h)
    (pages : ∀ no, s'.pages ⟨fid, no⟩ = s.pages ⟨fid, no⟩) (top : s.top fid ≤ s'.top fid) :
    RowFile s' fid h := by
  obtain ⟨wellFormed, header, first, rowid, laid, chained, beyond, allocated⟩ := file
  simp only [← pages] at header first rowid laid chained beyond
  exact ⟨wellFormed, header, first, rowid, laid, chained, beyond, allocated.trans_le top⟩

theorem RowFile.of_onlyFile {other : Nat} (file : RowFile s other h) (only : OnlyFile s s' fid)
    (apart : other ≠ fid) : RowFile s' other h :=
  file.congr (fun no => only.others ⟨other, no⟩ apart) (only.tops other apart).ge

/-- Page numbers are as large as the fields that hold them. -/
theorem RowFile.no_lt (file : RowFile s fid h) {a : HeapPage} (mem : a ∈ h.pages) :
    a.no < 2 ^ 32 := by
  obtain ⟨before, after, split⟩ := List.append_of_mem mem
  rcases List.eq_nil_or_concat before with rfl | ⟨before, b, rfl⟩
  · have first : h.firstPage = a.no := by
      rw [HeapFile.firstPage, split]
      rfl
    rw [← first, ← file.first]
    exact Block.num_lt _ 16 4
  · have split' : h.pages = before ++ b :: a :: after := by
      rw [split, List.concat_eq_append, List.append_assoc]
      rfl
    have next : h.nextPage b.no = a.no := file.wellFormed.nextPage_eq split'
    rw [← next, ← file.chained b (by simp [split'])]
    exact Block.num_lt _ 16 4

theorem RowFile.tail_lt (file : RowFile s fid h) : h.tail < 2 ^ 32 := by
  rcases List.eq_nil_or_concat h.pages with empty | ⟨before, a, split⟩
  · rw [(HeapFile.tail_eq_zero file.wellFormed).mpr empty]
    decide
  · rw [List.concat_eq_append] at split
    rw [HeapFile.tail_of_split split]
    exact file.no_lt (by simp [split])

/-- The header page is exchanged. -/
theorem RowFile.setHeader (file : RowFile s fid h) {rid : Nat}
    (header : pageValid p magicFileHeader = true) (first : p.nextPage = h.firstPage)
    (rowid : fileNextRowid p = rid) :
    RowFile { s.setPage ⟨fid, 0⟩ p with pins := pins } fid { h with nextRowid := rid } := by
  have same : (s.setPage ⟨fid, 0⟩ p).pages ⟨fid, 0⟩ = p := Function.update_self ..
  have other : ∀ no, no ≠ 0 → (s.setPage ⟨fid, 0⟩ p).pages ⟨fid, no⟩ = s.pages ⟨fid, no⟩ := by
    intro no apart
    exact Function.update_of_ne (by simpa using apart) ..
  constructor
  case wellFormed => exact ⟨file.wellFormed.rising, file.wellFormed.positive⟩
  case header => exact (congrArg (pageValid · magicFileHeader) same).trans header
  case first => exact (congrArg Page.nextPage same).trans first
  case rowid => exact (congrArg fileNextRowid same).trans rowid
  case laid =>
    intro a mem
    change HeapLaid ((s.setPage ⟨fid, 0⟩ p).pages ⟨fid, a.no⟩) a
    rw [other a.no (file.wellFormed.positive a mem).ne']
    exact file.laid a mem
  case chained =>
    intro a mem
    have page := other a.no (file.wellFormed.positive a mem).ne'
    exact (congrArg Page.nextPage page).trans (file.chained a mem)
  case beyond =>
    intro no above
    exact (other no (by omega)).trans (file.beyond no above)
  case allocated => exact file.allocated

/-- A data page is exchanged for one with other slots. -/
theorem RowFile.setPage (file : RowFile s fid h) {a a' : HeapPage} (mem : a ∈ h.pages)
    (same_no : a'.no = a.no) (laid : HeapLaid p a')
    (next : p.nextPage = (s.pages ⟨fid, a.no⟩).nextPage) :
    RowFile { s.setPage ⟨fid, a.no⟩ p with pins := pins } fid (h.setPage a') := by
  have same : (s.setPage ⟨fid, a.no⟩ p).pages ⟨fid, a.no⟩ = p := Function.update_self ..
  have other : ∀ no, no ≠ a.no →
      (s.setPage ⟨fid, a.no⟩ p).pages ⟨fid, no⟩ = s.pages ⟨fid, no⟩ := by
    intro no apart
    exact Function.update_of_ne (by simpa using apart) ..
  have positive := file.wellFormed.positive a mem
  have nos := HeapFile.map_no_setPage h a'
  have pages : ∀ b ∈ (h.setPage a').pages, b = a' ∨ b ∈ h.pages ∧ b.no ≠ a.no := by
    intro b b_mem
    obtain ⟨q, q_mem, rfl⟩ := List.mem_map.mp b_mem
    split
    · exact .inl rfl
    · rename_i apart
      exact .inr ⟨q_mem, same_no ▸ apart⟩
  constructor
  case wellFormed => exact file.wellFormed.setPage a'
  case header =>
    exact (congrArg (pageValid · magicFileHeader) (other 0 positive.ne)).trans file.header
  case first =>
    rw [HeapFile.firstPage_of_nos nos]
    exact (congrArg Page.nextPage (other 0 positive.ne)).trans file.first
  case rowid => exact (congrArg fileNextRowid (other 0 positive.ne)).trans file.rowid
  case laid =>
    intro b b_mem
    rcases pages b b_mem with rfl | ⟨b_mem, apart⟩
    · change HeapLaid ((s.setPage ⟨fid, a.no⟩ p).pages ⟨fid, b.no⟩) b
      rw [same_no, same]
      exact laid
    · change HeapLaid ((s.setPage ⟨fid, a.no⟩ p).pages ⟨fid, b.no⟩) b
      rw [other b.no apart]
      exact file.laid b b_mem
  case chained =>
    intro b b_mem
    rw [HeapFile.nextPage_of_nos nos]
    rcases pages b b_mem with rfl | ⟨b_mem, apart⟩
    · change ((s.setPage ⟨fid, a.no⟩ p).pages ⟨fid, b.no⟩).nextPage = _
      rw [same_no, same, next]
      exact file.chained a mem
    · change ((s.setPage ⟨fid, a.no⟩ p).pages ⟨fid, b.no⟩).nextPage = _
      rw [other b.no apart]
      exact file.chained b b_mem
  case beyond =>
    intro no above
    rw [HeapFile.tail_of_nos nos] at above
    have low := file.wellFormed.no_le_tail mem
    exact (other no (by omega)).trans (file.beyond no above)
  case allocated =>
    rw [HeapFile.tail_of_nos nos]
    exact file.allocated

/-- The first data page, linked from the header page. -/
theorem RowFile.link_first (file : RowFile s fid h) (empty : h.pages = []) (count : Nat)
    (fresh : s'.pages ⟨fid, 1⟩ = initPage magicHeap .heap)
    (linked : s'.pages ⟨fid, 0⟩ = ((s.pages ⟨fid, 0⟩).setNextPage 1).seal)
    (kept : ∀ no, 1 < no → s'.pages ⟨fid, no⟩ = s.pages ⟨fid, no⟩) (top : 1 < s'.top fid) :
    RowFile s' fid (h.extend count) := by
  obtain ⟨header, first, rowid⟩ := header_setNextPage file.header (show 1 < 2 ^ 32 by decide)
  rw [← linked] at header first rowid
  have no_tail := (HeapFile.tail_eq_zero file.wellFormed).mpr empty
  have pages : (h.extend count).pages = [{ no := 1 }] := by
    rw [HeapFile.extend, empty]
    rfl
  have tail : (h.extend count).tail = 1 := by rw [HeapFile.tail_extend, if_pos empty]
  constructor
  case wellFormed => exact file.wellFormed.extend count
  case header => exact header
  case first =>
    rw [HeapFile.firstPage, pages]
    exact first
  case rowid => exact rowid.trans file.rowid
  case laid =>
    intro a mem
    rw [pages] at mem
    cases List.mem_singleton.mp mem
    rw [fresh]
    exact heapLaid_initPage 1
  case chained =>
    intro a mem
    have next : (h.extend count).nextPage 1 = 0 :=
      (file.wellFormed.extend count).nextPage_eq (show _ = [] ++ { no := 1 } :: [] from pages)
    rw [pages] at mem
    cases List.mem_singleton.mp mem
    rw [fresh, next]
    exact initPage_nextPage magicHeap .heap
  case beyond =>
    intro no above
    rw [tail] at above
    rw [kept no above]
    exact file.beyond no (by omega)
  case allocated =>
    rw [tail]
    exact top

/-- A new page, linked from the tail. -/
theorem RowFile.link_tail (file : RowFile s fid h) (filled : h.pages ≠ []) {count new : Nat}
    (new_eq : new = max count (h.tail + 1)) (small : new < 2 ^ 32)
    (fresh : s'.pages ⟨fid, new⟩ = initPage magicHeap .heap)
    (linked : s'.pages ⟨fid, h.tail⟩ = ((s.pages ⟨fid, h.tail⟩).setNextPage new).seal)
    (kept : ∀ no, no ≠ new → no ≠ h.tail → s'.pages ⟨fid, no⟩ = s.pages ⟨fid, no⟩)
    (top : new < s'.top fid) : RowFile s' fid (h.extend count) := by
  have wellFormed := file.wellFormed.extend count
  have positive : 0 < h.tail := by
    have := (HeapFile.tail_eq_zero file.wellFormed).not.mpr filled
    omega
  have tail : (h.extend count).tail = new := by rw [HeapFile.tail_extend, if_neg filled, new_eq]
  have pages : (h.extend count).pages = h.pages ++ [{ no := new }] := by
    rw [HeapFile.extend, if_neg filled, new_eq]
  have header := kept 0 (by omega) (by omega)
  have old : ∀ a ∈ h.pages, a.no ≠ new := by
    intro a mem
    have := file.wellFormed.no_le_tail mem
    omega
  have next_new : (h.extend count).nextPage new = 0 :=
    wellFormed.nextPage_eq (show _ = h.pages ++ { no := new } :: [] from pages)
  have next_old : ∀ a ∈ h.pages, (h.extend count).nextPage a.no =
      if a.no = h.tail then new else h.nextPage a.no := by
    intro a mem
    obtain ⟨before, after, split⟩ := List.append_of_mem mem
    have split' : (h.extend count).pages = before ++ a :: (after ++ [{ no := new }]) := by
      rw [pages, split, List.append_assoc]
      rfl
    rw [wellFormed.nextPage_eq split', file.wellFormed.nextPage_eq split]
    cases after with
    | nil => rw [if_pos (HeapFile.tail_of_split split).symm, List.nil_append]; rfl
    | cons b after =>
        rw [if_neg, List.cons_append]
        · rfl
        · have rising := file.wellFormed.rising
          have last := file.wellFormed.no_le_tail (show b ∈ h.pages by simp [split])
          rw [split, List.map_append, List.pairwise_append, List.map_cons, List.pairwise_cons]
            at rising
          have := rising.2.1.1 b.no (by simp)
          omega
  constructor
  case wellFormed => exact wellFormed
  case header =>
    rw [header]
    exact file.header
  case first =>
    have first : (h.extend count).firstPage = h.firstPage := by
      rw [HeapFile.firstPage, HeapFile.firstPage, pages, List.head?_append_of_ne_nil _ filled]
    rw [header, first]
    exact file.first
  case rowid =>
    rw [header]
    exact file.rowid
  case laid =>
    intro a mem
    rw [pages, List.mem_append, List.mem_singleton] at mem
    rcases mem with mem | rfl
    · by_cases last : a.no = h.tail
      · rw [last, linked, ← last]
        exact (file.laid a mem).setNextPage new
      · rw [kept a.no (old a mem) last]
        exact file.laid a mem
    · rw [fresh]
      exact heapLaid_initPage new
  case chained =>
    intro a mem
    rw [pages, List.mem_append, List.mem_singleton] at mem
    rcases mem with mem | rfl
    · rw [next_old a mem]
      split
      · rename_i last
        rw [last, linked, Page.nextPage_setNextPage_seal _ small]
      · rename_i last
        rw [kept a.no (old a mem) last]
        exact file.chained a mem
    · rw [fresh, next_new]
      exact initPage_nextPage magicHeap .heap
  case beyond =>
    intro no above
    rw [tail] at above
    rw [kept no (by omega) (by omega)]
    exact file.beyond no (by omega)
  case allocated =>
    rw [tail]
    exact top

end Changes

end MySimpleDb.Storage
