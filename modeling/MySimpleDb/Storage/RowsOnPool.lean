import MySimpleDb.Storage.RowFile

/-!
# Rows over the pool

Insertion, deletion and reading of rows over the contract of the pool do to the pages
of a table file what the heap file has, whatever the number of pages on disk is.
-/

namespace MySimpleDb.Storage

open MySimpleDb.Lib

variable {frames fid : Nat} {own : PageId → Page → Prop} {s : PoolView} {h : HeapFile}

theorem onlyFile_setPage {no : Nat} (p : Page) (logged : s.unlogged = []) :
    OnlyFile s { s.setPage ⟨fid, no⟩ p with pins := s.pins } fid where
  others pid apart := by
    have apart : pid ≠ ⟨fid, no⟩ := by
      rintro rfl
      exact apart rfl
    exact Function.update_of_ne apart ..
  tops _ _ := rfl
  grows := le_rfl
  trees := rfl
  pins := rfl
  logged := logged

/-! ## Row ids -/

theorem takeRowid_spec (owned : ∀ p, own ⟨fid, 0⟩ p) (file : RowFile s fid h) (logged : s.unlogged = [])
    (room : s.pins.length < frames) :
    Prog.Returns (PoolView.strict frames own) (TableFile.takeRowid fid) s fun rid s' =>
      rid = (h.nextRowid + 1) % 2 ^ 64 ∧ RowFile s' fid { h with nextRowid := rid } ∧
        OnlyFile s s' fid ∧ s'.top = s.top := by
  have small : (h.nextRowid + 1) % 2 ^ 64 < 2 ^ 64 := Nat.mod_lt _ (by decide)
  obtain ⟨header, first, rowid⟩ := header_takeRowid file.header small
  unfold TableFile.takeRowid
  apply Prog.Returns.bind
  refine PoolView.strict_read room file.header ?_
  apply Prog.Returns.bind
  refine PoolView.strict_peek List.mem_cons_self ?_
  rw [file.rowid]
  refine PoolView.strict_save (owned _) rfl logged ?_
  refine Prog.Returns.pure ⟨rfl, file.setHeader header (first.trans file.first) rowid, ?_, rfl⟩
  exact onlyFile_setPage _ logged

/-! ## New pages -/

theorem linkHeaderToFirstDataPage_spec (owned : PoolView.Owns own fid) (file : RowFile s fid h)
    (empty : h.pages = []) (logged : s.unlogged = []) (room : s.pins.length + 1 < frames)
    (count : Nat) :
    Prog.Returns (PoolView.strict frames own) (TableFile.linkHeaderToFirstDataPage fid) s
      fun no s' => no = 1 ∧ RowFile s' fid (h.extend count) ∧ OnlyFile s s' fid ∧
        s'.top fid ≤ s.top fid + 1 := by
  have no_tail := (HeapFile.tail_eq_zero file.wellFormed).mpr empty
  have allocated := file.allocated
  have apart : (⟨fid, 1⟩ : PageId) ≠ ⟨fid, 0⟩ := by simp
  unfold TableFile.linkHeaderToFirstDataPage
  apply Prog.Returns.bind
  refine PoolView.strict_read (by omega) file.header ?_
  apply Prog.Returns.bind
  refine PoolView.strict_allocate (by simpa using room) (file.beyond 1 (by omega)) ?_
  refine PoolView.strict_save (owned 1 (by decide) _) rfl logged ?_
  apply Prog.Returns.bind
  refine PoolView.strict_peek List.mem_cons_self ?_
  refine PoolView.strict_save (owned 0 (by decide) _) rfl logged ?_
  refine Prog.Returns.pure ⟨rfl, file.link_first empty count ?_ ?_ ?_ ?_, ?_, ?_⟩
  · simp [apart]
  · simp [apart.symm]
  · intro no above
    have first : (⟨fid, no⟩ : PageId) ≠ ⟨fid, 1⟩ := by simp; omega
    have header : (⟨fid, no⟩ : PageId) ≠ ⟨fid, 0⟩ := by simp; omega
    simp [first, header]
  · simp
  · constructor
    case others =>
      intro pid elsewhere
      have first : pid ≠ ⟨fid, 1⟩ := by rintro rfl; exact elsewhere rfl
      have header : pid ≠ ⟨fid, 0⟩ := by rintro rfl; exact elsewhere rfl
      simp [first, header]
    case tops => exact fun f other => Function.update_of_ne other ..
    case grows => simp
    case trees => rfl
    case pins => rfl
    case logged => exact logged
  · simp
    omega

theorem extend_spec {pins : List PageId} (owned : PoolView.Owns own fid) (file : RowFile s fid h)
    (filled : h.pages ≠ []) (pinned : s.pins = ⟨fid, h.tail⟩ :: pins) (logged : s.unlogged = [])
    (room : s.pins.length < frames) (small : s.top fid < 2 ^ 32) :
    Prog.Returns (PoolView.strict frames own) (TableFile.extend fid h.tail) s fun no s' =>
      ∃ count, no = (h.extend count).tail ∧ RowFile s' fid (h.extend count) ∧
        OnlyFile { s with pins := pins } s' fid ∧ s'.top fid ≤ s.top fid + 1 := by
  have allocated := file.allocated
  have tail_mod : (h.tail + 1) % 2 ^ 32 = h.tail + 1 := Nat.mod_eq_of_lt (by omega)
  unfold TableFile.extend
  apply Prog.Returns.bind
  refine PoolView.strict_pageCount fun count le => ?_
  obtain ⟨new, new_eq⟩ : ∃ new, new = max count (h.tail + 1) := ⟨_, rfl⟩
  have new_le : new ≤ s.top fid := by omega
  have apart : (⟨fid, new⟩ : PageId) ≠ ⟨fid, h.tail⟩ := by simp; omega
  rw [tail_mod, ← new_eq]
  apply Prog.Returns.bind
  refine PoolView.strict_allocate room (file.beyond new (by omega)) ?_
  refine PoolView.strict_save (owned new (by omega) _) rfl logged ?_
  apply Prog.Returns.bind
  refine PoolView.strict_peek (by simp [pinned]) ?_
  refine PoolView.strict_save (owned h.tail (by omega) _) pinned logged ?_
  refine Prog.Returns.pure ⟨count, ?_, ?_, ?_, ?_⟩
  · rw [HeapFile.tail_extend, if_neg filled, new_eq]
  · apply file.link_tail filled new_eq (by omega)
    · simp [apart]
    · simp [apart.symm]
    · intro no not_new not_tail
      have new_page : (⟨fid, no⟩ : PageId) ≠ ⟨fid, new⟩ := by simpa using not_new
      have tail_page : (⟨fid, no⟩ : PageId) ≠ ⟨fid, h.tail⟩ := by simpa using not_tail
      simp [new_page, tail_page]
    · simp
  · constructor
    case others =>
      intro pid elsewhere
      have new_page : pid ≠ ⟨fid, new⟩ := by rintro rfl; exact elsewhere rfl
      have tail_page : pid ≠ ⟨fid, h.tail⟩ := by rintro rfl; exact elsewhere rfl
      simp [new_page, tail_page]
    case tops => exact fun f other => Function.update_of_ne other ..
    case grows => simp
    case trees => rfl
    case pins => rfl
    case logged => exact logged
  · simp
    omega

/-! ## Records -/

/-- The page at the tail. -/
theorem RowFile.tail_page (file : RowFile s fid h) (filled : h.pages ≠ []) :
    ∃ a ∈ h.pages, a.no = h.tail ∧ h.page? h.tail = some a := by
  obtain ⟨before, a, split⟩ : ∃ before a, h.pages = before ++ [a] :=
    ⟨_, _, (List.dropLast_append_getLast filled).symm⟩
  have tail := HeapFile.tail_of_split split
  exact ⟨a, by simp [split], tail.symm, by rw [tail]; exact file.wellFormed.page?_eq split⟩

/-- A turn of the loop on a tail that has room. -/
theorem insertLoop_fits {rec : Bytes} {fuel slot : Nat} {a a' : HeapPage} (owned : PoolView.Owns own fid)
    (file : RowFile s fid h) (mem : a ∈ h.pages) (logged : s.unlogged = [])
    (room : s.pins.length < frames) (fits : a.append rec = some (a', slot)) :
    Prog.Returns (PoolView.strict frames own) (TableFile.insertLoop fid rec (fuel + 1) a.no) s
      fun r s' => r = (a.no, slot) ∧ RowFile s' fid (h.setPage a') ∧ OnlyFile s s' fid ∧
        s'.top = s.top := by
  have laid := file.laid a mem
  have same_no : a'.no = a.no := by
    unfold HeapPage.append at fits
    split at fits <;> cases fits
    rfl
  rcases laid.append rec with ⟨-, full⟩ | ⟨p', b, i, done, done', laid'⟩
  · rw [full] at fits
    cases fits
  · rw [done'] at fits
    cases fits
    unfold TableFile.insertLoop
    apply Prog.Returns.bind
    refine PoolView.strict_read room laid.valid ?_
    apply Prog.Returns.bind
    refine PoolView.strict_peek List.mem_cons_self ?_
    simp only [done]
    refine PoolView.strict_save (owned a.no (file.no_lt mem) _) rfl logged ?_
    refine Prog.Returns.pure ⟨rfl, file.setPage mem same_no laid' (laid.nextPage_append done), ?_, rfl⟩
    exact onlyFile_setPage p' logged

/-- The loop on a tail that is full goes on with a new page. -/
theorem insertLoop_full {rec : Bytes} {fuel : Nat} {a : HeapPage} (owned : PoolView.Owns own fid)
    (file : RowFile s fid h) (mem : a ∈ h.pages) (last : a.no = h.tail) (logged : s.unlogged = [])
    (room : s.pins.length + 1 < frames) (small : s.top fid < 2 ^ 32)
    (full : a.append rec = none) {post : Nat × Nat → PoolView → Prop}
    (goes_on : ∀ count s', RowFile s' fid (h.extend count) → OnlyFile s s' fid →
      s'.top fid ≤ s.top fid + 1 → Prog.Returns (PoolView.strict frames own)
        (TableFile.insertLoop fid rec fuel (h.extend count).tail) s' post) :
    Prog.Returns (PoolView.strict frames own) (TableFile.insertLoop fid rec (fuel + 1) h.tail) s
      post := by
  have laid := file.laid a mem
  rcases laid.append rec with ⟨full', -⟩ | ⟨p', b, i, -, fits, -⟩
  · rw [last] at laid full'
    unfold TableFile.insertLoop
    apply Prog.Returns.bind
    refine PoolView.strict_read (by omega) laid.valid ?_
    apply Prog.Returns.bind
    refine PoolView.strict_peek List.mem_cons_self ?_
    simp only [full']
    apply Prog.Returns.bind
    have pinned : RowFile { s with pins := ⟨fid, h.tail⟩ :: s.pins } fid h :=
      file.congr (fun _ => rfl) le_rfl
    apply (extend_spec owned pinned (List.ne_nil_of_mem mem) rfl logged (by simpa using room)
      small).mono
    rintro no s' ⟨count, rfl, file', only, top⟩
    exact goes_on count s' file' ⟨only.others, only.tops, only.grows, only.trees, only.pins,
      only.logged⟩ top
  · rw [fits] at full
    cases full

/-- A record of legal size is appended as the heap file has it, for some number of pages on
disk. -/
theorem insertLoop_spec {rec : Bytes} (owned : PoolView.Owns own fid) (file : RowFile s fid h)
    (filled : h.pages ≠ []) (logged : s.unlogged = []) (room : s.pins.length + 1 < frames)
    (small : s.top fid < 2 ^ 32) (legal : rec.length ≤ maxRecordLen) :
    Prog.Returns (PoolView.strict frames own) (TableFile.insertLoop fid rec scanBound h.tail) s
      fun r s' => ∃ count h', HeapFile.insertLoop count rec 2 h = .ok (h', r.1, r.2) ∧
        r.1 = h'.tail ∧ RowFile s' fid h' ∧ OnlyFile s s' fid ∧ s'.top fid ≤ s.top fid + 1 := by
  obtain ⟨fuel, fuel_eq⟩ : ∃ fuel, scanBound = fuel + 2 := ⟨scanBound - 2, rfl⟩
  rw [fuel_eq]
  obtain ⟨a, mem, last, found⟩ := file.tail_page filled
  cases fits : a.append rec with
  | some taken =>
      obtain ⟨a', slot⟩ := taken
      rw [← last]
      apply (insertLoop_fits owned file mem logged (by omega) fits).mono
      rintro r s' ⟨rfl, file', only, top⟩
      have same_no : a'.no = a.no := by
        unfold HeapPage.append at fits
        split at fits <;> cases fits
        rfl
      refine ⟨0, h.setPage a', ?_, ?_, file', only, by rw [top]; omega⟩
      · rw [HeapFile.insertLoop, found, Option.bind_some, fits]
        simp [same_no]
      · rw [HeapFile.tail_of_nos (HeapFile.map_no_setPage h a')]
        exact last
  | none =>
      apply insertLoop_full owned file mem last logged room small fits
      intro count s₁ file₁ only₁ top₁
      have filled₁ : (h.extend count).pages ≠ [] := by simp [HeapFile.extend]
      obtain ⟨b, mem₁, last₁, found₁⟩ := file₁.tail_page filled₁
      have fresh : b.slots = [] ∧ b.freeBegin = 24 := by
        have split : (h.extend count).pages = h.pages ++
            [{ no := if h.pages = [] then 1 else max count (h.tail + 1) }] := rfl
        have found := file₁.wellFormed.page?_eq split
        rw [← HeapFile.tail_of_split split, found₁] at found
        cases found
        exact ⟨rfl, rfl⟩
      have takes : b.append rec = some ({ b with
          freeBegin := b.freeBegin + rec.length, slots := b.slots ++ [some rec] }, 0) := by
        rw [HeapPage.append, HeapPage.freeEnd, fresh.1, fresh.2]
        have : ¬ pageSize - slotSize * ([] : List (Option Bytes)).length - 24 <
            rec.length + slotSize := by
          simp only [maxRecordLen, pageSize, pageHeaderSize, slotSize, List.length_nil] at legal ⊢
          omega
        rw [if_neg this]
        rfl
      rw [← last₁]
      apply (insertLoop_fits owned file₁ mem₁ only₁.logged (by rw [only₁.pins]; omega) takes).mono
      rintro r s' ⟨rfl, file', only, top⟩
      refine ⟨count, _, ?_, ?_, file', only₁.trans only, by rw [top]; exact top₁⟩
      · rw [HeapFile.insertLoop, found, Option.bind_some, fits]
        dsimp only
        rw [HeapFile.insertLoop, found₁, Option.bind_some, takes]
      · rw [HeapFile.tail_of_nos (HeapFile.map_no_setPage _ _)]
        exact last₁

/-! ## Deletion -/

/-- A reference to a data page of the file passes the checks. -/
theorem HeapFile.WellFormed.checkRowRef_ok (wellFormed : h.WellFormed) {a : HeapPage}
    (mem : a ∈ h.pages) {ref : RowRef} (no : ref.page.pageNo = a.no) (count : Nat) :
    HeapFile.checkRowRef count h ref = .ok () := by
  have positive := wellFormed.positive a mem
  have low := wellFormed.no_le_tail mem
  have located : ref.page ≠ invalidPage := by
    intro invalid
    rw [invalid] at no
    exact positive.ne no
  rw [HeapFile.checkRowRef, if_neg located, if_neg (by omega), if_neg (by omega)]

theorem HeapFile.WellFormed.deleteRow_eq (wellFormed : h.WellFormed) {a : HeapPage}
    (mem : a ∈ h.pages) {ref : RowRef} (no : ref.page.pageNo = a.no) (count : Nat) :
    HeapFile.deleteRow count h ref = match a.record? ref.slot with
      | none => .ok (h, 0)
      | some _ => .ok (h.setPage (a.delete ref.slot), 1) := by
  have found : h.page? ref.page.pageNo = some a := wellFormed.page?_iff.mpr ⟨mem, no.symm⟩
  cases record : a.record? ref.slot <;>
    rw [HeapFile.deleteRow, wellFormed.checkRowRef_ok mem no, Res.bind_ok, HeapFile.readPage, found,
      Res.bind_ok, record]

/-- A slot of a data page dies as in the heap file. -/
theorem deleteSlot_spec {ref : RowRef} (owned : ∀ p, pageValid p magicHeap = true → own ref.page p)
    (file : RowFile s fid h) {a : HeapPage} (mem : a ∈ h.pages) (page : ref.page = ⟨fid, a.no⟩)
    (logged : s.unlogged = []) (room : s.pins.length < frames) :
    Prog.Returns (PoolView.strict frames own) (TableFile.deleteSlot ref) s fun n s' =>
      ∃ h', (∀ count, HeapFile.deleteRow count h ref = .ok (h', n)) ∧ RowFile s' fid h' ∧
        OnlyFile s s' fid ∧ s'.top = s.top := by
  have laid := file.laid a mem
  have deleted := file.wellFormed.deleteRow_eq mem (by rw [page])
  unfold TableFile.deleteSlot
  rw [page] at owned ⊢
  apply Prog.Returns.bind
  refine PoolView.strict_read room laid.valid ?_
  apply Prog.Returns.bind
  refine PoolView.strict_peek List.mem_cons_self ?_
  have dead := laid.record_none ref.slot
  cases record : a.record? ref.slot with
  | none =>
      rw [if_pos (dead.mp record)]
      apply Prog.Returns.bind
      refine PoolView.strict_unpin List.mem_cons_self (by simp [logged]) ?_
      rw [List.erase_cons_head]
      refine Prog.Returns.pure ⟨h, fun count => ?_, file.congr (fun _ => rfl) le_rfl,
        .refl logged, rfl⟩
      rw [deleted, record]
  | some rec =>
      obtain ⟨-, below⟩ := laid.record_some record
      rw [if_neg fun gone => by
        rw [dead.mpr gone] at record
        cases record]
      refine PoolView.strict_save (owned _ (laid.delete below).valid) rfl logged ?_
      refine Prog.Returns.pure ⟨h.setPage (a.delete ref.slot), fun count => ?_,
        file.setPage mem rfl (laid.delete below) (laid.nextPage_delete below),
        onlyFile_setPage _ logged, rfl⟩
      rw [deleted, record]

end MySimpleDb.Storage
